import Scarab.EngineCancel
import Scarab.EngineRerun

/-!
# Gates

A gate is a step with no unit: it waits, Pending, on an open Attempt until a human, a
timer, a plugin or its expiry resolves it. Reading the journal for a wait's approvals and
clock, resolving a wait, and the scheduler's own pass over the waiting gates.
-/
namespace Scarab.Engine

open Interleave

/-- Every need of the gate has Succeeded. -/
def gateReached (gate : StepRun) (steps : List StepRun) : Bool :=
  gate.needs.all fun n => steps.any fun s => s.step = n ∧ s.status = .succeeded

/-- The events that begin a new episode of waiting on a gate. -/
def isGateRearm (step : StepId) : EventPayload → Bool
  | .stepTransitioned s _ .pending => s = step
  | .attemptSuperseded s _ _ => s = step
  | .runRerunRequested _ invalidated _ _ => step ∈ invalidated
  | _ => false

/-- The journal since the gate's latest re-arm. -/
def sinceRearm (events : List Event) (step : StepId) : List Event :=
  (events.reverse.takeWhile fun e => !isGateRearm step e.kind).reverse

/-- The principals who approved the gate's current wait, once each. -/
def gateApprovers (events : List Event) (step : StepId) : List Text :=
  (sinceRearm events step).foldl (fun seen e =>
    match e.kind with
    | .gateApproved s by_ => if s = step ∧ by_ ∉ seen then seen ++ [by_] else seen
    | _ => seen) []

/-- When an Environment approval recorded for the current wait lets it release. -/
def environmentApprovalMet (events : List Event) (step : StepId) : Option Timestamp :=
  (sinceRearm events step).reverse.findSome? fun e =>
    match e.kind with
    | .environmentApprovalMet s _ _ releaseAt => if s = step then some releaseAt else none
    | _ => none

/-- What the journal says so far about when a gate's wait began. -/
structure WaitClock where
  firstRunning : Option Timestamp
  rearmed : Option Timestamp
  finished : List (StepId × Option Timestamp)

def later (t : Option Timestamp) (at_ : Timestamp) : Option Timestamp :=
  some (match t with | none => at_ | some l => max l at_)

def WaitClock.finish (c : WaitClock) (step : StepId) (at_ : Timestamp) : WaitClock :=
  { c with finished := c.finished.map fun x => if x.1 = step then (x.1, later x.2 at_) else x }

def WaitClock.observe (gate : StepId) (c : WaitClock) (e : Event) : WaitClock :=
  let c := match e.kind with
    | .runTransitioned _ .running => { c with firstRunning := c.firstRunning <|> some e.at_ }
    | .stepTransitioned s _ .succeeded => c.finish s e.at_
    | .gateReleased s => c.finish s e.at_
    | .gateResolved s _ true _ _ => c.finish s e.at_
    | .stepTransitioned s _ .pending =>
        { c with finished := c.finished.map fun x => if x.1 = s then (x.1, none) else x }
    | _ => c
  if isGateRearm gate e.kind then { c with rearmed := later c.rearmed e.at_ } else c

/-- When the gate's wait began: its needs finished, or it was re-armed, whichever is later. -/
def waitBeganAt (events : List Event) (gate : StepRun) (at_ : Timestamp) : Timestamp :=
  let c := events.foldl (WaitClock.observe gate.step)
    ⟨none, none, gate.needs.dedup.map fun n => (n, none)⟩
  let needsFinished :=
    if gate.needs = [] then c.firstRunning
    else if c.finished.any (·.2.isNone) then some at_
    else (c.finished.filterMap (·.2)).max?
  let start := match needsFinished, c.rearmed with
    | some f, some r => max f r
    | some t, none => t
    | none, some t => t
    | none, none => at_
  min start at_

/-- The reason a gate nobody needs any more is skipped with. -/
def gateNoLongerNeeded : String := "no longer needed: every step that needs it has finished"

/-- Whether the step's latest skip was the unneeded one, reading the journal newest first. -/
def skippedAsUnneededFrom (step : StepId) : List Event → Bool → Bool
  | [], _ => false
  | e :: older, bare =>
      match e.kind with
      | .stepSkipped s reason =>
          if s = step then decide (reason = gateNoLongerNeeded)
          else skippedAsUnneededFrom step older bare
      | .stepTransitioned s _ to_ =>
          if s = step then
            if bare ∨ to_ ≠ .skipped then false else skippedAsUnneededFrom step older true
          else skippedAsUnneededFrom step older bare
      | .runRerunRequested _ invalidated _ _ =>
          if step ∈ invalidated then false else skippedAsUnneededFrom step older bare
      | _ => skippedAsUnneededFrom step older bare

def skippedAsUnneeded (events : List Event) (step : StepId) : Bool :=
  skippedAsUnneededFrom step events.reverse false

/-- Whether a step waits behind a waiting gate, with the answers found so far. -/
def behindWaitingGate (steps : List StepRun) (waiting : List StepId) :
    ℕ → StepId → List (StepId × Bool) → Bool × List (StepId × Bool)
  | 0, _, memo => (false, memo)
  | n + 1, id, memo =>
      match memo.find? (·.1 = id) with
      | some (_, b) => (b, memo)
      | none =>
          match steps.find? (·.step = id) with
          | none => (false, (id, false) :: memo)
          | some s =>
              let (behind, memo) := s.needs.foldl (fun (acc : Bool × List (StepId × Bool)) m =>
                if acc.1 then acc
                else if m ∈ waiting then (true, acc.2)
                else match steps.find? (·.step = m) with
                  | some ns =>
                      if ns.status.isTerminal then (false, acc.2)
                      else behindWaitingGate steps waiting n ns.step acc.2
                  | none => (false, acc.2)) (false, (id, false) :: memo)
              (behind, (id, behind) :: memo)

/-- The only outstanding work of a run is gate waits and what stands behind them. -/
def onlyWaitsOutstanding (steps : List StepRun) : Bool :=
  let succeeded (id : StepId) : Bool :=
    (steps.find? (·.step = id)).any fun s => s.status = .succeeded
  let waiting := (steps.filter fun s =>
    s.status = .pending ∧ s.needs.all succeeded ∧ s.isGate).map (·.step)
  let outstanding := steps.filter fun s => !s.status.isTerminal ∧ s.step ∉ waiting
  if waiting = [] then false
  else
    (outstanding.foldl (fun (acc : Bool × List (StepId × Bool)) s =>
      if !acc.1 then acc
      else if s.status ≠ .pending then (false, acc.2)
      else behindWaitingGate steps waiting (steps.length + 1) s.step acc.2) (true, [])).1

structure GateVerdict where
  passed : Bool
  reason : String
  expired : Bool

def gateResolution (v : GateVerdict) (by_ : Option Text) (fence : Option AttemptId)
    (legacyStartedAt at_ : Timestamp) : GateResolution :=
  ⟨v.passed, v.reason, v.expired, by_, fence, legacyStartedAt, at_, none⟩

/-- Only an unfenced verdict can mint an Attempt already closed: its clock start. -/
def legacyStart (run : RunId) (gate : StepRun) (fence : Option AttemptId) (at_ : Timestamp) :
    Eff Timestamp :=
  match fence with
  | some _ => pure at_
  | none => do
      let events ← read (.events run)
      pure (waitBeganAt events gate at_)

/-- Land a verdict on a gate; `false` when there was no wait for it. -/
def resolveGate (run : RunId) (gate : StepRun) (v : GateVerdict) (by_ : Option Text)
    (fence : Option AttemptId) : Eff Bool := do
  let at_ ← now
  let legacy ← legacyStart run gate fence at_
  let closed ← commit (.resolveGateWait run gate.step (gateResolution v by_ fence legacy at_))
  pure closed.isSome

/-- Resume a suspended run once something is runnable. -/
def reopenIfRunnable (run : RunId) : Eff Unit := do
  match ← read (.runStatus run) with
  | some .suspended => do
      let steps ← read (.stepsOfRun run)
      if onlyWaitsOutstanding steps then pure () else reopen run .suspended .running
  | _ => pure ()

def releaseGate (run : RunId) (step : StepId) : Eff Unit := do
  ensureCreationFinished run
  let steps ← read (.stepsOfRun run)
  match steps.find? fun s => s.step = step ∧ s.isGate with
  | none => .err (.stepNotFound step)
  | some gate =>
      if gate.status = .pending ∧ !gateReached gate steps then .err (.gateNotReached step)
      else do
        if ← resolveGate run gate ⟨true, "released", false⟩ none none then reopenIfRunnable run
        else pure ()

/-- The gate kinds a human may reject. -/
def GateKind.rejectable : GateKind → Bool
  | .manual | .timer | .external | .plugin => true
  | .deployment => false

def rejectGate (run : RunId) (step : StepId) (by_ : Text) (reason : String) : Eff Bool := do
  ensureCreationFinished run
  let steps ← read (.stepsOfRun run)
  match steps.find? (·.step = step) with
  | none => .err (.stepNotFound step)
  | some gate =>
      if !gate.gateKind.any (·.rejectable) then .err (.notARejectableGate step)
      else if gate.status ≠ .pending then .err (.gateNotPending step gate.status)
      else if !gateReached gate steps then .err (.gateNotReached step)
      else do
        if ← resolveGate run gate ⟨false, reason, false⟩ (some by_) none then do
          reopenIfRunnable run
          pure true
        else pure false

/-- The code points a trim removes. -/
def isBlankChar (c : Char) : Bool :=
  let n := c.toNat
  (9 ≤ n ∧ n ≤ 13) ∨ n = 32 ∨ n = 0x85 ∨ n = 0xA0 ∨ n = 0x1680 ∨ (0x2000 ≤ n ∧ n ≤ 0x200A) ∨
    n = 0x2028 ∨ n = 0x2029 ∨ n = 0x202F ∨ n = 0x205F ∨ n = 0x3000

/-- A status as the engine prints it. -/
def StepStatus.name : StepStatus → String
  | .pending => "Pending"
  | .ready => "Ready"
  | .running => "Running"
  | .succeeded => "Succeeded"
  | .failed => "Failed"
  | .skipped => "Skipped"
  | .cancelled => "Cancelled"

structure PluginGateVerdict where
  passed : Bool
  reason : Option String
  outputs : Results

def releasesPluginGate (run : RunId) (step : StepId) (releaser : Text) : Eff Bool := do
  let steps ← read (.stepsOfRun run)
  if steps.any fun s => s.step = step ∧ s.gateKind = some .plugin then do
    let stored ← read (.gateReleaser run step)
    pure (stored = some releaser)
  else pure false

/-- Whether a wait opened at `startedAt` has outlived an expiry of `secs` seconds. -/
def waitExpired (startedAt : Timestamp) (secs : ℤ) (at_ : Timestamp) : Bool :=
  saturate (startedAt + saturate (secs * 1000)) ≤ at_

/-- The reason and the outputs a plugin's verdict records, checked against the gate. -/
def pluginVerdict (run : RunId) (step : StepId) (releaser : Text) (v : PluginGateVerdict) :
    Eff (String × Option Results) :=
  if v.passed then do
    match ← orDb (← ask (.checkGateOutputs run step v.outputs)) with
    | none => .err .pluginGateNotFound
    | some (.error why) => .err (.pluginGateInvalid why)
    | some (.ok outputs) => pure ("released by " ++ String.ofList releaser, some outputs)
  else
    match v.reason.filter fun r => !r.toList.all isBlankChar with
    | none => .err (.pluginGateInvalid "a fail needs a reason")
    | some reason => pure (reason, none)

/-- A plugin's answer to the wait it was given: fenced on that wait. -/
def resolvePluginGate (run : RunId) (step : StepId) (releaser : Text) (attempt : AttemptId)
    (v : PluginGateVerdict) : Eff Bool := do
  let steps ← read (.stepsOfRun run)
  match steps.find? fun s => s.step = step ∧ s.gateKind = some .plugin with
  | none => .err .pluginGateNotFound
  | some gate => do
      if !(← releasesPluginGate run step releaser) then .err .pluginGateNotFound
      else if gate.status ≠ .pending then .err (.pluginGateNotWaiting ("it is " ++ gate.status.name))
      else if !gateReached gate steps then .err (.pluginGateNotWaiting "it is not reached yet")
      else
        match openGateAttempt gate with
        | none => .err (.pluginGateNotWaiting "it has no open wait")
        | some wait => do
            if wait.id ≠ attempt then
              .err (.pluginGateNotWaiting ("its open wait is `" ++ String.ofList wait.id.text ++
                "`, not `" ++ String.ofList attempt.text ++ "`"))
            else
              let at_ ← now
              let ir ← read (.runIr run)
              match ((ir.bind (·.step? step)).bind (·.gateExpiresAfter)).filter
                  (waitExpired wait.startedAt · at_) with
              | some secs => .err (.pluginGateExpired secs)
              | none => do
                  let (reason, outputs) ← pluginVerdict run step releaser v
                  let closed ← commit (.resolveGateWait run step
                    ⟨v.passed, reason, false, some releaser, some attempt, at_, at_, outputs⟩)
                  if closed.isSome then do
                    reopenIfRunnable run
                    pure true
                  else pure false

/-- Record one principal's approval of the gate's current wait. -/
def recordGateApproval (run : RunId) (step : StepId) (by_ : Text) : Eff Unit := do
  ensureCreationFinished run
  let steps ← read (.stepsOfRun run)
  match steps.find? (·.step = step) with
  | none => .err (.stepNotFound step)
  | some gate =>
      if gate.gateKind ≠ some .manual then .err (.notAManualGate step)
      else if gate.status ≠ .pending then .err (.gateNotPending step gate.status)
      else if !gateReached gate steps then .err (.gateNotReached step)
      else do
        let events ← read (.events run)
        if by_ ∈ gateApprovers events step then pure ()
        else
          let at_ ← now
          commit (.appendEvent ⟨run, .gateApproved step by_, at_⟩)

structure GateSettings where
  expiresAfterSecs : Option ℤ
  environmentApproval : Bool

def gateSettings (ir : Option RunIr) (step : StepId) : GateSettings :=
  match ir.bind (·.step? step) with
  | none => ⟨none, false⟩
  | some s => ⟨s.gateExpiresAfter.filter (0 ≤ ·),
      s.manualGate && s.environmentApprovalGate != some false⟩

/-- The verdict a gate's own clock gives it, if any. -/
def gateVerdict (run : RunId) (gate : StepRun) (wait : Attempt) (settings : GateSettings)
    (approvalReleaseAt : Option Timestamp) (at_ : Timestamp) : Eff (Option GateVerdict) :=
  let expiry : Option GateVerdict := (settings.expiresAfterSecs.filter
    (waitExpired wait.startedAt · at_)).map fun secs =>
      ⟨false, "not released within " ++ toString secs ++ "s of its needs finishing", true⟩
  match gate.gateKind with
  | some .manual =>
      if approvalReleaseAt.any (· ≤ at_) then
        pure (some ⟨true, "approved; the Environment's wait timer ran out", false⟩)
      else pure expiry
  | some .timer => do
      let secs ← read (.gateTimerSeconds run gate.step)
      match secs.filter (waitExpired wait.startedAt · at_) with
      | some secs =>
          pure (some ⟨true, "timer elapsed (" ++ toString secs ++ "s after its needs finished)",
            false⟩)
      | none => pure expiry
  | some .deployment =>
      pure (some ⟨false, "this gate waited on the Deployment record, which Scarab no longer " ++
        "keeps (ADR-0074); wait for your CD tool in a step instead", false⟩)
  | _ => pure expiry

/-- What a pass has read so far: the journal and the pipeline, each at most once. -/
structure GatePass where
  events : Option (List Event)
  ir : Option (Option RunIr)

def GatePass.readEvents (run : RunId) (p : GatePass) : Eff (List Event × GatePass) :=
  match p.events with
  | some events => pure (events, p)
  | none => do
      let events ← read (.events run)
      pure (events, { p with events := some events })

def GatePass.readIr (run : RunId) (p : GatePass) : Eff (Option RunIr × GatePass) :=
  match p.ir with
  | some ir => pure (ir, p)
  | none => do
      let ir ← read (.runIr run)
      pure (ir, { p with ir := some ir })

/-- The open wait of a reached gate, opened now when it has none. -/
def gateWait (leader : LeaderTerm) (run : RunId) (gate : StepRun) (p : GatePass) :
    Eff (Option Attempt × GatePass) :=
  match openGateAttempt gate with
  | some a => pure (some a, p)
  | none => do
      let (events, p) ← p.readEvents run
      let at_ ← now
      let wait ← commit (.openGateWait leader run gate.step (waitBeganAt events gate at_) at_)
      pure (wait, p)

/-- Store a plugin gate's inputs on its wait, once; inputs that do not render fail the gate.
`true` when the gate goes on waiting. -/
def storeGateInputs (leader : LeaderTerm) (run : RunId) (gate : StepRun) (wait : Attempt) :
    Eff Bool :=
  if gate.gateKind ≠ some .plugin then pure true
  else do
    match ← read (.gateWaitInputs run gate.step wait.id) with
    | some _ => pure true
    | none => do
        match ← orDb (← ask (.renderGateInputs run gate.step)) with
        | .ok inputs => do
            let _ ← commit (.setGateWaitInputs leader run gate.step wait.id inputs)
            pure true
        | .error reason => do
            let _ ← resolveGate run gate
              ⟨false, "its inputs do not render: " ++ reason, false⟩ none (some wait.id)
            pure false

/-- When an approval recorded for the wait lets it release. -/
def approvalReleaseAt (run : RunId) (gate : StepRun) (settings : GateSettings) (p : GatePass) :
    Eff (Option Timestamp × GatePass) :=
  if settings.environmentApproval then do
    let (events, p) ← p.readEvents run
    pure (environmentApprovalMet events gate.step, p)
  else pure (none, p)

/-- A pass is the executor's to refuse. -/
def refuseRelease (run : RunId) (gate : StepRun) (v : GateVerdict) : Eff GateVerdict :=
  if v.passed then do
    match ← orExec (← ask (.gateRefusal run gate.step)) with
    | none => pure v
    | some refusal => pure ⟨false, "the gate cannot release: " ++ refusal, false⟩
  else pure v

/-- Give a wait the verdict its own clock has reached, fenced on that wait. -/
def settleWait (run : RunId) (gate : StepRun) (wait : Attempt) (p : GatePass) : Eff GatePass := do
  let (ir, p) ← p.readIr run
  let settings := gateSettings ir gate.step
  let (releaseAt, p) ← approvalReleaseAt run gate settings p
  let at_ ← now
  match ← gateVerdict run gate wait settings releaseAt at_ with
  | none => pure p
  | some v => do
      let v ← refuseRelease run gate v
      let _ ← resolveGate run gate v none (some wait.id)
      pure p

def statusOf (steps : List StepRun) (id : StepId) : Option StepStatus :=
  (steps.find? (·.step = id)).map (·.status)

/-- Every need of the step has Succeeded in this snapshot. -/
def depsSatisfied (steps : List StepRun) (s : StepRun) : Bool :=
  s.needs.all fun d => statusOf steps d = some .succeeded

/-- Evaluate one waiting gate: close a wait whose premise is gone, else see it through. -/
def evaluateGate (leader : LeaderTerm) (run : RunId) (steps : List StepRun) (p : GatePass)
    (gate : StepRun) : Eff GatePass :=
  if depsSatisfied steps gate then do
    let (wait, p) ← gateWait leader run gate p
    match wait with
    | none => pure p
    | some wait => do
        if ← storeGateInputs leader run gate wait then settleWait run gate wait p else pure p
  else
    match openGateAttempt gate with
    | none => pure p
    | some a => do
        let _ ← supersedeGateAttempt run gate.step a.id none
        pure p

def evaluateWaitingGates (leader : LeaderTerm) (run : RunId) : Eff Unit := do
  let steps ← read (.stepsOfRun run)
  let _ ← Prog.foldEach (steps.filter fun s => s.isGate ∧ s.status = .pending) ⟨none, none⟩
    (evaluateGate leader run steps)
  pure ()

/-- Skip a gate no dependent waits on any more, cancelling its open wait; fenced on the
Attempt that was read. -/
def unneededCommit (run : RunId) (gate : StepRun) (at_ : Timestamp) : StepTransition where
  run := run
  step := gate.step
  from_ := .pending
  to_ := .skipped
  frontier := .is (gate.attempts.getLast?.map (·.id))
  stamp := (openGateAttempt gate).map fun a => (a.id, .outcome .cancelled)
  events := eventsAt run at_
    [.stepSkipped gate.step gateNoLongerNeeded, .stepTransitioned gate.step .pending .skipped]
  outbox := []

/-- Skip one unneeded gate, or bring one back whose dependents are no longer all finished. -/
def settleUnneededGate (run : RunId) (steps : List StepRun) (p : GatePass) (gate : StepRun) :
    Eff GatePass :=
  let dependents := steps.filter (gate.step ∈ ·.needs)
  let allFinished := dependents.all (·.status.isTerminal)
  if dependents = [] then pure p
  else if gate.status = .pending ∧ allFinished then do
    let at_ ← now
    commitOrLose (.commitStepTransition (unneededCommit run gate at_))
    pure p
  else if gate.status = .skipped ∧ !allFinished then do
    let (events, p) ← p.readEvents run
    if skippedAsUnneeded events gate.step then do
      transitionStep run gate.step .skipped .pending
      pure p
    else pure p
  else pure p

def settleUnneededGates (run : RunId) : Eff Unit := do
  let steps ← read (.stepsOfRun run)
  let _ ← Prog.foldEach (steps.filter (·.isGate)) ⟨none, none⟩ (settleUnneededGate run steps)
  pure ()

end Scarab.Engine
