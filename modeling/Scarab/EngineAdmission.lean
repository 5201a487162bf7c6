import Scarab.EngineCancel
import Scarab.EngineGates

/-!
# Admission and settlement

The leader's pass over one run: start it, evaluate its gates, promote, skip or claim its
steps. Settling a run whose steps are all terminal, and dead-lettering one that cannot be
driven forward.
-/
namespace Scarab.Engine

open Interleave

structure SchedulerConfig where
  outboxBatch : ℕ
  outboxVisibilityMs : ℤ
  projectRunCap : Option ℕ
  globalRunCap : ℕ
  defaultStepTimeoutMs : ℤ
  serviceReadyTimeoutMs : ℤ
  unfinishedCreationBoundMs : ℤ

/-- This replica's term as the leader, when it holds the lease now. -/
def leaderTerm (owner : Text) : Eff (Option LeaderTerm) := do
  let held ← commit (.lease owner)
  pure (if held.owner = owner then some held else none)

inductive Leg where
  | done | deferred
  deriving DecidableEq

/-- A leg of a deposed leader ends quietly; one whose fenced write timed out is deferred. -/
def leaderLeg (leg : Eff Unit) : Eff Leg := do
  match ← leg.attempt with
  | .ok _ => pure .done
  | .error (.db .notLeader) => pure .done
  | .error (.db .fenceTimeout) => pure .deferred
  | .error e => .err e

def underProjectCap (cfg : SchedulerConfig) (run : RunId) : Eff Bool :=
  match cfg.projectRunCap with
  | none => pure true
  | some cap => do
      match ← read (.runProject run) with
      | none => pure true
      | some project => do
          let running ← read (.countRunningRuns project)
          pure (running < cap)

/-- Take the slot of the run's group; a busy one is waited for, or its holder cancelled. -/
def enterSlot (leader : LeaderTerm) (run : RunId) : Eff Bool := do
  match ← read (.runConcurrency run) with
  | none => pure true
  | some (group, policy) => do
      match ← commit (.acquireSlot leader group run) with
      | none => pure true
      | some holder =>
          if policy = .cancelInProgress then do
            cancelRun (some leader) holder
            pure false
          else pure false

/-- Start a Pending run, under the caps and its concurrency group. -/
def startPending (cfg : SchedulerConfig) (leader : LeaderTerm) (run : RunId) : Eff Bool := do
  let older ← read (.supersededBy run)
  Prog.forEach older (cancelRun (some leader))
  let inFlight ← read .countInFlightRuns
  if cfg.globalRunCap ≤ inFlight then pure false
  else if !(← underProjectCap cfg run) then pure false
  else if !(← enterSlot leader run) then pure false
  else do
    transitionRun (some leader) run .pending .running
    pure true

/-- A suspended run resumes once something other than gate waits is outstanding. -/
def resumeSuspended (leader : LeaderTerm) (run : RunId) (status : RunStatus) : Eff Bool :=
  if status = .suspended then do
    let steps ← read (.stepsOfRun run)
    if onlyWaitsOutstanding steps then pure false
    else do
      transitionRun (some leader) run .suspended .running
      pure true
  else pure true

/-- The active time of the current Take: what is summed, and since when it runs. -/
def billEvent (bill : ℤ × Option Timestamp) (e : Event) : ℤ × Option Timestamp :=
  match e.kind with
  | .runRerunRequested _ _ _ _ => (0, none)
  | .runTransitioned _ .running => (bill.1, bill.2 <|> some e.at_)
  | .runTransitioned _ _ =>
      match bill.2 with
      | none => bill
      | some start => (bill.1 + (e.at_ - start), none)
  | _ => bill

def activeMs (events : List Event) (at_ : Timestamp) : ℤ :=
  let bill := events.foldl billEvent (0, none)
  bill.1 + match bill.2 with
    | none => 0
    | some start => at_ - start

/-- Fail a run whose active time has used its budget up. -/
def enforceRunBudget (leader : LeaderTerm) (run : RunId) : Eff Bool := do
  match ← read (.runStatus run) with
  | some .running => do
      let ir ← read (.runIr run)
      match ir.bind (·.budget) with
      | none => pure false
      | some budget => do
          let events ← read (.events run)
          let at_ ← now
          let active := activeMs events at_
          let budgetMs := saturate (budget * 1000)
          if active < budgetMs then pure false
          else do
            cancelLiveSteps run at_
            commitRunTransitionAfter (some leader) run .running .failed at_ true []
              [.runBudgetExhausted active budgetMs]
            freeSlot run
            pure true
  | _ => pure false

/-- The signature of what a step consumes: its inputs in order, by content identity. -/
def inputSignature (needs : List StepId) (inputs : Option (List StepId))
    (identityOf : List (StepId × Option Text)) : Text :=
  "v2:".toList ++ List.intercalate [';'] ((inputs.getD needs).map fun n =>
    n.text ++ '=' :: ((identityOf.find? (·.1 = n)).bind (·.2)).getD [])

/-- A need that ended in anything but success. -/
def depDead (steps : List StepRun) (s : StepRun) : Bool :=
  s.needs.any fun d =>
    let st := (statusOf steps d).getD .pending
    st.isTerminal ∧ st ≠ .succeeded

/-- Carry a step's stored output forward: its inputs are unchanged. -/
def skipUnchanged (run : RunId) (step : StepId) : Eff Unit :=
  transitionStepWith run step .pending .succeeded [.stepSkipped step "inputs unchanged"]

/-- Promote a step on the signature of the inputs it will consume, or skip it when they and
its output are those of its last promotion. -/
def promoteOrSkip (leader : LeaderTerm) (run : RunId) (identityOf : List (StepId × Option Text))
    (s : StepRun) : Eff Unit := do
  let explicit ← read (.stepInputs run s.step)
  let cur := inputSignature s.needs explicit identityOf
  let prev ← read (.stepInput run s.step)
  if ((identityOf.find? (·.1 = s.step)).bind (·.2)).isSome ∧ prev = some cur then
    skipUnchanged run s.step
  else do
    let at_ ← now
    commitOrLose (.promoteStep leader run s.step cur
      (eventsAt run at_ [.stepTransitioned s.step .pending .ready]))

/-- The services a step uses, judged by the current Take. -/
inductive Binding where
  | ready | waiting
  | failed (names : List Text)

def bindServices (rows : List RunService) (uses : List Text) : Binding :=
  let take := currentServiceTake rows
  let status (name : Text) : Option ServiceStatus :=
    (rows.find? fun r => r.take = take ∧ r.name = name).map (·.status)
  let failed := uses.filter fun n => status n = some .failed
  if failed ≠ [] then .failed failed
  else if uses.all fun n => status n = some .ready ∨ status n = some .running then .ready
  else .waiting

def unboundReason (names : List Text) : String :=
  "unbound dependency: shared service(s) " ++
    String.intercalate ", " (names.map fun n => "`" ++ String.ofList n ++ "`") ++
    " never became ready"

/-- Decide one Pending step of the snapshot. -/
def admitStep (leader : LeaderTerm) (run : RunId) (steps : List StepRun)
    (identityOf : List (StepId × Option Text)) (rows : List RunService) (s : StepRun) :
    Eff Unit :=
  if depsSatisfied steps s then do
    let spec ← read (.stepSpec run s.step)
    match bindServices rows ((spec.map (·.uses)).getD []) with
    | .failed names =>
        transitionStepWith run s.step .pending .failed
          [.stepServicesUnready s.step (unboundReason names)]
    | .waiting => pure ()
    | .ready => promoteOrSkip leader run identityOf s
  else if depDead steps s then transitionStep run s.step .pending .skipped
  else pure ()

def readIdentity (run : RunId) (s : StepRun) : Eff (StepId × Option Text) := do
  let id ← read (.stepOutputIdentity run s.step)
  pure (s.step, id)

/-- Suspend a run when nothing but gate waits is left. -/
def suspendIfWaiting (leader : LeaderTerm) (run : RunId) (steps : List StepRun) : Eff Unit :=
  if steps.any fun s => s.isGate ∧ s.status = .pending then do
    let live ← read (.stepsOfRun run)
    if onlyWaitsOutstanding live then transitionRun (some leader) run .running .suspended
    else pure ()
  else pure ()

/-- Skip dead gates, decide each Pending step, claim what is Ready, suspend if idle. -/
def admitSteps (cfg : SchedulerConfig) (leader : LeaderTerm) (run : RunId) : Eff Unit := do
  let steps ← read (.stepsOfRun run)
  Prog.forEach (steps.filter fun s => s.status = .pending ∧ s.isGate ∧ depDead steps s) fun s =>
    transitionStep run s.step .pending .skipped
  let identityOf ← Prog.collect steps (readIdentity run)
  let rows ← read (.runServices run)
  Prog.forEach (steps.filter fun s => s.status = .pending ∧ !s.isGate)
    (admitStep leader run steps identityOf rows)
  let at_ ← now
  let _ ← commit (.claimReadySteps leader cfg.outboxBatch at_)
  suspendIfWaiting leader run steps

/-- Admission of a run that has started. -/
def admitLive (cfg : SchedulerConfig) (leader : LeaderTerm) (run : RunId) (status : RunStatus) :
    Eff Unit := do
  evaluateWaitingGates leader run
  settleUnneededGates run
  if ← resumeSuspended leader run status then do
    if ← enforceRunBudget leader run then pure () else admitSteps cfg leader run
  else pure ()

def admitAsLeader (cfg : SchedulerConfig) (leader : LeaderTerm) (run : RunId) : Eff Unit := do
  match ← read (.runStatus run) with
  | none => .err (.runNotFound run)
  | some status =>
      if status.isTerminal then pure ()
      else if status = .pending then do
        if ← startPending cfg leader run then admitLive cfg leader run status else pure ()
      else admitLive cfg leader run status

/-- Admit ready work of a run, when this replica leads. -/
def admitRun (cfg : SchedulerConfig) (owner : Text) (run : RunId) : Eff Leg := do
  match ← leaderTerm owner with
  | none => pure .done
  | some term => leaderLeg (admitAsLeader cfg term run)

/-- The steps that failed with no verdict of their own, by their last Attempt. -/
def verdictless (steps : List StepRun) : List (StepId × Attempt) :=
  (steps.filter (·.status = .failed)).filterMap fun s =>
    (s.attempts.getLast?.filter fun a => match a.failure with
      | some (.infra _) | some .lost => true
      | _ => false).map fun a => (s.step, a)

def FailureKind.name : FailureKind → String
  | .infra n => "Infra \x7b never_started: " ++ (if n then "true" else "false") ++ " \x7d"
  | .step => "Step"
  | .timeout => "Timeout"
  | .lost => "Lost"
  | .config => "Config"
  | .missingInputs => "MissingInputs"
  | .gate => "Gate"

def verdictlessReason (dead : List (StepId × Attempt)) : String :=
  String.intercalate "; " (dead.map fun (step, a) =>
    let kind := (a.failure.map (·.name)).getD ""
    "step `" ++ String.ofList step.text ++ "`: " ++ match a.failureDetail with
      | some detail => detail ++ " (" ++ kind ++ " — retries exhausted without a verdict)"
      | none => kind ++ " — retries exhausted without a verdict")

/-- The status a run whose steps are all terminal settles in. -/
def settledAs (steps : List StepRun) : RunStatus :=
  if verdictless steps ≠ [] then .deadLettered
  else if steps.any fun s => s.status = .failed ∨ s.status = .cancelled then .failed
  else .succeeded

/-- The diagnosis of a dead-lettered run goes on the journal first. -/
def journalVerdictless (run : RunId) (steps : List StepRun) : Eff Unit :=
  if settledAs steps = .deadLettered then do
    let at_ ← now
    append run (.runDeadLettered (verdictlessReason (verdictless steps))) at_
  else pure ()

/-- Settle the run once every step is terminal. -/
def advance (run : RunId) : Eff Unit := do
  let steps ← read (.stepsOfRun run)
  if steps = [] ∨ !steps.all (·.status.isTerminal) then pure ()
  else do
    match ← read (.runStatus run) with
    | none => pure ()
    | some current =>
        if current.isTerminal then pure ()
        else do
          journalVerdictless run steps
          transitionRun none run current (settledAs steps)
          teardownServices none run
          freeSlot run

/-- Stop what can be stopped of a run about to be dead-lettered. -/
def tidyDeadRun (run : RunId) (at_ : Timestamp) : Eff Unit := do
  cancelLiveSteps run at_
  teardownServices none run

/-- Dead-letter a run. Tidying its steps is best effort: a run whose own reads fail must
still reach a terminal status. -/
def deadLetterRun (run : RunId) (reason : String) : Eff Unit := do
  match ← read (.runStatus run) with
  | none => pure ()
  | some current =>
      if current.isTerminal then pure ()
      else do
        let at_ ← now
        let tidy ← (tidyDeadRun run at_).attempt
        append run (.runDeadLettered (reason ++ match tidy with
          | .ok () => ""
          | .error (e : Err) => " (cleanup also failed, step rows may be left non-terminal and " ++
              "shared-service Pods may be orphaned: " ++ e.text ++ ")")) at_
        transitionRun none run current .deadLettered
        freeSlot run

end Scarab.Engine
