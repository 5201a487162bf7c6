import Scarab.EngineEffects

/-!
# What a call has learnt

A call acts on its own past: the reads, commits and answers it got so far. For each
command that matters later, this says which past backs it. Nothing here looks at the store:
what a past exchange says about the present is for the interleaving to decide.
-/
namespace Scarab.Engine

open Interleave

/-- What one call has exchanged with the ports so far, newest first. -/
abbrev Past := List (Exchange Cmd Resp)

def Tx.isStepMove : Tx → Bool
  | .commitStepTransition _ => true
  | _ => false

namespace Past

def Saw (h : Past) (q : Query) (a : q.Ans) : Prop := (⟨.read q, .ok a⟩ : Exchange Cmd Resp) ∈ h
def Did (h : Past) (t : Tx) (a : t.Ans) : Prop := (⟨.write t, .ok a⟩ : Exchange Cmd Resp) ∈ h
def Lost (h : Past) (t : Tx) : Prop := (⟨.write t, .error .conflict⟩ : Exchange Cmd Resp) ∈ h
def Asked (h : Past) (q : Ask) (a : q.Ans) : Prop := (⟨.ask q, a⟩ : Exchange Cmd Resp) ∈ h

/-- A snapshot of the run's steps held this one. -/
def SawStep (h : Past) (run : RunId) (s : StepRun) : Prop :=
  ∃ steps, h.Saw (.stepsOfRun run) steps ∧ s ∈ steps

/-- A snapshot of the run's steps held this gate. -/
def SawGate (h : Past) (run : RunId) (step : StepId) : Prop :=
  ∃ s, h.SawStep run s ∧ s.step = step ∧ s.isGate = true

/-- Something the call did since `h` was its past. -/
def Since (h : Past) (P : Past → Prop) (h' : Past) : Prop := ∃ new, h' = new ++ h ∧ P new

/-- The message was handed to the call by a claim of its kind. -/
def Claimed (h : Past) (kind : OutboxKind) (id : ℕ) (msg : OutboxMessage) : Prop :=
  ∃ owner limit msgs, h.Did (.claimOutbox owner kind limit) msgs ∧ (id, msg) ∈ msgs

/-- The snapshot shows the Attempt in flight. -/
def wantedIn (steps : List StepRun) (step : StepId) (attempt : AttemptId) : Bool :=
  (steps.find? (·.step = step)).any fun s => s.status = .running ∧
    s.attempts.getLast?.any fun a => a.id = attempt ∧ a.outcome = .running

/-- The call saw that the Attempt's launch is no longer wanted. -/
inductive Unwanted (h : Past) (run : RunId) (step : StepId) (attempt : AttemptId) : Prop
  | moved (steps : List StepRun) (saw : h.Saw (.stepsOfRun run) steps)
      (gone : wantedIn steps step attempt = false)
  | settled (status : Option RunStatus) (saw : h.Saw (.runStatus run) status)
      (ended : status.any (!·.isTerminal) = false)

/-- The unit handle of an Attempt, as recorded by or for this call. -/
def UnitOf (h : Past) (run : RunId) (step : StepId) (attempt : AttemptId) (handle : Text) : Prop :=
  h.Saw (.attemptHandle run step attempt) (some handle) ∨
    h.Did (.setAttemptHandle run step attempt handle) ()

/-- The executor reported this state of the Attempt's unit. -/
def Polled (h : Past) (run : RunId) (step : StepId) (attempt : AttemptId) (st : ExecState) : Prop :=
  ∃ handle, h.UnitOf run step attempt handle ∧ h.Asked (.poll handle) (.ok st)

/-- The Attempt's spec does not render, or the executor refused it. -/
def Refused (h : Past) (run : RunId) (step : StepId) (attempt : AttemptId) : Prop :=
  (∃ spec why, h.Asked (.renderLaunchSpec run step spec) (.ok (.error why))) ∨
    ∃ spec launched why, h.Asked (.launch run step attempt spec) launched ∧
      launched.result = .error (.refused why)

/-- The call saw, or made, the Attempt's step leave it behind. -/
inductive LeftBehind (h : Past) (run : RunId) (step : StepId) (attempt : AttemptId) : Prop
  | finalized (to_ : StepStatus) (failure : Option FailureKind) (cause : Option String)
      (at_ : Timestamp) (ends : to_ = .succeeded ∨ to_ = .failed)
      (tried : h.Did (.commitStepTransition
          (finalizeCommit run step attempt to_ failure cause at_)) () ∨
        h.Lost (.commitStepTransition (finalizeCommit run step attempt to_ failure cause at_)))
  | retried (kind : FailureKind) (cause : Option String) (at_ : Timestamp)
      (tried : h.Did (.commitStepTransition (rearmStepCommit run step attempt kind cause at_)) () ∨
        h.Lost (.commitStepTransition (rearmStepCommit run step attempt kind cause at_)))
  | stale (attempts : List Attempt) (saw : h.Saw (.attemptsOfStep run step) attempts)
      (old : staleObservation attempts attempt = true)

/-- The call found the Attempt to be the latest, recorded its failure, and then found the step's
count of Attempts within what the failure allows. -/
def Weighed (h : Past) (run : RunId) (step : StepId) (attempt : AttemptId) (kind : FailureKind)
    (cause : Option String) : Prop :=
  ∃ attempts events ir, ∃ newer older : Past,
    h = newer ++ (⟨.read (.events run), .ok events⟩ : Exchange Cmd Resp) ::
      ⟨.write (.setAttemptFailure run step attempt kind cause), .ok ()⟩ ::
      ⟨.read (.attemptsOfStep run step), .ok attempts⟩ :: older ∧
    staleObservation attempts attempt = false ∧ h.Saw (.runIr run) ir ∧
    attemptsUsed events step <
      attemptsAllowed kind (((ir.bind (·.step? step)).bind (·.retryMax)).map (1 + ·))

/-- Why a launch intent may be retired: its unit is queued for teardown, has ended, or was
never launched. -/
inductive Retired (h : Past) (run : RunId) (step : StepId) (attempt : AttemptId) : Prop
  | unwanted (no : h.Unwanted run step attempt)
      (late : h.Asked (.unitHandle run step attempt) none ∨
        (∃ handle, h.Did (.setAttemptHandle run step attempt handle) ()) ∧
        ∃ at_, h.Did (.enqueueOutbox (lateLaunchTeardown run step attempt at_)) ())
  | refused (no : h.Refused run step attempt) (left : h.LeftBehind run step attempt)
  | polled (st : ExecState) (polled : h.Polled run step attempt st)
      (left : h.LeftBehind run step attempt)

/-- A unit the call saw gone, or one that was never recorded and whose launch was over. -/
inductive Gone (h : Past) (run : RunId) (item : TeardownAttempt) : Prop
  | tornDown (handle : Text) (newer older : Past)
      (past : h = newer ++ (⟨.ask (.tornDown handle), .ok true⟩ : Exchange Cmd Resp) :: older)
      (saw : older.Saw (.attemptHandle run item.step item.attempt) (some handle))
  | unlaunched (newer older : Past)
      (past : h = newer ++ (⟨.read (.outboxKeyPending (launchKey run item.step item.attempt)),
        .ok false⟩ : Exchange Cmd Resp) :: older)
      (saw : older.Saw (.attemptHandle run item.step item.attempt) none)

/-- Why a message may be retired. -/
inductive Dispatches (h : Past) (id : ℕ) : Prop
  | launch (msg : OutboxMessage) (intent : LaunchIntent) (claimed : h.Claimed .launchStep id msg)
      (payload : msg.payload = .launch intent)
      (ended : h.Retired intent.run intent.step intent.attempt)
  | teardown (msg : OutboxMessage) (kind : OutboxKind) (items : List TeardownAttempt)
      (named : kind = .cancelAttempt ∨ kind = .supersedeTeardown)
      (claimed : h.Claimed kind id msg) (payload : msg.payload = .teardown items)
      (gone : ∀ item ∈ items, h.Gone msg.run item)
  | services (msg : OutboxMessage) (claimed : h.Claimed .cancelRun id msg)

/-- The call itself re-armed no step of the run. -/
def NoRearm (h : Past) (run : RunId) : Prop :=
  ∀ t, h.Did (.commitStepTransition t) () → t.run = run → t.to_ ≠ .pending

def isLostCancel (run : RunId) (step : StepId) : Exchange Cmd Resp → Bool
  | ⟨.write (.commitStepTransition t), .error .conflict⟩ =>
      t.run = run ∧ t.step = step ∧ t.to_ = .cancelled
  | _ => false

/-- How often the call lost the compare-and-set of a cancel of this step. -/
def lostCancels (h : Past) (run : RunId) (step : StepId) : ℕ := h.countP (isLostCancel run step)

/-- How a cancel of a step can end. -/
inductive CancelTried (h : Past) (run : RunId) (step : StepId) (tries : ℕ) : Prop
  | cancelled (s : StepRun) (at_ : Timestamp) (same : s.step = step)
      (did : h.Did (.commitStepTransition (cancelCommit run s at_)) ())
  | finished (s : StepRun) (saw : h.SawStep run s) (same : s.step = step)
      (ended : s.status.isTerminal = true)
  | missing (steps : List StepRun) (saw : h.Saw (.stepsOfRun run) steps)
      (none : ∀ s ∈ steps, s.step ≠ step)
  | gaveUp (lost : tries ≤ h.lostCancels run step)

/-- Since it last read the run's steps, the call has seen each of them through. -/
def StepsSettled (h : Past) (run : RunId) : Prop :=
  ∃ steps newer older, h = newer ++
    (⟨.read (.stepsOfRun run), .ok steps⟩ : Exchange Cmd Resp) :: older ∧ newer.NoRearm run ∧
    ∀ s ∈ steps, s.status.isTerminal = true ∨ newer.CancelTried run s.step 8

/-- The call read these steps, all terminal, and has re-armed none since. -/
def StepsTerminal (h : Past) (run : RunId) (steps : List StepRun) : Prop :=
  steps ≠ [] ∧ (∀ s ∈ steps, s.status.isTerminal = true) ∧ ∃ newer older, h = newer ++
    (⟨.read (.stepsOfRun run), .ok steps⟩ : Exchange Cmd Resp) :: older ∧ newer.NoRearm run

/-- The call moved the run to Cancelled, or lost that move, from a status it had read. -/
def CancelMoved (h : Past) (run : RunId) : Prop :=
  ∃ from_ at_ intent generation, ∃ r : Except DbError Unit, ∃ newer older : Past,
    h = newer ++ (⟨.write (.commitRunTransition (runTransition none run from_ .cancelled at_ true
      [intent] [] generation)), r⟩ : Exchange Cmd Resp) :: older ∧
    (r = .ok () ∨ r = .error .conflict) ∧ older.Saw (.runStatus run) (some from_) ∧
    from_.isTerminal = false

/-- The steps the call has just read leave nothing to do but wait on gates. -/
def OnlyWaits (h : Past) (run : RunId) : Prop :=
  ∃ steps generation at_ older, h =
    (⟨.read (.runReopenGeneration run), .ok generation⟩ : Exchange Cmd Resp) ::
      ⟨.ask .now, at_⟩ :: ⟨.read (.stepsOfRun run), .ok steps⟩ :: older ∧
    onlyWaitsOutstanding steps = true

/-- The call took the slot of the run's group, when it has one. -/
def Entered (h : Past) (leader : LeaderTerm) (run : RunId) : Prop :=
  ∃ c, h.Saw (.runConcurrency run) c ∧
    ∀ group policy, c = some (group, policy) → h.Did (.acquireSlot leader group run) none

/-- The input signature the call computed for a step, from its own reads. -/
def Computed (h : Past) (run : RunId) (step : StepId) (signature : Text) : Prop :=
  ∃ steps s explicit identityOf, h.Saw (.stepsOfRun run) steps ∧ s ∈ steps ∧ s.step = step ∧
    h.Saw (.stepInputs run step) explicit ∧
    List.Forall₂ (fun x (y : StepId × Option Text) => y.1 = x.step ∧
      h.Saw (.stepOutputIdentity run y.1) y.2) steps identityOf ∧
    signature = inputSignature s.needs explicit identityOf

/-- The signature the call computed is the stored one, and an output is stored. -/
def Unchanged (h : Past) (run : RunId) (step : StepId) (signature : Text) : Prop :=
  h.Computed run step signature ∧ h.Saw (.stepInput run step) (some signature) ∧
    ∃ identity, h.Saw (.stepOutputIdentity run step) (some identity)

/-- What a rerun did about one step of its plan. -/
inductive Rearmed (h : Past) (run : RunId) (target : StepId) (s : StepRun) : Prop
  | waiting (pending : s.status = .pending) (idle : openGateAttempt s = none)
  | superseded (a : Attempt) (by_ : Option Text) (at_ : Timestamp) (pending : s.status = .pending)
      (wait : openGateAttempt s = some a)
      (did : h.Did (.closeRunningAttempt run s.step a.id .superseded
        (some ⟨run, .attemptSuperseded s.step a.id by_, at_⟩)) true)
  | rearmed (s' : StepRun) (by_ : Option Text) (at_ : Timestamp) (same : s'.step = s.step)
      (did : h.Did (.commitStepTransition (rearmCommit run target s' by_ at_)) ())
  | seenPending (s' : StepRun) (saw : h.SawStep run s') (same : s'.step = s.step)
      (pending : s'.status = .pending)
  | missing (steps : List StepRun) (saw : h.Saw (.stepsOfRun run) steps)
      (none : ∀ s' ∈ steps, s'.step ≠ s.step)
  | raced (s' : StepRun) (by_ : Option Text) (at_ : Timestamp) (newer older : Past)
      (same : s'.step = s.step) (live : s'.status ≠ .pending)
      (past : h = newer ++ (⟨.write (.commitStepTransition (rearmCommit run target s' by_ at_)),
        .error .conflict⟩ : Exchange Cmd Resp) :: older)
      (saw : s' = s ∨ older.SawStep run s')

/-- Since it read the run's steps, a rerun has seen to every step of its plan. -/
def PlanRearmed (h : Past) (run : RunId) (target : StepId) (plan : RerunPlan) : Prop :=
  ∃ steps newer older, h = newer ++
    (⟨.read (.stepsOfRun run), .ok steps⟩ : Exchange Cmd Resp) :: older ∧
    ∀ s ∈ steps, s.step ∈ plan.invalidated → newer.Rearmed run target s

end Past

/-- The call is a rerun or a retry of this step. -/
def Call.Reruns (run : RunId) (target : StepId) : Call → Prop
  | .rerunStep _ run' target' _ | .retryStep _ run' target' _ => run' = run ∧ target' = target
  | _ => False

/-- The moves of a step a call makes, with the past behind each. -/
inductive StepMove (l : Call) (h : Past) : StepTransition → Prop
  | rearm (run : RunId) (target : StepId) (s : StepRun) (by_ : Option Text) (at_ : Timestamp)
      (reruns : l.Reruns run target) (saw : h.SawStep run s) (live : s.status ≠ .pending)
      (known : ∃ x, h.SawStep run x ∧ x.step = target) :
      StepMove l h (rearmCommit run target s by_ at_)
  | cancel (run : RunId) (s : StepRun) (at_ : Timestamp) (saw : h.SawStep run s)
      (live : s.status.isTerminal = false) : StepMove l h (cancelCommit run s at_)
  | succeed (run : RunId) (step : StepId) (attempt : AttemptId) (at_ : Timestamp)
      (polled : h.Polled run step attempt .succeeded) :
      StepMove l h (finalizeCommit run step attempt .succeeded none none at_)
  | fail (run : RunId) (step : StepId) (attempt : AttemptId) (kind : FailureKind)
      (cause : Option String) (at_ : Timestamp)
      (failed : h.Did (.setAttemptFailure run step attempt kind cause) () ∨
        h.Refused run step attempt) :
      StepMove l h (finalizeCommit run step attempt .failed (some kind) cause at_)
  | retry (run : RunId) (step : StepId) (attempt : AttemptId) (kind : FailureKind)
      (cause : Option String) (at_ : Timestamp)
      (failed : h.Did (.setAttemptFailure run step attempt kind cause) ())
      (weighed : h.Weighed run step attempt kind cause) :
      StepMove l h (rearmStepCommit run step attempt kind cause at_)
  | unneeded (run : RunId) (gate : StepRun) (at_ : Timestamp) (saw : h.SawStep run gate)
      (isGate : gate.isGate = true) : StepMove l h (unneededCommit run gate at_)
  | revive (run : RunId) (step : StepId) (at_ : Timestamp) (saw : h.SawGate run step) :
      StepMove l h (plainMove run step .skipped .pending [] at_)
  | skip (run : RunId) (step : StepId) (at_ : Timestamp) :
      StepMove l h (plainMove run step .pending .skipped [] at_)
  | unready (run : RunId) (step : StepId) (why : String) (at_ : Timestamp) :
      StepMove l h (plainMove run step .pending .failed [.stepServicesUnready step why] at_)
  | unchanged (run : RunId) (step : StepId) (signature : Text) (at_ : Timestamp)
      (same : h.Unchanged run step signature) :
      StepMove l h (plainMove run step .pending .succeeded
        [.stepSkipped step "inputs unchanged"] at_)

/-- The message that tears a cancelled run's services down. -/
def IsServicesIntent (run : RunId) (m : OutboxMessage) : Prop :=
  m.run = run ∧ m.kind = .cancelRun ∧ (∃ take, m.payload = .services take) ∧
    ∃ nonce, m.key = cancelServicesKey run nonce

/-- The moves of a run a call makes, with the past behind each. -/
inductive RunMove (l : Call) (h : Past) : RunTransition → Prop
  | start (leader : LeaderTerm) (run : RunId) (at_ : Timestamp) (generation : ℕ)
      (slot : h.Entered leader run) :
      RunMove l h (runTransition (some leader) run .pending .running at_ true [] [] generation)
  | resume (leader : Option LeaderTerm) (run : RunId) (at_ : Timestamp) (notify : Bool)
      (generation : ℕ) :
      RunMove l h (runTransition leader run .suspended .running at_ notify [] [] generation)
  | suspend (leader : LeaderTerm) (run : RunId) (at_ : Timestamp) (generation : ℕ)
      (waits : h.OnlyWaits run) :
      RunMove l h (runTransition (some leader) run .running .suspended at_ true [] [] generation)
  | reopen (run : RunId) (target : StepId) (from_ : RunStatus) (at_ : Timestamp)
      (generation : ℕ) (reruns : l.Reruns run target) (ended : from_.isTerminal = true) :
      RunMove l h (runTransition none run from_ .running at_ from_.isTerminal [] [] generation)
  | settle (run : RunId) (from_ : RunStatus) (steps : List StepRun) (at_ : Timestamp)
      (generation : ℕ) (live : from_.isTerminal = false) (terminal : h.StepsTerminal run steps) :
      RunMove l h (runTransition none run from_ (settledAs steps) at_ true [] [] generation)
  | cancel (leader : Option LeaderTerm) (run : RunId) (from_ : RunStatus) (at_ : Timestamp)
      (intent : OutboxMessage) (generation : ℕ) (live : from_.isTerminal = false)
      (steps : h.StepsSettled run) (services : IsServicesIntent run intent) :
      RunMove l h (runTransition leader run from_ .cancelled at_ true [intent] [] generation)
  | overBudget (leader : LeaderTerm) (run : RunId) (at_ : Timestamp) (active budget : ℤ)
      (generation : ℕ) (steps : h.StepsSettled run) :
      RunMove l h (runTransition (some leader) run .running .failed at_ true []
        [.runBudgetExhausted active budget] generation)
  | deadLetter (run : RunId) (from_ : RunStatus) (at_ : Timestamp) (generation : ℕ)
      (live : from_.isTerminal = false) :
      RunMove l h (runTransition none run from_ .deadLettered at_ true [] [] generation)
  | uncreated (leader : LeaderTerm) (run : RunId) (cutoff : Timestamp) (runs : List RunId)
      (reason : String) (at_ : Timestamp) (generation : ℕ)
      (saw : h.Saw (.unfinishedCreationsBefore cutoff) runs) (stale : run ∈ runs) :
      RunMove l h (runTransition (some leader) run .pending .failed at_ true []
        [.runCreationFailed reason] generation)

/-- An approval is journalled by the call that recorded it, on a gate it saw waiting. -/
def ApprovalBacked (l : Call) (h : Past) (e : Event) : Prop :=
  ∀ step by_, e.kind = .gateApproved step by_ → l = .recordGateApproval e.run step by_ ∧
    ∃ steps gate, h.Saw (.stepsOfRun e.run) steps ∧ gate ∈ steps ∧ gate.step = step ∧
      gate.status = .pending ∧ gateReached gate steps = true

/-- The event is a note on its own: no transition, and neither end of an Attempt. -/
@[simp] def EventPayload.isNote : EventPayload → Bool
  | .runTransitioned _ _ | .stepTransitioned _ _ _ | .attemptStarted _ _
  | .attemptFinished _ _ _ _ => false
  | _ => true

/-- A gate is resolved by a call that saw it, reached if it was waiting. -/
def ResolutionBacked (h : Past) (run : RunId) (step : StepId) : Prop :=
  ∃ steps gate, h.Saw (.stepsOfRun run) steps ∧ gate ∈ steps ∧ gate.step = step ∧
    gate.isGate = true ∧ (gate.status = .pending → ∀ n ∈ gate.needs, ∃ s ∈ steps,
      s.step = n ∧ s.status = .succeeded)

/-- The past that backs each command. -/
def Backed (l : Call) (h : Past) : Cmd → Prop
  | .write (.appendEvent e) => ApprovalBacked l h e ∧ e.kind.isNote = true
  | .write (.commitStepTransition t) => StepMove l h t
  | .write (.commitRunTransition t) =>
      RunMove l h t ∧ h.Saw (.runReopenGeneration t.run) t.generation
  | .write (.promoteStep _ run step _ events) =>
      (∃ s, h.SawStep run s ∧ s.step = step ∧ s.isGate = false) ∧
        ∃ at_, events = eventsAt run at_ [.stepTransitioned step .pending .ready]
  | .write (.openGateWait _ run step _ _) => h.SawGate run step
  | .write (.resolveGateWait run step _) => ResolutionBacked h run step
  | .write (.closeRunningAttempt run step attempt outcome event) =>
      outcome.byIntent = true ∧ h.SawGate run step ∧
        ∀ e, event = some e → ∃ by_ at_, e = ⟨run, .attemptSuperseded step attempt by_, at_⟩
  | .write (.setStepInput _ _ signature) => signature = none
  | .write (.setAttemptFailure run step attempt _ _) => ∃ st, h.Polled run step attempt st ∧
      st ≠ .succeeded
  | .write (.setAttemptHandle run step attempt handle) =>
      h.Asked (.unitHandle run step attempt) (some handle) ∨
        ∃ spec launched, h.Asked (.launch run step attempt spec) launched ∧
          launched.result = .ok handle
  | .write (.acquireSlot _ _ run) => ∃ status, h.Saw (.runStatus run) (some status)
  | .write (.enqueueOutbox m) => ∃ id msg intent at_, h.Claimed .launchStep id msg ∧
      msg.payload = .launch intent ∧ h.Unwanted intent.run intent.step intent.attempt ∧
      m = lateLaunchTeardown intent.run intent.step intent.attempt at_
  | .write (.claimOutbox _ kind _) => kind = .cancelRun ∨ h = []
  | .write (.markDispatched id) => h.Dispatches id
  | _ => True

/-- What a returning call has behind it. -/
def Fulfilled (l : Call) (h : Past) (v : Value) : Prop :=
  match l, v with
  | .cancelRunRequest run _, .flag true => h.CancelMoved run
  | .rerunStep _ run target _, .plan plan => h.PlanRearmed run target plan
  | .retryStep _ run target _, .plan plan => h.PlanRearmed run target plan
  | _, _ => True

end Scarab.Engine
