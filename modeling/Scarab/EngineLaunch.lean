import Scarab.EngineAdmission

/-!
# Driving launch intents

One delivery of a launch intent: launch the unit, or adopt the one recorded, poll it, and
settle the step on what it reports. A delivery that errors is redelivered, up to a ceiling.
-/
namespace Scarab.Engine

open Interleave

def neverStartedAutoAttempts : ℕ := 3
def maxDeliveryAttempts : ℕ := 10
def timeoutBackstopGraceMs : ℤ := 60000

/-- The step is still Running on this Attempt, in a run that is not terminal. -/
def launchStillWanted (run : RunId) (step : StepId) (attempt : AttemptId) : Eff Bool := do
  let steps ← read (.stepsOfRun run)
  if (steps.find? (·.step = step)).any fun s => s.status = .running ∧
      s.attempts.getLast?.any fun a => a.id = attempt ∧ a.outcome = .running then do
    let status ← read (.runStatus run)
    pure (status.any (!·.isTerminal))
  else pure false

/-- The teardown of a unit whose Attempt stopped being wanted while it launched. -/
def lateLaunchTeardown (run : RunId) (step : StepId) (attempt : AttemptId) (at_ : Timestamp) :
    OutboxMessage :=
  { cancelAttemptIntent run step attempt at_ with key := lateLaunchKey run step attempt }

def enqueueLateLaunchTeardown (run : RunId) (step : StepId) (attempt : AttemptId) : Eff Unit := do
  let at_ ← now
  commit (.enqueueOutbox (lateLaunchTeardown run step attempt at_))

/-- An earlier delivery may have created the unit: record its handle and tear it down. -/
def adoptUnitOfRefusedLaunch (run : RunId) (step : StepId) (attempt : AttemptId) : Eff Unit := do
  match ← ask (.unitHandle run step attempt) with
  | none => pure ()
  | some handle => do
      commit (.setAttemptHandle run step attempt handle)
      enqueueLateLaunchTeardown run step attempt

def finalStamp (to_ : StepStatus) (failure : Option FailureKind) (cause : Option String) :
    Option AttemptStamp :=
  match to_, failure with
  | .succeeded, _ => some (.outcome .succeeded)
  | .failed, some kind => some (.failure kind cause)
  | .failed, none => some (.outcome .failed)
  | _, _ => none

/-- A step's verdict on one Attempt, landing only while that Attempt is the latest. -/
def finalizeCommit (run : RunId) (step : StepId) (attempt : AttemptId) (to_ : StepStatus)
    (failure : Option FailureKind) (cause : Option String) (at_ : Timestamp) :
    StepTransition where
  run := run
  step := step
  from_ := .running
  to_ := to_
  frontier := .is (some attempt)
  stamp := (finalStamp to_ failure cause).map fun s => (attempt, s)
  events := eventsAt run at_
    [.attemptFinished step attempt failure cause, .stepTransitioned step .running to_]
  outbox := []

def finalizeStep (run : RunId) (step : StepId) (attempt : AttemptId) (to_ : StepStatus)
    (failure : Option FailureKind) (cause : Option String) : Eff Unit := do
  let at_ ← now
  commitOrLose (.commitStepTransition (finalizeCommit run step attempt to_ failure cause at_))

/-- Put a failed step back to Ready for its next Attempt. -/
def rearmStepCommit (run : RunId) (step : StepId) (attempt : AttemptId) (kind : FailureKind)
    (cause : Option String) (at_ : Timestamp) : StepTransition where
  run := run
  step := step
  from_ := .running
  to_ := .ready
  frontier := .is (some attempt)
  stamp := none
  events := eventsAt run at_
    [.attemptFinished step attempt (some kind) cause, .stepTransitioned step .running .ready]
  outbox := []

def rearmStep (run : RunId) (step : StepId) (attempt : AttemptId) (kind : FailureKind)
    (cause : Option String) : Eff Unit := do
  let at_ ← now
  commitOrLose (.commitStepTransition (rearmStepCommit run step attempt kind cause at_))

/-- An observation of an Attempt that is superseded, cancelled or no longer the latest. -/
def staleObservation (attempts : List Attempt) (attempt : AttemptId) : Bool :=
  attempts.getLast?.map (·.id) ≠ some attempt ∨
    (attempts.find? (·.id = attempt)).any (·.outcome.byIntent)

/-- The Attempts of a step in the current Take, from the journal. -/
def attemptsUsed (events : List Event) (step : StepId) : ℕ :=
  events.foldl (fun used e =>
    match e.kind with
    | .runRerunRequested _ invalidated _ _ => if step ∈ invalidated then 0 else used
    | .attemptStarted s _ => if s = step then used + 1 else used
    | _ => used) 0

/-- How many Attempts a failure of this kind allows. -/
def attemptsAllowed (kind : FailureKind) (configured : Option ℕ) : ℕ :=
  match kind with
  | .infra true => max (configured.getD 0) neverStartedAutoAttempts
  | .config | .missingInputs | .gate => 1
  | _ => configured.getD 1

/-- Record a failed Attempt, then retry the step or fail it. -/
def settleFailedAttempt (run : RunId) (step : StepId) (attempt : AttemptId) (kind : FailureKind)
    (cause : Option String) : Eff Unit := do
  let attempts ← read (.attemptsOfStep run step)
  if staleObservation attempts attempt then pure ()
  else do
    commit (.setAttemptFailure run step attempt kind cause)
    let events ← read (.events run)
    let ir ← read (.runIr run)
    let configured := ((ir.bind (·.step? step)).bind (·.retryMax)).map (1 + ·)
    if attemptsUsed events step < attemptsAllowed kind configured then
      rearmStep run step attempt kind cause
    else finalizeStep run step attempt .failed (some kind) cause

def succeedStep (run : RunId) (step : StepId) (attempt : AttemptId) : Eff Unit := do
  let attempts ← read (.attemptsOfStep run step)
  if staleObservation attempts attempt then pure ()
  else finalizeStep run step attempt .succeeded none none

/-- Surface the first poll of a unit another instance launched. -/
def noteReadoption (run : RunId) (step : StepId) (attempt : AttemptId) : Eff Unit := do
  if ← ask (.firstContact run step attempt) then do
    let at_ ← now
    append run (.attemptReadopted step attempt) at_
  else pure ()

def readOutput (run : RunId) (s : StepRun) : Eff (StepId × Option Text) := do
  let output ← read (.stepOutput run s.step)
  pure (s.step, output)

def recordedOutput (outputs : List (StepId × Option Text)) (step : StepId) : Option Text :=
  (outputs.find? (·.1 = step)).bind (·.2)

/-- The consumed steps that have an output, in order. -/
def workspaceInputSteps (needs : List StepId) (inputs : Option (List StepId))
    (outputs : List (StepId × Option Text)) : List StepId :=
  (inputs.getD needs).filter fun n => (recordedOutput outputs n).isSome

def stampInputSteps (run : RunId) (step : StepId) (attempt : AttemptId)
    (inputSteps : List StepId) : Eff Unit :=
  if inputSteps = [] then pure ()
  else commit (.setAttemptWorkspaceInputSteps run step attempt inputSteps)

def readEvidence (run : RunId) (up : StepId) : Eff (Option (StepId × AttemptId)) := do
  let a ← read (.stepEvidenceAttempt run up)
  pure (a.map fun a => (up, a))

def stampConsumed (run : RunId) (step : StepId) (attempt : AttemptId) (upstream : List StepId) :
    Eff Unit := do
  let found ← Prog.collect (sortIds upstream.dedup) (readEvidence run)
  let consumed := found.filterMap id
  if consumed = [] then pure () else commit (.setAttemptConsumed run step attempt consumed)

/-- Resolve the workspaces the Attempt consumes, and stamp what it builds on. -/
def resolveInputs (run : RunId) (step : StepId) (attempt : AttemptId) (spec : StepSpec) :
    Eff StepSpec := do
  let all ← read (.stepsOfRun run)
  match all.find? (·.step = step) with
  | none => pure spec
  | some me => do
      let explicit ← read (.stepInputs run step)
      let outputs ← Prog.collect all (readOutput run)
      let inputSteps := workspaceInputSteps me.needs explicit outputs
      stampInputSteps run step attempt inputSteps
      stampConsumed run step attempt (explicit.getD me.needs ++ me.needs)
      pure { spec with workspaceInputs := inputSteps.filterMap (recordedOutput outputs) }

/-- Fail the step before any unit runs, and retire the intent. -/
def failBeforeStart (id : ℕ) (intent : LaunchIntent) (reason : String) : Eff (Option Text) := do
  finalizeStep intent.run intent.step intent.attempt .failed (some .config) (some reason)
  commit (.markDispatched id)
  pure none

/-- Record a launched unit; one that stopped being wanted meanwhile is torn down. -/
def recordLaunched (id : ℕ) (intent : LaunchIntent) (handle : Text) : Eff (Option Text) := do
  commit (.setAttemptHandle intent.run intent.step intent.attempt handle)
  if ← launchStillWanted intent.run intent.step intent.attempt then pure (some handle)
  else do
    enqueueLateLaunchTeardown intent.run intent.step intent.attempt
    commit (.markDispatched id)
    pure none

/-- Launch the unit of a wanted Attempt; `none` when the delivery ends here. -/
def launchUnit (id : ℕ) (intent : LaunchIntent) : Eff (Option Text) := do
  match ← read (.stepSpec intent.run intent.step) with
  | none => .err (.missingSpec intent.step)
  | some spec => do
      let spec ← resolveInputs intent.run intent.step intent.attempt spec
      match ← orDb (← ask (.renderLaunchSpec intent.run intent.step spec)) with
      | .error reason => failBeforeStart id intent reason
      | .ok spec => do
          let _ ← now
          let launched ← ask (.launch intent.run intent.step intent.attempt spec)
          match launched.result with
          | .ok handle => recordLaunched id intent handle
          | .error (.refused reason) => failBeforeStart id intent reason
          | .error e => .err (.exec e)

/-- The unit to poll: the one recorded, or a new one. -/
def launchOrAdopt (id : ℕ) (intent : LaunchIntent) : Eff (Option Text) := do
  match ← read (.attemptHandle intent.run intent.step intent.attempt) with
  | some handle => do
      noteReadoption intent.run intent.step intent.attempt
      pure (some handle)
  | none => do
      if ← launchStillWanted intent.run intent.step intent.attempt then launchUnit id intent
      else do
        adoptUnitOfRefusedLaunch intent.run intent.step intent.attempt
        commit (.markDispatched id)
        pure none

def recordOutput (intent : LaunchIntent) (handle : Text) : Eff Unit := do
  match ← orExec (← ask (.output handle)) with
  | none => pure ()
  | some output => do
      let identity ← orExec (← ask (.outputIdentity handle))
      commit (.setStepOutput intent.run intent.step intent.attempt output identity)

def recordResults (intent : LaunchIntent) (handle : Text) : Eff Unit := do
  let results ← orExec (← ask (.results handle))
  if results = [] then pure ()
  else commit (.setStepResults intent.run intent.step intent.attempt results)

def recordArtifacts (intent : LaunchIntent) (handle : Text) (succeeded : Bool) : Eff Unit := do
  let artifacts ← orExec (← ask (.artifacts handle))
  if artifacts = [] then pure ()
  else do
    let at_ ← now
    commit (.putArtifacts intent.run intent.step intent.attempt succeeded artifacts at_)

/-- The steps behind the workspace roots the Attempt was launched with. -/
def launchedInputSteps (run : RunId) (step : StepId) (attempt : AttemptId) :
    Eff (Option (List StepId)) := do
  match ← read (.attemptWorkspaceInputSteps run step attempt) with
  | some launched => pure (some launched)
  | none => do
      let all ← read (.stepsOfRun run)
      match all.find? (·.step = step) with
      | none => pure none
      | some me => do
          let explicit ← read (.stepInputs run step)
          let outputs ← Prog.collect all (readOutput run)
          pure (some (workspaceInputSteps me.needs explicit outputs))

/-- The collisions of a report, by step. -/
def collisionSample (ordered : List StepId) (report : ProvisioningReport) :
    List WorkspaceCollision :=
  report.sample.filterMap fun (path, winner, loser) => do
    let winner ← ordered[winner]?
    let loser ← ordered[loser]?
    pure ⟨path, winner, loser⟩

/-- Journal the overwritten paths of a fan-in merge. -/
def journalCollisions (intent : LaunchIntent) (handle : Text) : Eff Unit := do
  match ← orExec (← ask (.workspaceProvisioning handle)) with
  | none => pure ()
  | some report =>
      if report.collisions = 0 then pure ()
      else do
        match ← launchedInputSteps intent.run intent.step intent.attempt with
        | none => pure ()
        | some ordered => do
            let at_ ← now
            append intent.run (.workspaceInputCollisions intent.step intent.attempt
              report.collisions (collisionSample ordered report)) at_

/-- The same, best effort: a failure to read or write the evidence fails nothing. -/
def recordWorkspaceCollisions (intent : LaunchIntent) (handle : Text) : Eff Unit := do
  let _ ← (journalCollisions intent handle).attempt

/-- A unit that exited 0: record its evidence, then succeed the step. -/
def settleSucceeded (id : ℕ) (intent : LaunchIntent) (handle : Text) : Eff Unit := do
  recordOutput intent handle
  recordResults intent handle
  recordArtifacts intent handle true
  recordWorkspaceCollisions intent handle
  succeedStep intent.run intent.step intent.attempt
  commit (.markDispatched id)

def collisionsOfFailure (intent : LaunchIntent) (handle : Text) (class_ : FailureClass) :
    Eff Unit :=
  if class_ = .step then recordWorkspaceCollisions intent handle else pure ()

def settleFailed (id : ℕ) (intent : LaunchIntent) (handle : Text) (class_ : FailureClass)
    (cause : Option String) : Eff Unit := do
  recordArtifacts intent handle false
  collisionsOfFailure intent handle class_
  settleFailedAttempt intent.run intent.step intent.attempt class_.kind cause
  commit (.markDispatched id)

def settleLost (id : ℕ) (intent : LaunchIntent) : Eff Unit := do
  settleFailedAttempt intent.run intent.step intent.attempt .lost none
  commit (.markDispatched id)

/-- The deadline of a step's Attempts, in milliseconds. -/
def stepTimeoutMs (cfg : SchedulerConfig) (run : RunId) (step : StepId) : Eff ℤ := do
  let ir ← read (.runIr run)
  pure (match (ir.bind (·.step? step)).bind (·.timeout) with
    | some secs => saturate (secs * 1000)
    | none => cfg.defaultStepTimeoutMs)

/-- A unit still running: settle it as timed out once it has outlived its deadline. -/
def superviseRunning (cfg : SchedulerConfig) (id : ℕ) (intent : LaunchIntent) (handle : Text) :
    Eff Unit := do
  let attempts ← read (.attemptsOfStep intent.run intent.step)
  match attempts.find? (·.id = intent.attempt) with
  | none => pure ()
  | some a => do
      let timeoutMs ← stepTimeoutMs cfg intent.run intent.step
      let at_ ← now
      if a.startedAt + timeoutMs + timeoutBackstopGraceMs ≤ at_ then do
        let _ ← ask (.cancel handle)
        settleFailedAttempt intent.run intent.step intent.attempt .timeout none
        commit (.markDispatched id)
      else pure ()

/-- Act on what the executor reports of the unit. -/
def pollUnit (cfg : SchedulerConfig) (id : ℕ) (intent : LaunchIntent) (handle : Text) :
    Eff Unit := do
  match ← orExec (← ask (.poll handle)) with
  | .succeeded => settleSucceeded id intent handle
  | .failed class_ cause => settleFailed id intent handle class_ cause
  | .lost => settleLost id intent
  | .pending => superviseRunning cfg id intent handle
  | .running => superviseRunning cfg id intent handle

/-- One delivery of a launch intent. -/
def processLaunchIntent (cfg : SchedulerConfig) (id : ℕ) (msg : OutboxMessage) : Eff Unit :=
  match msg.payload with
  | .launch intent => do
      match ← launchOrAdopt id intent with
      | none => pure ()
      | some handle => pollUnit cfg id intent handle
  | _ => .err .badPayload

def OutboxKind.name : OutboxKind → String
  | .launchStep => "launch_step"
  | .runStatusChanged => "run_status_changed"
  | .runFinished => "run_finished"
  | .cancelRun => "cancel_run"
  | .cancelAttempt => "cancel_attempt"
  | .supersedeTeardown => "supersede_teardown"

def poisonReason (id : ℕ) (msg : OutboxMessage) (e : Err) : String :=
  "outbox message `" ++ msg.kind.name ++ "` (id " ++ toString id ++ ") exceeded " ++
    toString maxDeliveryAttempts ++ " failed deliveries — poison; last error: " ++ e.text

/-- Count a failed delivery; at the ceiling the message is dead-lettered, then its run. -/
def countFailedDelivery (id : ℕ) (msg : OutboxMessage) (e : Err) : Eff Unit := do
  let failures ← commit (.recordOutboxFailure id)
  if maxDeliveryAttempts ≤ failures then do
    commit (.deadLetterOutbox id)
    deadLetterRun msg.run (poisonReason id msg e)
  else pure ()

/-- The claim still holds: checked just before the work starts. Losing it later drops the
work where it stands, as a crash would. -/
def holdsClaim (cfg : SchedulerConfig) (owner : Text) (id : ℕ) : Eff Bool :=
  if cfg.outboxVisibilityMs ≤ 0 then pure true else commit (.renewOutboxClaim id owner)

def reconcileMessage (cfg : SchedulerConfig) (owner : Text) (m : ℕ × OutboxMessage) :
    Eff Unit := do
  if ← holdsClaim cfg owner m.1 then do
    match ← (processLaunchIntent cfg m.1 m.2).attempt with
    | .ok _ => pure ()
    | .error e => countFailedDelivery m.1 m.2 e
  else pure ()

/-- Drain launch intents. -/
def reconcile (cfg : SchedulerConfig) (owner : Text) : Eff Unit := do
  let msgs ← commit (.claimOutbox owner .launchStep cfg.outboxBatch)
  Prog.forEach msgs (reconcileMessage cfg owner)

end Scarab.Engine
