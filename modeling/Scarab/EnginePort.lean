import Scarab.InterleaveSystem
import Scarab.EngineDb

/-!
# The ports

What the engine asks of the store, the clock and the executor. A read or a transaction may
fail without effect; what the clock, the executor and the snapshot store answer is the
environment's choice.
-/
namespace Scarab.Engine

open Interleave

/-- Reads of the store. -/
inductive Query where
  | runStatus (run : RunId)
  | runReopenGeneration (run : RunId)
  | runCreationUnfinished (run : RunId)
  | unfinishedCreationsBefore (cutoff : Timestamp)
  | stepsOfRun (run : RunId)
  | attemptsOfStep (run : RunId) (step : StepId)
  | stepSpec (run : RunId) (step : StepId)
  | stepInputs (run : RunId) (step : StepId)
  | stepInput (run : RunId) (step : StepId)
  | stepOutput (run : RunId) (step : StepId)
  | stepOutputIdentity (run : RunId) (step : StepId)
  | stepEvidenceAttempt (run : RunId) (step : StepId)
  | attemptWorkspaceInputSteps (run : RunId) (step : StepId) (attempt : AttemptId)
  | attemptHandle (run : RunId) (step : StepId) (attempt : AttemptId)
  | gateTimerSeconds (run : RunId) (step : StepId)
  | gateReleaser (run : RunId) (step : StepId)
  | gateWaitInputs (run : RunId) (step : StepId) (attempt : AttemptId)
  | events (run : RunId)
  | runIr (run : RunId)
  | runServices (run : RunId)
  | runConcurrency (run : RunId)
  | runProject (run : RunId)
  | supersededBy (run : RunId)
  | countInFlightRuns
  | countRunningRuns (project : Text)
  | outboxKeyPending (key : Text)

@[reducible] def Query.Ans : Query → Type
  | .runStatus _ => Option RunStatus
  | .runReopenGeneration _ | .countInFlightRuns | .countRunningRuns _ => ℕ
  | .runCreationUnfinished _ | .outboxKeyPending _ => Bool
  | .unfinishedCreationsBefore _ | .supersededBy _ => List RunId
  | .stepsOfRun _ => List StepRun
  | .attemptsOfStep _ _ => List Attempt
  | .stepSpec _ _ => Option StepSpec
  | .stepInputs _ _ | .attemptWorkspaceInputSteps _ _ _ => Option (List StepId)
  | .stepInput _ _ | .stepOutput _ _ | .stepOutputIdentity _ _ | .attemptHandle _ _ _
  | .gateReleaser _ _ | .gateWaitInputs _ _ _ | .runProject _ => Option Text
  | .stepEvidenceAttempt _ _ => Option AttemptId
  | .gateTimerSeconds _ _ => Option ℤ
  | .events _ => List Event
  | .runIr _ => Option RunIr
  | .runServices _ => List RunService
  | .runConcurrency _ => Option (Text × ConcurrencyPolicy)

def Query.eval : (q : Query) → Db → q.Ans
  | .runStatus run, db => db.runStatus run
  | .runReopenGeneration run, db => db.generations run
  | .runCreationUnfinished run, db => db.creating run
  | .unfinishedCreationsBefore cutoff, db => db.unfinishedCreationsBefore cutoff
  | .stepsOfRun run, db => db.stepsOfRun run
  | .attemptsOfStep run step, db => db.attemptsOfStep run step
  | .stepSpec run step, db => if step ∈ db.stepIds run then (db.steps run step).spec else none
  | .stepInputs run step, db =>
      if step ∈ db.stepIds run then (db.steps run step).explicitInputs else none
  | .stepInput run step, db => if step ∈ db.stepIds run then (db.steps run step).input else none
  | .stepOutput run step, db => db.stepOutput run step
  | .stepOutputIdentity run step, db => db.stepOutputIdentity run step
  | .stepEvidenceAttempt run step, db =>
      if step ∈ db.stepIds run then (db.steps run step).evidenceAttempt else none
  | .attemptWorkspaceInputSteps run step a, db => (db.evidence run step a).workspaceInputSteps
  | .attemptHandle run step a, db => db.handles run step a
  | .gateTimerSeconds run step, db =>
      if step ∈ db.stepIds run then (db.steps run step).gateTimerSeconds else none
  | .gateReleaser run step, db =>
      if step ∈ db.stepIds run then (db.steps run step).gateReleaser else none
  | .gateWaitInputs run step a, db => db.gateInputs run step a
  | .events run, db => db.eventsOf run
  | .runIr run, db => db.irs run
  | .runServices run, db => db.services run
  | .runConcurrency run, db => db.concurrency run
  | .runProject run, db => db.projects run
  | .supersededBy run, db => db.supersededBy run
  | .countInFlightRuns, db => db.countInFlightRuns
  | .countRunningRuns project, db => db.countRunningRuns project
  | .outboxKeyPending key, db => db.outboxKeyPending key

/-- Transactions of the store. -/
inductive Tx where
  | appendEvent (event : Event)
  | commitStepTransition (t : StepTransition)
  | commitRunTransition (t : RunTransition)
  | promoteStep (leader : LeaderTerm) (run : RunId) (step : StepId) (signature : Text)
      (events : List Event)
  | claimReadySteps (leader : LeaderTerm) (limit : ℕ) (now : Timestamp)
  | openGateWait (leader : LeaderTerm) (run : RunId) (step : StepId) (startedAt at_ : Timestamp)
  | resolveGateWait (run : RunId) (step : StepId) (res : GateResolution)
  | closeRunningAttempt (run : RunId) (step : StepId) (attempt : AttemptId)
      (outcome : AttemptOutcome) (event : Option Event)
  | setGateWaitInputs (leader : LeaderTerm) (run : RunId) (step : StepId) (attempt : AttemptId)
      (inputs : Text)
  | setStepInput (run : RunId) (step : StepId) (signature : Option Text)
  | setStepOutput (run : RunId) (step : StepId) (attempt : AttemptId) (output : Text)
      (identity : Option Text)
  | setStepResults (run : RunId) (step : StepId) (attempt : AttemptId) (results : Results)
  | ingestAttemptResults (run : RunId) (step : StepId) (attempt : AttemptId) (results : Results)
  | setAttemptFailure (run : RunId) (step : StepId) (attempt : AttemptId) (kind : FailureKind)
      (detail : Option String)
  | setAttemptHandle (run : RunId) (step : StepId) (attempt : AttemptId) (handle : Text)
  | setAttemptConsumed (run : RunId) (step : StepId) (attempt : AttemptId)
      (consumed : List (StepId × AttemptId))
  | setAttemptWorkspaceInputSteps (run : RunId) (step : StepId) (attempt : AttemptId)
      (steps : List StepId)
  | putArtifacts (run : RunId) (step : StepId) (attempt : AttemptId) (succeeded : Bool)
      (artifacts : List Text) (at_ : Timestamp)
  | acquireSlot (leader : LeaderTerm) (group : Text) (run : RunId)
  | releaseSlot (group : Text) (run : RunId)
  | createRunService (leader : Option LeaderTerm) (run : RunId) (take : ℤ) (name : Text)
      (at_ : Timestamp)
  | setRunService (leader : Option LeaderTerm) (run : RunId) (take : ℤ) (name : Text)
      (status : ServiceStatus) (handle : Option Text)
  | enqueueOutbox (msg : OutboxMessage)
  | claimOutbox (owner : Text) (kind : OutboxKind) (limit : ℕ)
  | renewOutboxClaim (id : ℕ) (owner : Text)
  | markDispatched (id : ℕ)
  | recordOutboxFailure (id : ℕ)
  | deadLetterOutbox (id : ℕ)
  | lease (owner : Text)

@[reducible] def Tx.Ans : Tx → Type
  | .claimReadySteps _ _ _ => List StepRun
  | .openGateWait _ _ _ _ _ => Option Attempt
  | .resolveGateWait _ _ _ => Option AttemptId
  | .closeRunningAttempt _ _ _ _ _ | .setGateWaitInputs _ _ _ _ _ | .renewOutboxClaim _ _ => Bool
  | .acquireSlot _ _ _ => Option RunId
  | .claimOutbox _ _ _ => List (ℕ × OutboxMessage)
  | .recordOutboxFailure _ => ℕ
  | .lease _ => LeaderTerm
  | .appendEvent _ | .commitStepTransition _ | .commitRunTransition _ | .promoteStep _ _ _ _ _
  | .setStepInput _ _ _ | .setStepOutput _ _ _ _ _ | .setStepResults _ _ _ _
  | .ingestAttemptResults _ _ _ _ | .setAttemptFailure _ _ _ _ _ | .setAttemptHandle _ _ _ _
  | .setAttemptConsumed _ _ _ _ | .setAttemptWorkspaceInputSteps _ _ _ _
  | .putArtifacts _ _ _ _ _ _ | .releaseSlot _ _ | .createRunService _ _ _ _ _
  | .setRunService _ _ _ _ _ _ | .enqueueOutbox _ | .markDispatched _ | .deadLetterOutbox _ => Unit

/-- What the fetcher of a step's workspace reported: how many paths were overwritten, and a
sample of them by root index. -/
structure ProvisioningReport where
  collisions : ℕ
  sample : List (Text × ℕ × ℕ)

/-- Questions to the clock, the executor, the snapshot store and the renderer. -/
inductive Ask where
  | now
  | nonce
  | firstContact (run : RunId) (step : StepId) (attempt : AttemptId)
  | snapshotPresent (root : Text)
  | renderLaunchSpec (run : RunId) (step : StepId) (spec : StepSpec)
  | renderGateInputs (run : RunId) (step : StepId)
  | checkGateOutputs (run : RunId) (step : StepId) (outputs : Results)
  | gateRefusal (run : RunId) (step : StepId)
  | launch (run : RunId) (step : StepId) (attempt : AttemptId) (spec : StepSpec)
  | unitHandle (run : RunId) (step : StepId) (attempt : AttemptId)
  | poll (handle : Text)
  | cancel (handle : Text)
  | tornDown (handle : Text)
  | output (handle : Text)
  | outputIdentity (handle : Text)
  | results (handle : Text)
  | artifacts (handle : Text)
  | workspaceProvisioning (handle : Text)
  | launchService (run : RunId) (take : ℤ) (name : Text)
  | serviceReady (handle : Text)
  | teardownService (handle : Text)

/-- A launch that fails may have created its unit all the same: its answer says so. -/
structure Launched where
  created : Bool
  result : Except ExecError Text

@[reducible] def Ask.Ans : Ask → Type
  | .now => Timestamp
  | .nonce => UInt64
  | .firstContact _ _ _ | .snapshotPresent _ => Bool
  | .renderLaunchSpec _ _ _ => Except DbError (Except String StepSpec)
  | .renderGateInputs _ _ => Except DbError (Except String Text)
  | .checkGateOutputs _ _ _ => Except DbError (Option (Except String Results))
  | .gateRefusal _ _ => Except ExecError (Option String)
  | .launch _ _ _ _ => Launched
  | .unitHandle _ _ _ => Option Text
  | .poll _ => Except ExecError ExecState
  | .cancel _ | .teardownService _ => Except ExecError Unit
  | .tornDown _ | .serviceReady _ => Except ExecError Bool
  | .output _ | .outputIdentity _ => Except ExecError (Option Text)
  | .results _ => Except ExecError Results
  | .artifacts _ => Except ExecError (List Text)
  | .workspaceProvisioning _ => Except ExecError (Option ProvisioningReport)
  | .launchService _ _ _ => Except ExecError Text

inductive Cmd where
  | read (q : Query)
  | write (t : Tx)
  | ask (q : Ask)

@[reducible] def Resp : Cmd → Type
  | .read q => Except DbError q.Ans
  | .write t => Except DbError t.Ans
  | .ask q => q.Ans

/-- Ways the store itself fails; a failed command changes nothing. -/
inductive Fault where
  | unavailable | fenceTimeout
  | other (why : String)
  deriving DecidableEq

def Fault.error : Fault → DbError
  | .unavailable => .unavailable
  | .fenceTimeout => .fenceTimeout
  | .other why => .other why

/-- The environment's choices at one command: whether the store fails, whether the lease it
meets has expired, which outbox claims have lapsed, and what the other ports answer. -/
structure Answer where
  fault : Option Fault
  expired : Bool
  lapsed : List ℕ
  reply : (q : Ask) → q.Ans

/-- A transaction whose only answer is that it was made. -/
def Tx.done (x : Except DbError Db) : Except DbError (Unit × Db) := x.map fun db => ((), db)

def Tx.exec (w : Answer) : (t : Tx) → Db → Except DbError (t.Ans × Db)
  | .appendEvent event, db => done (.ok (db.journal [event]))
  | .commitStepTransition t, db => done (db.commitStepTransition t)
  | .commitRunTransition t, db => done (db.commitRunTransition t)
  | .promoteStep leader run step signature events, db =>
      done (db.promoteStep leader run step signature events)
  | .claimReadySteps leader limit now, db => db.claimReadySteps leader limit now
  | .openGateWait leader run step startedAt at_, db => db.openGateWait leader run step startedAt at_
  | .resolveGateWait run step res, db => .ok (db.resolveGateWait run step res)
  | .closeRunningAttempt run step a outcome event, db =>
      .ok (db.closeRunningAttempt run step a outcome event)
  | .setGateWaitInputs leader run step a inputs, db => db.setGateWaitInputs leader run step a inputs
  | .setStepInput run step signature, db => done (.ok (db.setStepInput run step signature))
  | .setStepOutput run step a output identity, db =>
      done (db.setStepOutput run step a output identity)
  | .setStepResults run step a results, db => done (db.setStepResults run step a results)
  | .ingestAttemptResults run step a results, db =>
      done (db.ingestAttemptResults run step a results)
  | .setAttemptFailure run step a kind detail, db =>
      done (.ok (db.stampAttempt run step a (.failure kind detail)))
  | .setAttemptHandle run step a handle, db =>
      done (.ok { db with handles := Db.setCell db.handles run step a (some handle) })
  | .setAttemptConsumed run step a consumed, db =>
      done (.ok (db.setEvidence run step a fun e => { e with consumed := consumed }))
  | .setAttemptWorkspaceInputSteps run step a steps, db =>
      done (.ok (db.setEvidence run step a fun e => { e with workspaceInputSteps := some steps }))
  | .putArtifacts _ _ _ _ _ _, db => done (.ok db)
  | .acquireSlot leader group run, db => db.acquireSlot leader group run
  | .releaseSlot group run, db => done (.ok (db.releaseSlot group run))
  | .createRunService leader run take name at_, db =>
      done (db.createRunService leader run take name at_)
  | .setRunService leader run take name status handle, db =>
      done (db.setRunService leader run take name status handle)
  | .enqueueOutbox msg, db => done (.ok (db.enqueue msg))
  | .claimOutbox owner kind limit, db => .ok (db.claimOutbox owner kind limit w.lapsed)
  | .renewOutboxClaim id owner, db => .ok (db.renewOutboxClaim id owner, db)
  | .markDispatched id, db => done (.ok (db.setEntry id fun e => { e with dispatched := true }))
  | .recordOutboxFailure id, db => .ok (db.recordOutboxFailure id)
  | .deadLetterOutbox id, db => done (.ok (db.setEntry id fun e => { e with deadLettered := true }))
  | .lease owner, db => .ok (db.leaseFor owner w.expired)

/-- Answer one command. A failing transaction leaves the store as it was. -/
def respond : (c : Cmd) → Answer → Db → Resp c × Db
  | .read q, w, db =>
      match w.fault with
      | some f => (.error f.error, db)
      | none => (.ok (q.eval db), db)
  | .write t, w, db =>
      match w.fault with
      | some f => (.error f.error, db)
      | none =>
          match t.exec w db with
          | .ok (a, db') => (.ok a, db')
          | .error e => (.error e, db)
  | .ask q, w, db => (w.reply q, db)

/-- The errors of the scheduler, of a rerun and of a gate action. -/
inductive Err where
  | db (e : DbError)
  | exec (e : ExecError)
  | badPayload
  | runNotFound (run : RunId)
  | missingSpec (step : StepId)
  | stepNotFound (step : StepId)
  | notFailed (step : StepId) (status : StepStatus)
  | dependencyNotSatisfied (step blocker : StepId)
  | notAManualGate (step : StepId)
  | notARejectableGate (step : StepId)
  | gateNotPending (step : StepId) (status : StepStatus)
  | gateNotReached (step : StepId)
  | creationUnfinished
  | pluginGateNotFound
  | pluginGateNotWaiting (why : String)
  | pluginGateExpired (secs : ℤ)
  | pluginGateInvalid (why : String)

/-- The message of a scheduler error. -/
def Err.text : Err → String
  | .db e => e.text
  | .exec e => e.text
  | .badPayload => "malformed outbox payload"
  | .runNotFound run => "run RunId(\"" ++ String.ofList run.text ++ "\") not found"
  | .missingSpec step => "no durable spec for step StepId(\"" ++ String.ofList step.text ++ "\")"
  | _ => ""

/-- Engine code: a program over the ports. -/
abbrev Eff (α : Type) := Prog Cmd Resp Err α

/-- Propagate a store error. -/
def orDb {α : Type} : Except DbError α → Eff α
  | .ok a => .ok a
  | .error e => .err (.db e)

/-- Propagate an executor error. -/
def orExec {α : Type} : Except ExecError α → Eff α
  | .ok a => .ok a
  | .error e => .err (.exec e)

def ask (q : Ask) : Eff q.Ans := .call (.ask q) .ok
def read (q : Query) : Eff q.Ans := .call (.read q) orDb
def tryCommit (t : Tx) : Eff (Except DbError t.Ans) := .call (.write t) .ok
def commit (t : Tx) : Eff t.Ans := .call (.write t) orDb

/-- Make a guarded commit; losing its compare-and-set is not an error. -/
def commitOrLose (t : Tx) : Eff Unit := do
  match ← tryCommit t with
  | .ok _ => pure ()
  | .error .conflict => pure ()
  | .error e => .err (.db e)

/-- The clock. -/
def now : Eff Timestamp := ask .now

end Scarab.Engine
