import Scarab.EngineTeardown

/-!
# The engine

Every call of the engine that reads or writes the store, the program it runs, and the
machine they make: any number of calls on any number of replicas, one command at a time.
-/
namespace Scarab.Engine

open Interleave

inductive Call where
  | admitRun (cfg : SchedulerConfig) (owner : Text) (run : RunId)
  | reconcile (cfg : SchedulerConfig) (owner : Text)
  | reconcileCancellations (cfg : SchedulerConfig) (owner : Text)
  | reconcileSupersessions (cfg : SchedulerConfig) (owner : Text)
  | reconcileServices (cfg : SchedulerConfig) (owner : Text) (run : RunId)
  | sweepUnfinishedCreations (cfg : SchedulerConfig) (owner : Text)
  | advance (run : RunId)
  | deadLetterRun (run : RunId) (reason : String)
  | cancelRunRequest (run : RunId) (by_ : Option Text)
  | rerunStep (snapshots : Bool) (run : RunId) (target : StepId) (by_ : Option Text)
  | retryStep (snapshots : Bool) (run : RunId) (target : StepId) (by_ : Option Text)
  | releaseGate (run : RunId) (step : StepId)
  | rejectGate (run : RunId) (step : StepId) (by_ : Text) (reason : String)
  | resolvePluginGate (run : RunId) (step : StepId) (releaser : Text) (attempt : AttemptId)
      (verdict : PluginGateVerdict)
  | recordGateApproval (run : RunId) (step : StepId) (by_ : Text)
  | recordApprovalMet (run : RunId) (step : StepId) (approvers : List Text) (required : Option ℕ)
      (releaseAt : Timestamp)
  | ingestAttemptResults (run : RunId) (step : StepId) (attempt : AttemptId) (results : Results)

/-- What a call returns. -/
inductive Value where
  | unit
  | flag (b : Bool)
  | leg (l : Leg)
  | plan (p : RerunPlan)

def returning {α : Type} (p : Eff α) (f : α → Value) : Eff Value := p.bind fun a => .ok (f a)

/-- The server's record that an Environment's approvals are complete. -/
def recordApprovalMet (run : RunId) (step : StepId) (approvers : List Text)
    (required : Option ℕ) (releaseAt : Timestamp) : Eff Unit := do
  let at_ ← now
  append run (.environmentApprovalMet step approvers required releaseAt) at_

def Call.body : Call → Eff Value
  | .admitRun cfg owner run => returning (Engine.admitRun cfg owner run) .leg
  | .reconcile cfg owner => returning (Engine.reconcile cfg owner) fun _ => .unit
  | .reconcileCancellations cfg owner =>
      returning (Engine.reconcileCancellations cfg owner) fun _ => .unit
  | .reconcileSupersessions cfg owner =>
      returning (Engine.reconcileSupersessions cfg owner) fun _ => .unit
  | .reconcileServices cfg owner run => returning (Engine.reconcileServices cfg owner run) .leg
  | .sweepUnfinishedCreations cfg owner =>
      returning (Engine.sweepUnfinishedCreations cfg owner) fun _ => .unit
  | .advance run => returning (Engine.advance run) fun _ => .unit
  | .deadLetterRun run reason => returning (Engine.deadLetterRun run reason) fun _ => .unit
  | .cancelRunRequest run by_ => returning (Engine.cancelRunRequest run by_) .flag
  | .rerunStep snapshots run target by_ =>
      returning (rerunStepWidened snapshots run target by_) .plan
  | .retryStep snapshots run target by_ =>
      returning (retryStepWidened snapshots run target by_) .plan
  | .releaseGate run step => returning (Engine.releaseGate run step) fun _ => .unit
  | .rejectGate run step by_ reason => returning (Engine.rejectGate run step by_ reason) .flag
  | .resolvePluginGate run step releaser attempt verdict =>
      returning (Engine.resolvePluginGate run step releaser attempt verdict) .flag
  | .recordGateApproval run step by_ =>
      returning (Engine.recordGateApproval run step by_) fun _ => .unit
  | .recordApprovalMet run step approvers required releaseAt =>
      returning (Engine.recordApprovalMet run step approvers required releaseAt) fun _ => .unit
  | .ingestAttemptResults run step attempt results =>
      returning (commit (.ingestAttemptResults run step attempt results)) fun _ => .unit

abbrev engine : Machine where
  State := Db
  Cmd := Cmd
  Resp := Resp
  Err := Err
  Answer := Answer
  Call := Call
  Value := Value
  respond := respond
  body := Call.body

/-- A store whose runs have just been created: nothing has run, nothing is queued. -/
structure Db.Fresh (db : Db) : Prop where
  runs : ∀ run, db.runs run = .pending
  steps : ∀ run step, (db.steps run step).status = .pending ∧
    (db.steps run step).attempts.entries = [] ∧ (db.steps run step).output = none ∧
    (db.steps run step).outputIdentity = none ∧ (db.steps run step).results = [] ∧
    (db.steps run step).input = none ∧ (db.steps run step).evidenceAttempt = none
  evidence : ∀ run step attempt, (db.evidence run step attempt).output = none ∧
    (db.evidence run step attempt).results = []
  handles : ∀ run step attempt, db.handles run step attempt = none
  slots : ∀ group, db.slots group = none
  events : db.events = []
  outbox : db.outbox.entries = []

/-- A step as a run's creation stores it. -/
def createdStep (needs : List StepId) (gateKind : Option GateKind) : StepRec where
  status := .pending
  spec := some ⟨[], [], [], [], []⟩
  needs := needs
  attempts := .empty
  output := none
  outputIdentity := none
  results := []
  input := none
  gateKind := gateKind
  gateTimerSeconds := none
  explicitInputs := none
  evidenceAttempt := none
  gateReleaser := none

/-- A store with the given runs, all of one pipeline, just created. -/
def createdDb (runIds : List RunId) (pipeline : List (StepId × List StepId × Option GateKind))
    (concurrency : RunId → Option (Text × ConcurrencyPolicy)) : Db where
  runIds := runIds
  stepIds := fun _ => pipeline.map (·.1)
  runs := fun _ => .pending
  generations := fun _ => 0
  created := fun _ => 0
  creating := fun _ => false
  projects := fun _ => none
  supersedeKeys := fun _ => none
  concurrency := concurrency
  irs := fun _ => none
  steps := fun _ step =>
    let declared := ((pipeline.find? (·.1 = step)).map (·.2)).getD ([], none)
    createdStep declared.1 declared.2
  handles := fun _ _ _ => none
  evidence := fun _ _ _ => ⟨none, [], [], none⟩
  gateInputs := fun _ _ _ => none
  services := fun _ => []
  slots := fun _ => none
  lease := none
  events := []
  outbox := .empty

theorem createdDb_fresh (runIds : List RunId)
    (pipeline : List (StepId × List StepId × Option GateKind))
    (concurrency : RunId → Option (Text × ConcurrencyPolicy)) :
    (createdDb runIds pipeline concurrency).Fresh :=
  ⟨fun _ => rfl, fun _ _ => ⟨rfl, rfl, rfl, rfl, rfl, rfl, rfl⟩, fun _ _ _ => ⟨rfl, rfl⟩,
    fun _ _ _ => rfl, fun _ => rfl, rfl, rfl⟩

def runR : RunId := ⟨"r".toList, by decide⟩
def runS : RunId := ⟨"s".toList, by decide⟩
def stepA : StepId := ⟨"a".toList⟩
def stepB : StepId := ⟨"b".toList⟩

/-- One run of one step. -/
def oneStepDb : Db := createdDb [runR] [(stepA, [], none)] fun _ => none

def plainConfig : SchedulerConfig where
  outboxBatch := 16
  outboxVisibilityMs := 30000
  projectRunCap := none
  globalRunCap := 100
  defaultStepTimeoutMs := 3600000
  serviceReadyTimeoutMs := 60000
  unfinishedCreationBoundMs := 60000

/-- What the other ports answer when nothing goes wrong: every launch creates its unit, and
each poll finds it in the state `st` with the output `output`. -/
def calmReply (st : ExecState) (output : Option Text) : (q : Ask) → q.Ans
  | .now => (0 : ℤ)
  | .nonce => (0 : UInt64)
  | .firstContact _ _ _ => false
  | .snapshotPresent _ => true
  | .renderLaunchSpec _ _ spec => .ok (.ok spec)
  | .renderGateInputs _ _ => .ok (.ok [])
  | .checkGateOutputs _ _ outputs => .ok (some (.ok outputs))
  | .gateRefusal _ _ => .ok none
  | .launch run step attempt _ => ⟨true, .ok (launchKey run step attempt)⟩
  | .unitHandle run step attempt => some (launchKey run step attempt)
  | .poll _ => .ok st
  | .cancel _ => .ok ()
  | .tornDown _ => .ok true
  | .output _ => .ok output
  | .outputIdentity _ => .ok none
  | .results _ => .ok []
  | .artifacts _ => .ok []
  | .workspaceProvisioning _ => .ok none
  | .launchService _ _ _ => .ok []
  | .serviceReady _ => .ok true
  | .teardownService _ => .ok ()

/-- An environment in which nothing fails, no lease expires and no claim lapses. -/
def calm (st : ExecState) (output : Option Text) : Answer :=
  ⟨none, false, [], calmReply st output⟩

/-- The executor's answer is an error. -/
def Ask.errs : (q : Ask) → q.Ans → Bool
  | .renderLaunchSpec _ _ _, x => !x.isOk
  | .renderGateInputs _ _, x => !x.isOk
  | .checkGateOutputs _ _ _, x => !x.isOk
  | .gateRefusal _ _, x => !x.isOk
  | .launch _ _ _ _, x => !x.result.isOk
  | .poll _, x => !x.isOk
  | .cancel _, x => !x.isOk
  | .tornDown _, x => !x.isOk
  | .output _, x => !x.isOk
  | .outputIdentity _, x => !x.isOk
  | .results _, x => !x.isOk
  | .artifacts _, x => !x.isOk
  | .workspaceProvisioning _, x => !x.isOk
  | .launchService _ _ _, x => !x.isOk
  | .serviceReady _, x => !x.isOk
  | .teardownService _, x => !x.isOk
  | .now, _ | .nonce, _ | .firstContact _ _ _, _ | .snapshotPresent _, _ | .unitHandle _ _ _, _ =>
      false

/-- The command met neither a failing store nor a failing executor. -/
def unfailing : (c : Cmd) → Resp c → Bool
  | .read _, .ok _ => true
  | .read _, .error _ => false
  | .write _, .ok _ => true
  | .write _, .error e => decide (e = .conflict ∨ e = .notLeader)
  | .ask q, a => !q.errs a

/-- The step met no failure and is no crash. -/
def Faultless (e : Entry engine) : Bool :=
  match e.what with
  | .did c r => unfailing c r
  | .crashed => false
  | _ => true

/-- The kind of call a step starts, if it starts one, is among those allowed. -/
def StartsOnly (allowed : Call → Bool) (e : Entry engine) : Bool :=
  match e.what with
  | .started l => allowed l
  | _ => true

end Scarab.Engine
