import Scarab.EngineAttempts
import Scarab.EngineOutbox
import Scarab.EngineKeys

/-!
# The durable store

The tables the scheduler reads and writes, and every transaction on them. One transaction
is one indivisible change: it checks everything before it writes anything. The ids of the
runs and steps are fixed once a run is created, and listed in the order reads return them.
-/
namespace Scarab.Engine

/-- The stored row of one step. -/
structure StepRec where
  status : StepStatus
  spec : Option StepSpec
  needs : List StepId
  attempts : Attempts
  output : Option Text
  outputIdentity : Option Text
  results : Results
  input : Option Text
  gateKind : Option GateKind
  gateTimerSeconds : Option ℤ
  explicitInputs : Option (List StepId)
  evidenceAttempt : Option AttemptId
  gateReleaser : Option Text

/-- What one Attempt left behind, kept per Attempt. -/
structure AttemptEvidence where
  output : Option Text
  results : Results
  consumed : List (StepId × AttemptId)
  workspaceInputSteps : Option (List StepId)

structure Db where
  runIds : List RunId
  stepIds : RunId → List StepId
  runs : RunId → RunStatus
  generations : RunId → ℕ
  created : RunId → Timestamp
  creating : RunId → Bool
  projects : RunId → Option Text
  supersedeKeys : RunId → Option Text
  concurrency : RunId → Option (Text × ConcurrencyPolicy)
  irs : RunId → Option RunIr
  steps : RunId → StepId → StepRec
  handles : RunId → StepId → AttemptId → Option Text
  evidence : RunId → StepId → AttemptId → AttemptEvidence
  gateInputs : RunId → StepId → AttemptId → Option Text
  services : RunId → List RunService
  slots : Text → Option RunId
  lease : Option LeaderTerm
  events : List Event
  outbox : Outbox

namespace Db

/-- A step as a snapshot read returns it. -/
def stepRun (db : Db) (run : RunId) (step : StepId) : StepRun :=
  let r := db.steps run step
  ⟨run, step, r.status, r.attempts.entries, r.needs, r.gateKind⟩

def stepsOfRun (db : Db) (run : RunId) : List StepRun := (db.stepIds run).map (db.stepRun run)

def runStatus (db : Db) (run : RunId) : Option RunStatus :=
  if run ∈ db.runIds then some (db.runs run) else none

def attemptsOfStep (db : Db) (run : RunId) (step : StepId) : List Attempt :=
  if step ∈ db.stepIds run then (db.steps run step).attempts.entries else []

def eventsOf (db : Db) (run : RunId) : List Event := db.events.filter (·.run = run)

def stepOutput (db : Db) (run : RunId) (step : StepId) : Option Text :=
  if step ∈ db.stepIds run then (db.steps run step).output else none

/-- The content identity of a step's output; without one, its snapshot root stands in. -/
def stepOutputIdentity (db : Db) (run : RunId) (step : StepId) : Option Text :=
  if step ∈ db.stepIds run then
    (db.steps run step).outputIdentity <|> (db.steps run step).output
  else none

/-- Older live runs that share this run's supersede key. -/
def supersededBy (db : Db) (run : RunId) : List RunId :=
  match db.supersedeKeys run with
  | none => []
  | some key => db.runIds.filter fun r =>
      r ≠ run ∧ db.supersedeKeys r = some key ∧ db.created r < db.created run ∧
        !(db.runs r).isTerminal

def countInFlightRuns (db : Db) : ℕ :=
  (db.runIds.filter fun r => db.runs r = .running ∨ db.runs r = .suspended).length

def countRunningRuns (db : Db) (project : Text) : ℕ :=
  (db.runIds.filter fun r => db.runs r = .running ∧ db.projects r = some project).length

def unfinishedCreationsBefore (db : Db) (cutoff : Timestamp) : List RunId :=
  db.runIds.filter fun r => db.creating r ∧ db.runs r = .pending ∧ db.created r < cutoff

def outboxKeyPending (db : Db) (key : Text) : Bool :=
  db.outbox.entries.any fun e => decide (e.msg.key = key) && e.pending

def setStep (db : Db) (run : RunId) (step : StepId) (r : StepRec) : Db :=
  { db with steps := Function.update db.steps run (Function.update (db.steps run) step r) }

/-- Set one cell of a table keyed by run, step and Attempt. -/
def setCell {α : Type} (table : RunId → StepId → AttemptId → α) (run : RunId) (step : StepId)
    (attempt : AttemptId) (v : α) : RunId → StepId → AttemptId → α :=
  Function.update table run
    (Function.update (table run) step (Function.update (table run step) attempt v))

def setEvidence (db : Db) (run : RunId) (step : StepId) (a : AttemptId)
    (f : AttemptEvidence → AttemptEvidence) : Db :=
  { db with evidence := setCell db.evidence run step a (f (db.evidence run step a)) }

def journal (db : Db) (events : List Event) : Db := { db with events := db.events ++ events }

def enqueue (db : Db) (msg : OutboxMessage) : Db := { db with outbox := db.outbox.enqueue msg }

def enqueueAll (db : Db) (msgs : List OutboxMessage) : Db := msgs.foldl enqueue db

/-- Rewrite the delivery state of the outbox row `id`. -/
def setEntry (db : Db) (id : ℕ) (f : OutboxEntry → OutboxEntry) : Db :=
  { db with outbox := db.outbox.update (fun e => decide (e.id = id)) f }

/-- The writer still holds the lease it took its term under; other writers need none. -/
def holdsLeaderTermIf (db : Db) (leader : Option LeaderTerm) : Bool :=
  leader.all fun l => decide (db.lease = some l)

def stampAttempt (db : Db) (run : RunId) (step : StepId) (attempt : AttemptId)
    (stamp : AttemptStamp) : Db :=
  if step ∈ db.stepIds run then
    db.setStep run step { db.steps run step with
      attempts := (db.steps run step).attempts.stamp attempt stamp }
  else db

/-- The guarded move of a step, its stamp, its journal and its messages. -/
def commitStepTransition (db : Db) (t : StepTransition) : Except DbError Db :=
  let r := db.steps t.run t.step
  if t.step ∉ db.stepIds t.run ∨ r.status ≠ t.from_ then .error .conflict
  else if t.frontier.misses r.attempts.frontier then .error .conflict
  else
    let moved := db.setStep t.run t.step
      { r with status := t.to_, attempts := r.attempts.stamp? t.stamp }
    .ok ((moved.journal t.events).enqueueAll t.outbox)

/-- The guarded move of a run. Leaving a terminal status opens the next generation. -/
def commitRunTransition (db : Db) (t : RunTransition) : Except DbError Db :=
  if !db.holdsLeaderTermIf t.leader then .error .notLeader
  else if t.run ∉ db.runIds ∨ db.runs t.run ≠ t.from_ ∨ db.generations t.run ≠ t.generation then
    .error .conflict
  else
    let moved := { db with
      runs := Function.update db.runs t.run t.to_
      generations := Function.update db.generations t.run
        (db.generations t.run + if t.from_.isTerminal then 1 else 0) }
    .ok ((moved.journal t.events).enqueueAll t.outbox)

/-- Promote a Pending step, recording the signature of the inputs it will consume. -/
def promoteStep (db : Db) (leader : LeaderTerm) (run : RunId) (step : StepId)
    (signature : Text) (events : List Event) : Except DbError Db :=
  if db.lease ≠ some leader then .error .notLeader
  else if step ∉ db.stepIds run ∨ (db.steps run step).status ≠ .pending then
    .error .conflict
  else
    .ok ((db.setStep run step
      { db.steps run step with status := .ready, input := some signature }).journal events)

/-- The next Attempt of a claimed step, with its journal entry and its launch intent. -/
def mintLaunch (now : Timestamp) (s : StepRun) : Attempt × List Event × List OutboxMessage :=
  let id : AttemptId := ⟨s.attempts.length + 1⟩
  (⟨id, now, none, none, .running⟩, [⟨s.run, .attemptStarted s.step id, now⟩],
    [⟨s.run, .launchStep, .launch ⟨s.run, s.step, id⟩, launchKey s.run s.step id, now⟩])

def launchClaimed (now : Timestamp) (db : Db) (s : StepRun) : Db :=
  let (attempt, events, outbox) := mintLaunch now s
  let r := db.steps s.run s.step
  ((db.setStep s.run s.step
    { r with status := .running, attempts := r.attempts.record attempt }).journal
      events).enqueueAll outbox

/-- The Ready steps of every run. -/
def readySteps (db : Db) : List StepRun :=
  (db.runIds.flatMap db.stepsOfRun).filter (·.status = .ready)

/-- The Ready steps a claim takes, as it returns them. -/
def claimable (db : Db) (limit : ℕ) : List StepRun :=
  (db.readySteps.take limit).map fun s => { s with status := .running }

/-- Claim Ready steps: each goes Running on a fresh Attempt with its launch intent. -/
def claimReadySteps (db : Db) (leader : LeaderTerm) (limit : ℕ) (now : Timestamp) :
    Except DbError (List StepRun × Db) :=
  if db.lease ≠ some leader then .error .notLeader
  else .ok (db.claimable limit, (db.claimable limit).foldl (launchClaimed now) db)

/-- Open a wait on a Pending gate, or return the one that is open. -/
def openGateWait (db : Db) (leader : LeaderTerm) (run : RunId) (step : StepId)
    (startedAt at_ : Timestamp) : Except DbError (Option Attempt × Db) :=
  if db.lease ≠ some leader then .error .notLeader
  else if step ∉ db.stepIds run then .ok (none, db)
  else
    let r := db.steps run step
    if r.status ≠ .pending then .ok (none, db)
    else match r.attempts.running? with
      | some a => .ok (some a, db)
      | none =>
          let a : Attempt := ⟨r.attempts.next, min startedAt at_, none, none, .running⟩
          .ok (some a, (db.setStep run step { r with attempts := r.attempts.record a }).journal
            [⟨run, .attemptStarted step a.id, at_⟩])

/-- The Attempt a verdict lands on and the Attempts after it: the fenced wait while it is
open; unfenced, the open wait or an Attempt minted already closed. -/
def closeWait (h : Attempts) (res : GateResolution) : Option (AttemptId × Bool × Attempts) :=
  let failure := if res.passed then none else some FailureKind.gate
  let outcome := if res.passed then AttemptOutcome.succeeded else .failed
  let close (a : Attempt) : Attempt :=
    { a with failure := failure, failureDetail := res.attemptDetail, outcome := outcome }
  match res.fence with
  | some f =>
      if h.outcome? f = some .running then some (f, false, h.update f close) else none
  | none =>
      match h.running? with
      | some a => some (a.id, false, h.update a.id close)
      | none => some (h.next, true, h.record
          ⟨h.next, min res.legacyStartedAt res.at_, failure, res.attemptDetail, outcome⟩)

/-- A gate's row after its verdict. -/
def resolvedRec (r : StepRec) (res : GateResolution) (attempt : AttemptId)
    (attempts : Attempts) : StepRec :=
  { r with
    status := if res.passed then .succeeded else .failed
    attempts := attempts
    results := res.stored.getD r.results
    evidenceAttempt := if res.stored.isSome then some attempt else r.evidenceAttempt }

/-- Keep a gate's outputs on the Attempt they came with. -/
def keepGateOutputs (db : Db) (run : RunId) (step : StepId) (attempt : AttemptId) :
    Option Results → Db
  | none => db
  | some outputs => db.setEvidence run step attempt fun e => { e with results := outputs }

/-- Resolve a Pending gate; `none` when there was no such wait to resolve. -/
def resolveGateWait (db : Db) (run : RunId) (step : StepId) (res : GateResolution) :
    Option AttemptId × Db :=
  let r := db.steps run step
  if step ∉ db.stepIds run ∨ r.status ≠ .pending then (none, db)
  else match closeWait r.attempts res with
    | none => (none, db)
    | some (attempt, minted, attempts) =>
        let moved := (db.setStep run step (resolvedRec r res attempt attempts)).keepGateOutputs
          run step attempt res.stored
        (some attempt, moved.journal
          ((gateResolutionEvents step attempt minted res).map fun k => ⟨run, k, res.at_⟩))

/-- Close an Attempt that is still running; `false` when it is not. -/
def closeRunningAttempt (db : Db) (run : RunId) (step : StepId) (attempt : AttemptId)
    (outcome : AttemptOutcome) (event : Option Event) : Bool × Db :=
  let r := db.steps run step
  if step ∈ db.stepIds run ∧ r.attempts.outcome? attempt = some .running then
    (true, (db.setStep run step { r with
      attempts := r.attempts.update attempt fun a => { a with outcome := outcome } }).journal
        event.toList)
  else (false, db)

def setGateWaitInputs (db : Db) (leader : LeaderTerm) (run : RunId) (step : StepId)
    (attempt : AttemptId) (inputs : Text) : Except DbError (Bool × Db) :=
  if db.lease ≠ some leader then .error .notLeader
  else if step ∈ db.stepIds run ∧ (db.steps run step).attempts.outcome? attempt = some .running ∧
      db.gateInputs run step attempt = none then
    .ok (true, { db with gateInputs := setCell db.gateInputs run step attempt (some inputs) })
  else .ok (false, db)

/-- Take the group's slot: `none` when this run now holds it, else the live holder. -/
def acquireSlot (db : Db) (leader : LeaderTerm) (group : Text) (run : RunId) :
    Except DbError (Option RunId × Db) :=
  if db.lease ≠ some leader then .error .notLeader
  else match db.slots group with
    | none => .ok (none, { db with slots := Function.update db.slots group (some run) })
    | some holder =>
        if holder = run then .ok (none, db)
        else if (db.runStatus holder).all (·.isTerminal) then
          .ok (none, { db with slots := Function.update db.slots group (some run) })
        else .ok (some holder, db)

def releaseSlot (db : Db) (group : Text) (run : RunId) : Db :=
  if db.slots group = some run then { db with slots := Function.update db.slots group none }
  else db

/-- Record an Attempt's output on the step and on the Attempt. -/
def setStepOutput (db : Db) (run : RunId) (step : StepId) (attempt : AttemptId) (output : Text)
    (identity : Option Text) : Except DbError Db :=
  if step ∈ db.stepIds run then
    .ok ((db.setStep run step { db.steps run step with
      output := some output
      outputIdentity := identity
      evidenceAttempt := some attempt }).setEvidence run step attempt
        fun e => { e with output := some output })
  else .error .conflict

def storeResults (db : Db) (run : RunId) (step : StepId) (attempt : AttemptId)
    (results : Results) : Db :=
  (db.setStep run step { db.steps run step with
    results := results
    evidenceAttempt := some attempt }).setEvidence run step attempt
      fun e => { e with results := results }

def setStepResults (db : Db) (run : RunId) (step : StepId) (attempt : AttemptId)
    (results : Results) : Except DbError Db :=
  if step ∈ db.stepIds run then .ok (db.storeResults run step attempt results)
  else .error .conflict

/-- The fenced twin of `setStepResults`: only for the latest Attempt of a Running step. -/
def ingestAttemptResults (db : Db) (run : RunId) (step : StepId) (attempt : AttemptId)
    (results : Results) : Except DbError Db :=
  if step ∈ db.stepIds run ∧ (db.steps run step).status = .running ∧
      (db.steps run step).attempts.frontier = some attempt then
    .ok (db.storeResults run step attempt results)
  else .error .conflict

def setStepInput (db : Db) (run : RunId) (step : StepId) (signature : Option Text) : Db :=
  if step ∈ db.stepIds run then
    db.setStep run step { db.steps run step with input := signature }
  else db

def setServices (db : Db) (run : RunId) (rows : List RunService) : Db :=
  { db with services := Function.update db.services run rows }

def createRunService (db : Db) (leader : Option LeaderTerm) (run : RunId) (take : ℤ)
    (name : Text) (at_ : Timestamp) : Except DbError Db :=
  if !db.holdsLeaderTermIf leader then .error .notLeader
  else if (db.services run).any fun s => s.take = take ∧ s.name = name then .ok db
  else .ok (db.setServices run (db.services run ++ [⟨take, name, .starting, none, at_⟩]))

def setRunService (db : Db) (leader : Option LeaderTerm) (run : RunId) (take : ℤ) (name : Text)
    (status : ServiceStatus) (handle : Option Text) : Except DbError Db :=
  if !db.holdsLeaderTermIf leader then .error .notLeader
  else .ok (db.setServices run ((db.services run).map fun s =>
    if s.take = take ∧ s.name = name then
      { s with status := status, handle := handle <|> s.handle }
    else s))

/-- Claim up to `limit` pending messages of a kind whose claim is free. -/
def claimOutbox (db : Db) (owner : Text) (kind : OutboxKind) (limit : ℕ) (lapsed : List ℕ) :
    List (ℕ × OutboxMessage) × Db :=
  let free (e : OutboxEntry) : Bool :=
    e.pending && decide (e.msg.kind = kind) && (e.claimedBy.isNone || decide (e.id ∈ lapsed))
  let taken := (db.outbox.entries.filter free).take limit
  (taken.map fun e => (e.id, e.msg), { db with
    outbox := db.outbox.update (fun e => decide (e.id ∈ taken.map (·.id)))
      fun e => { e with claimedBy := some owner } })

/-- Whether `owner` still holds the claim on a pending message. -/
def renewOutboxClaim (db : Db) (id : ℕ) (owner : Text) : Bool :=
  db.outbox.entries.any fun e => decide (e.id = id) && e.pending && decide (e.claimedBy = some owner)

def recordOutboxFailure (db : Db) (id : ℕ) : ℕ × Db :=
  (((db.outbox.entries.find? (·.id = id)).map (·.deliveryAttempts + 1)).getD 0,
    db.setEntry id fun e => { e with deliveryAttempts := e.deliveryAttempts + 1 })

/-- Hold, renew or take over the scheduler lease; a takeover opens the next term. -/
def leaseFor (db : Db) (owner : Text) (expired : Bool) : LeaderTerm × Db :=
  match db.lease with
  | none => (⟨owner, 1⟩, { db with lease := some ⟨owner, 1⟩ })
  | some held =>
      if held.owner = owner then (held, db)
      else if expired then (⟨owner, held.term + 1⟩, { db with lease := some ⟨owner, held.term + 1⟩ })
      else (held, db)

end Db
end Scarab.Engine
