import Scarab.TextBasics

/-!
# The durable engine's records

Identifiers, statuses, Attempts, the event journal and the outbox messages, as the engine
crate declares them. Human-readable reasons are strings; everything that is compared or
built into an idempotency key is a list of characters.
-/
namespace Scarab.Engine

/-- Unix milliseconds. -/
abbrev Timestamp := ℤ

/-- A run's id: a rendered UUID, so it holds neither of the separators the keys use. -/
structure RunId where
  text : Text
  plain : ':' ∉ text ∧ '/' ∉ text
  deriving DecidableEq

/-- A step's id: whatever the pipeline's author wrote, separators included. -/
structure StepId where
  text : Text
  deriving DecidableEq

/-- An attempt's id `a{num}`; attempts order by the number. -/
structure AttemptId where
  num : ℕ
  deriving DecidableEq

def AttemptId.text (a : AttemptId) : Text := 'a' :: Nat.toDigits 10 a.num

inductive RunStatus where
  | pending | running | suspended | succeeded | failed | cancelled | deadLettered
  deriving DecidableEq

def RunStatus.isTerminal : RunStatus → Bool
  | .succeeded | .failed | .cancelled | .deadLettered => true
  | .pending | .running | .suspended => false

inductive StepStatus where
  | pending | ready | running | succeeded | failed | skipped | cancelled
  deriving DecidableEq

def StepStatus.isTerminal : StepStatus → Bool
  | .succeeded | .failed | .skipped | .cancelled => true
  | .pending | .ready | .running => false

inductive ConcurrencyPolicy where
  | queue | cancelInProgress
  deriving DecidableEq

inductive FailureKind where
  | infra (neverStarted : Bool)
  | step | timeout | lost | config | missingInputs | gate
  deriving DecidableEq

inductive AttemptOutcome where
  | running | succeeded | failed | superseded | cancelled
  deriving DecidableEq

/-- The outcomes a later observation never overwrites. -/
def AttemptOutcome.byIntent : AttemptOutcome → Bool
  | .superseded | .cancelled => true
  | .running | .succeeded | .failed => false

structure Attempt where
  id : AttemptId
  startedAt : Timestamp
  failure : Option FailureKind
  failureDetail : Option String
  outcome : AttemptOutcome
  deriving DecidableEq

inductive GateKind where
  | manual | timer | external | plugin | deployment
  deriving DecidableEq

/-- The per-run projection of one step, as a snapshot read returns it. -/
structure StepRun where
  run : RunId
  step : StepId
  status : StepStatus
  attempts : List Attempt
  needs : List StepId
  gateKind : Option GateKind
  deriving DecidableEq

def StepRun.isGate (s : StepRun) : Bool := s.gateKind.isSome

/-- Named results of a step, by key. -/
abbrev Results := List (Text × Text)

structure StepSpec where
  image : Text
  command : List Text
  env : List (Text × Text)
  uses : List Text
  workspaceInputs : List Text
  deriving DecidableEq

inductive AttemptStamp where
  | outcome (o : AttemptOutcome)
  | failure (kind : FailureKind) (detail : Option String)
  deriving DecidableEq

/-- What a transition's compare-and-set asks of the step's latest Attempt. -/
inductive AttemptFrontier where
  | any
  | is (latest : Option AttemptId)
  deriving DecidableEq

/-- The latest Attempt is not the one the transition asks for. -/
def AttemptFrontier.misses (latest : Option AttemptId) : AttemptFrontier → Bool
  | .any => false
  | .is expected => decide (latest ≠ expected)

structure GateResolution where
  passed : Bool
  reason : String
  expired : Bool
  by_ : Option Text
  fence : Option AttemptId
  legacyStartedAt : Timestamp
  at_ : Timestamp
  outputs : Option Results
  deriving DecidableEq

/-- The `failure_detail` a failed verdict stamps on its Attempt. -/
def GateResolution.attemptDetail (res : GateResolution) : Option String :=
  if res.passed then none
  else some (match res.by_ with
    | some who => "rejected by " ++ String.ofList who ++ ": " ++ res.reason
    | none => res.reason)

/-- The outputs a passing verdict stores; any other verdict stores none. -/
def GateResolution.stored (res : GateResolution) : Option Results :=
  if res.passed then res.outputs else none

inductive ServiceStatus where
  | starting | ready | running | tornDown | failed
  deriving DecidableEq

def ServiceStatus.isTerminal : ServiceStatus → Bool
  | .tornDown | .failed => true
  | .starting | .ready | .running => false

structure RunService where
  take : ℤ
  name : Text
  status : ServiceStatus
  handle : Option Text
  createdAt : Timestamp
  deriving DecidableEq

/-- One collision of a fan-in merge, by step. -/
structure WorkspaceCollision where
  path : Text
  winner : StepId
  loser : StepId
  deriving DecidableEq

/-- Outbox message kinds. -/
inductive OutboxKind where
  | launchStep | runStatusChanged | runFinished | cancelRun | cancelAttempt | supersedeTeardown
  deriving DecidableEq

inductive EventPayload where
  | runTransitioned (from_ to_ : RunStatus)
  | stepTransitioned (step : StepId) (from_ to_ : StepStatus)
  | attemptStarted (step : StepId) (attempt : AttemptId)
  | attemptFinished (step : StepId) (attempt : AttemptId) (failure : Option FailureKind)
      (cause : Option String)
  | gateApproved (step : StepId) (by_ : Text)
  | gateReleased (step : StepId)
  | environmentApprovalMet (step : StepId) (approvers : List Text) (required : Option ℕ)
      (releaseAt : Timestamp)
  | stepSkipped (step : StepId) (reason : String)
  | runDeadLettered (reason : String)
  | runCancelRequested (by_ : Option Text)
  | gateExpired (step : StepId)
  | gateResolved (step : StepId) (attempt : AttemptId) (passed : Bool) (reason : Option String)
      (by_ : Option Text)
  | runRerunRequested (target : StepId) (invalidated : List StepId) (by_ : Option Text)
      (widened : List StepId)
  | stepRetryRequested (target : StepId) (invalidated : List StepId) (by_ : Option Text)
      (widened : List StepId)
  | attemptReadopted (step : StepId) (attempt : AttemptId)
  | attemptSuperseded (step : StepId) (attempt : AttemptId) (by_ : Option Text)
  | runBudgetExhausted (activeMs budgetMs : ℤ)
  | stepServicesUnready (step : StepId) (reason : String)
  | workspaceInputCollisions (step : StepId) (attempt : AttemptId) (count : ℕ)
      (sample : List WorkspaceCollision)
  | teardownAbandoned (kind : OutboxKind) (outboxId : ℕ) (reason : String)
  | runCreationFailed (reason : String)
  deriving DecidableEq

structure Event where
  run : RunId
  kind : EventPayload
  at_ : Timestamp
  deriving DecidableEq

/-- The events one gate resolution journals, in order. -/
def gateResolutionEvents (step : StepId) (attempt : AttemptId) (minted : Bool)
    (res : GateResolution) : List EventPayload :=
  (if minted then [.attemptStarted step attempt] else []) ++
  [.attemptFinished step attempt (if res.passed then none else some .gate) res.attemptDetail] ++
  (if res.passed then [.gateReleased step]
    else if res.expired then [.gateExpired step] else []) ++
  [.stepTransitioned step .pending (if res.passed then .succeeded else .failed),
    .gateResolved step attempt res.passed (some res.reason) res.by_]

structure LaunchIntent where
  run : RunId
  step : StepId
  attempt : AttemptId
  deriving DecidableEq

structure TeardownAttempt where
  step : StepId
  attempt : AttemptId
  deriving DecidableEq

/-- A message's payload; `null` is what an older binary's `cancel_run` carries. -/
inductive Payload where
  | launch (intent : LaunchIntent)
  | teardown (attempts : List TeardownAttempt)
  | services (throughTake : ℤ)
  | status (to_ : RunStatus) (generation : ℕ)
  | null
  deriving DecidableEq

/-- A message before the store gives it an id. -/
structure OutboxMessage where
  run : RunId
  kind : OutboxKind
  payload : Payload
  key : Text
  at_ : Timestamp
  deriving DecidableEq

structure OutboxEntry where
  id : ℕ
  msg : OutboxMessage
  claimedBy : Option Text
  dispatched : Bool
  deliveryAttempts : ℕ
  deadLettered : Bool
  deriving DecidableEq

/-- Neither retired nor poisoned: the message will still be delivered. -/
def OutboxEntry.pending (e : OutboxEntry) : Bool := !e.dispatched && !e.deadLettered

structure LeaderTerm where
  owner : Text
  term : ℕ
  deriving DecidableEq

inductive DbError where
  | unavailable | conflict | notLeader | fenceTimeout
  | other (why : String)
  deriving DecidableEq

def DbError.text : DbError → String
  | .unavailable => "durable store unavailable"
  | .conflict => "optimistic concurrency conflict"
  | .notLeader => "not the leader: the lease moved to another owner or a later term"
  | .fenceTimeout => "a leader transaction hit its time bound and rolled back"
  | .other why => "db error: " ++ why

inductive ExecError where
  | launch (why : String) | refused (why : String) | unavailable | other (why : String)
  deriving DecidableEq

def ExecError.text : ExecError → String
  | .launch why => "failed to launch step: " ++ why
  | .refused why => "launch refused: " ++ why
  | .unavailable => "execution backend unavailable"
  | .other why => "exec error: " ++ why

inductive FailureClass where
  | infra (neverStarted : Bool)
  | step | timeout | config | missingInputs
  deriving DecidableEq

def FailureClass.kind : FailureClass → FailureKind
  | .infra n => .infra n
  | .step => .step
  | .timeout => .timeout
  | .config => .config
  | .missingInputs => .missingInputs

inductive ExecState where
  | pending | running | succeeded
  | failed (class_ : FailureClass) (cause : Option String)
  | lost
  deriving DecidableEq

/-- One step of a run's stored pipeline, as far as the scheduler reads it. -/
structure IrStep where
  id : StepId
  timeout : Option ℕ
  retryMax : Option ℕ
  gateExpiresAfter : Option ℤ
  manualGate : Bool
  environmentApprovalGate : Option Bool
  deriving DecidableEq

structure RunIr where
  budget : Option ℤ
  steps : List IrStep
  services : List Text
  deriving DecidableEq

def RunIr.step? (ir : RunIr) (step : StepId) : Option IrStep := ir.steps.find? (·.id = step)

/-- 64-bit saturation, for the source's `saturating_*` arithmetic. -/
def saturate (x : ℤ) : ℤ := max (-2 ^ 63) (min x (2 ^ 63 - 1))

/-- A step transition as one commit: the guarded move, the Attempt stamp that rides it, its
journal and its outbox messages. -/
structure StepTransition where
  run : RunId
  step : StepId
  from_ : StepStatus
  to_ : StepStatus
  frontier : AttemptFrontier
  stamp : Option (AttemptId × AttemptStamp)
  events : List Event
  outbox : List OutboxMessage
  deriving DecidableEq

/-- A run transition as one commit. -/
structure RunTransition where
  leader : Option LeaderTerm
  run : RunId
  from_ : RunStatus
  to_ : RunStatus
  generation : ℕ
  events : List Event
  outbox : List OutboxMessage

end Scarab.Engine
