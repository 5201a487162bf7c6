import Scarab.EnginePort

/-!
# Run and step transitions

The commits every caller shares: a run's move with its journal and its posts, a step's
plain move, and the teardown intents that ride them.
-/
namespace Scarab.Engine

def eventsAt (run : RunId) (at_ : Timestamp) (kinds : List EventPayload) : List Event :=
  kinds.map fun k => ⟨run, k, at_⟩

/-- A run's move: what precedes it in the journal, the intents that ride it and, when
observers are told, one post per generation and status. -/
def runTransition (leader : Option LeaderTerm) (run : RunId) (from_ to_ : RunStatus)
    (at_ : Timestamp) (notify : Bool) (intents : List OutboxMessage)
    (preceding : List EventPayload) (generation : ℕ) : RunTransition where
  leader := leader
  run := run
  from_ := from_
  to_ := to_
  generation := generation
  events := eventsAt run at_ (preceding ++ [.runTransitioned from_ to_])
  outbox :=
    let posted := generation + if from_.isTerminal then 1 else 0
    intents ++ (if notify then
      [⟨run, .runStatusChanged, .status to_ posted, runStatusPostKey run posted to_, at_⟩] ++
      (if (to_ = .succeeded ∨ to_ = .failed) ∧ from_ ≠ .pending then
        [⟨run, .runFinished, .status to_ posted, runFinishedKey run posted to_, at_⟩]
      else [])
    else [])

/-- Commit a run's move, guarded on its status and on the generation read here. Every
caller takes a lost compare-and-set as benign. -/
def commitRunTransitionAfter (leader : Option LeaderTerm) (run : RunId) (from_ to_ : RunStatus)
    (at_ : Timestamp) (notify : Bool) (intents : List OutboxMessage)
    (preceding : List EventPayload) : Eff Unit := do
  let generation ← read (.runReopenGeneration run)
  commitOrLose (.commitRunTransition
    (runTransition leader run from_ to_ at_ notify intents preceding generation))

def transitionRun (leader : Option LeaderTerm) (run : RunId) (from_ to_ : RunStatus) :
    Eff Unit := do
  let at_ ← now
  commitRunTransitionAfter leader run from_ to_ at_ true [] []

/-- Bring a suspended or settled run back; only leaving a terminal status is posted. -/
def reopen (run : RunId) (from_ to_ : RunStatus) : Eff Unit := do
  let at_ ← now
  commitRunTransitionAfter none run from_ to_ at_ from_.isTerminal [] []

def append (run : RunId) (kind : EventPayload) (at_ : Timestamp) : Eff Unit :=
  commit (.appendEvent ⟨run, kind, at_⟩)

/-- A step's move with no Attempt at stake. -/
def plainMove (run : RunId) (step : StepId) (from_ to_ : StepStatus)
    (preceding : List EventPayload) (at_ : Timestamp) : StepTransition where
  run := run
  step := step
  from_ := from_
  to_ := to_
  frontier := .any
  stamp := none
  events := eventsAt run at_ (preceding ++ [.stepTransitioned step from_ to_])
  outbox := []

def transitionStepWith (run : RunId) (step : StepId) (from_ to_ : StepStatus)
    (preceding : List EventPayload) : Eff Unit := do
  let at_ ← now
  commitOrLose (.commitStepTransition (plainMove run step from_ to_ preceding at_))

def transitionStep (run : RunId) (step : StepId) (from_ to_ : StepStatus) : Eff Unit :=
  transitionStepWith run step from_ to_ []

/-- The latest Attempt of a step, while its unit may be alive. -/
def inFlightAttempt (s : StepRun) : Option Attempt :=
  s.attempts.getLast?.filter (·.outcome = .running)

/-- The open wait of a gate. -/
def openGateAttempt (s : StepRun) : Option Attempt :=
  if s.isGate then inFlightAttempt s else none

def cancelAttemptIntent (run : RunId) (step : StepId) (attempt : AttemptId) (at_ : Timestamp) :
    OutboxMessage :=
  ⟨run, .cancelAttempt, .teardown [⟨step, attempt⟩], cancelAttemptKey run step attempt, at_⟩

def supersedeTeardownIntent (run : RunId) (target : StepId) (superseded : TeardownAttempt)
    (at_ : Timestamp) : OutboxMessage :=
  ⟨run, .supersedeTeardown, .teardown [superseded],
    supersedeKey run target superseded.step superseded.attempt, at_⟩

def currentServiceTake (rows : List RunService) : ℤ := ((rows.map (·.take)).max?).getD 1

def cancelServicesIntent (run : RunId) (at_ : Timestamp) : Eff OutboxMessage := do
  let rows ← read (.runServices run)
  let nonce ← ask .nonce
  pure ⟨run, .cancelRun, .services (currentServiceTake rows), cancelServicesKey run nonce, at_⟩

end Scarab.Engine
