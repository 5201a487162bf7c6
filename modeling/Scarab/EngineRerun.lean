import Scarab.EngineTransitions

/-!
# Rerun and retry

Planning what a rerun re-executes, widened upstream where a snapshot is gone, and re-arming
it: reopen a settled run first, then move each planned step back to `Pending`.
-/
namespace Scarab.Engine

open Interleave

def sortIds (ids : List StepId) : List StepId := ids.insertionSort fun a b => a.text ≤ b.text

/-- One sweep: a step joins the set once any of its needs is in it. -/
def invalidationPass (steps : List StepRun) (invalid : List StepId) : List StepId :=
  steps.foldl (fun inv s =>
    if s.step ∉ inv ∧ s.needs.any (· ∈ inv) then inv ++ [s.step] else inv) invalid

/-- The target and every step that transitively needs it. Each sweep that changes anything
adds a step, so as many sweeps as there are steps reach the fixpoint. -/
def invalidationSet (target : StepId) (steps : List StepRun) : List StepId :=
  (invalidationPass steps)^[steps.length] [target]

structure ExpiredInput where
  consumer : StepId
  producedBy : StepId
  root : Text
  deriving DecidableEq

inductive PlanReason where
  | target | cascade | regenerate | regenerateCascade
  deriving DecidableEq

structure PlannedStep where
  step : StepId
  reason : PlanReason
  becauseOf : Option StepId
  isGate : Bool
  deriving DecidableEq

structure RerunPlan where
  target : StepId
  invalidated : List StepId
  widened : List StepId
  expired : List ExpiredInput
  startsFrom : List StepId
  steps : List PlannedStep
  deriving DecidableEq

/-- What one step consumes and the output it last recorded. -/
structure Consumption where
  step : StepId
  consumed : List StepId
  output : Option Text

def outputOf (cs : List Consumption) (step : StepId) : Option Text :=
  (cs.find? (·.step = step)).bind (·.output)

/-- The recorded snapshots the set consumes from producers that do not re-run. -/
def boundary (cs : List Consumption) (invalid : List StepId) : List (StepId × StepId × Text) :=
  let edges := cs.flatMap fun c =>
    if c.step ∈ invalid then
      (c.consumed.filter (· ∉ invalid)).filterMap fun p =>
        (outputOf cs p).map fun root => (c.step, p, root)
    else []
  edges.dedup.insertionSort fun a b =>
    [a.1.text, a.2.1.text, a.2.2] ≤ [b.1.text, b.2.1.text, b.2.2]

/-- Whether a snapshot is still there, asked once per root. -/
def snapshotKnown (present : List (Text × Bool)) (root : Text) :
    Eff (Bool × List (Text × Bool)) :=
  match present.find? (·.1 = root) with
  | some (_, ok) => pure (ok, present)
  | none => do
      let ok ← ask (.snapshotPresent root)
      pure (ok, (root, ok) :: present)

/-- Ask for each boundary snapshot once; a producer whose snapshot is gone is a new root. -/
def probe : List (StepId × StepId × Text) → List (Text × Bool) → List StepId →
    List ExpiredInput → Eff (List (Text × Bool) × List StepId × List ExpiredInput)
  | [], present, roots, expired => pure (present, roots, expired)
  | (consumer, producer, root) :: rest, present, roots, expired => do
      let (ok, present) ← snapshotKnown present root
      if !ok ∧ producer ∉ roots then
        probe rest present (roots ++ [producer]) (expired ++ [⟨consumer, producer, root⟩])
      else probe rest present roots expired

/-- Add the invalidation set of every new root until no boundary snapshot is missing. -/
def widen (steps : List StepRun) (cs : List Consumption) :
    ℕ → List StepId → List (Text × Bool) → List ExpiredInput →
      Eff (List StepId × List ExpiredInput)
  | 0, invalid, _, expired => pure (invalid, expired)
  | n + 1, invalid, present, expired => do
      let (present, roots, expired) ← probe (boundary cs invalid) present [] expired
      if roots = [] then pure (invalid, expired)
      else
        widen steps cs n
          (roots.foldl (fun inv r => inv ++ (invalidationSet r steps).filter (· ∉ inv)) invalid)
          present expired

/-- Why a step is in the plan, and because of which other. -/
def planReason (target : StepId) (invalid base : List StepId) (expired : List ExpiredInput)
    (s : StepRun) : PlannedStep :=
  let parent := (sortIds (s.needs.filter (· ∈ invalid))).head?
  let (reason, becauseOf) :=
    if s.step = target then (PlanReason.target, none)
    else match expired.find? (·.producedBy = s.step) with
      | some e => (.regenerate, some e.consumer)
      | none => if s.step ∈ base then (.cascade, parent) else (.regenerateCascade, parent)
  ⟨s.step, reason, becauseOf, s.isGate⟩

/-- Emit the remaining steps in execution order, each round the ones whose needs are out. -/
def executionOrder (invalid : List StepId) : ℕ → List StepRun → List StepId → List StepRun
  | 0, remaining, _ => remaining
  | n + 1, remaining, emitted =>
      let ready := remaining.filter fun s => s.needs.all fun m => m ∉ invalid ∨ m ∈ emitted
      if ready = [] then remaining
      else ready ++ executionOrder invalid n (remaining.filter (· ∉ ready))
        (emitted ++ ready.map (·.step))

def plannedSteps (target : StepId) (steps : List StepRun) (invalid base : List StepId)
    (expired : List ExpiredInput) : List PlannedStep :=
  let members := (steps.filter (·.step ∈ invalid)).insertionSort
    fun a b => a.step.text ≤ b.step.text
  (executionOrder invalid members.length members []).map (planReason target invalid base expired)

/-- What one step consumes: its declared inputs, or else all its needs. -/
def readConsumption (run : RunId) (s : StepRun) : Eff Consumption := do
  let explicit ← read (.stepInputs run s.step)
  let output ← read (.stepOutput run s.step)
  pure ⟨s.step, explicit.getD s.needs, output⟩

/-- The invalidation set a rerun executes, widened when the snapshot store can be asked. -/
def widenedSet (snapshots : Bool) (run : RunId) (target : StepId) (steps : List StepRun) :
    Eff (List StepId × List ExpiredInput) :=
  if snapshots then do
    let cs ← Prog.collect steps (readConsumption run)
    widen steps cs (steps.length + 1) (invalidationSet target steps) [] []
  else pure (invalidationSet target steps, [])

def planRerunOver (snapshots : Bool) (run : RunId) (target : StepId) (steps : List StepRun) :
    Eff RerunPlan := do
  let base := invalidationSet target steps
  let (invalid, expired) ← widenedSet snapshots run target steps
  pure {
    target := target
    invalidated := sortIds invalid
    widened := sortIds (invalid.filter (· ∉ base))
    expired := expired
    startsFrom := sortIds ((steps.filter fun s =>
      s.step ∈ invalid ∧ !s.needs.any (· ∈ invalid)).map (·.step))
    steps := plannedSteps target steps invalid base expired }

/-- The first need that is neither Succeeded nor Skipped. -/
def blockingDep (s : StepRun) (steps : List StepRun) : Option StepId :=
  s.needs.find? fun d =>
    !((steps.find? (·.step = d)).any fun x => x.status = .succeeded ∨ x.status = .skipped)

/-- Re-arm a step from the status it was read in: one commit that also supersedes the
in-flight Attempt of a Running step and carries its teardown. -/
def rearmCommit (run : RunId) (target : StepId) (s : StepRun) (by_ : Option Text)
    (at_ : Timestamp) : StepTransition :=
  let live := if s.status = .running then inFlightAttempt s else none
  { run := run
    step := s.step
    from_ := s.status
    to_ := .pending
    frontier := if s.status = .running then .is (s.attempts.getLast?.map (·.id)) else .any
    stamp := live.map fun a => (a.id, .outcome .superseded)
    events := eventsAt run at_ (.stepTransitioned s.step s.status .pending ::
      (live.map fun a => .attemptSuperseded s.step a.id by_).toList)
    outbox := (live.map fun a =>
      supersedeTeardownIntent run target ⟨s.step, a.id⟩ at_).toList }

def commitRearm (run : RunId) (target : StepId) (s : StepRun) (by_ : Option Text) :
    Eff (Except DbError Unit) := do
  let at_ ← now
  tryCommit (.commitStepTransition (rearmCommit run target s by_ at_))

/-- Re-arm a step that moved since it was read, from its live status, in a few tries. -/
def rearmRacedStep (run : RunId) (target step : StepId) (by_ : Option Text) : ℕ → Eff Unit
  | 0 => pure ()
  | tries + 1 => do
      let live ← read (.stepsOfRun run)
      match live.find? (·.step = step) with
      | none => pure ()
      | some s =>
          if s.status = .pending then pure ()
          else
            match ← commitRearm run target s by_ with
            | .ok () => pure ()
            | .error .conflict => rearmRacedStep run target step by_ tries
            | .error e => .err (.db e)

/-- Close the open wait of a gate whose premise is gone. -/
def supersedeGateAttempt (run : RunId) (step : StepId) (attempt : AttemptId)
    (by_ : Option Text) : Eff Bool := do
  let at_ ← now
  commit (.closeRunningAttempt run step attempt .superseded
    (some ⟨run, .attemptSuperseded step attempt by_, at_⟩))

/-- Re-arm one step of the snapshot the plan was made over. -/
def rearmPlanned (run : RunId) (target : StepId) (by_ : Option Text) (s : StepRun) : Eff Unit :=
  if s.status = .pending then
    match openGateAttempt s with
    | none => pure ()
    | some a => do
        if ← supersedeGateAttempt run s.step a.id by_ then pure ()
        else rearmRacedStep run target s.step by_ 8
  else do
    match ← commitRearm run target s by_ with
    | .ok () => pure ()
    | .error .conflict => rearmRacedStep run target s.step by_ 8
    | .error e => .err (.db e)

/-- Bring a settled run back so admission picks its re-armed steps up. -/
def reopenSettled (run : RunId) : Eff Unit := do
  match ← read (.runStatus run) with
  | none => pure ()
  | some current => if current.isTerminal then reopen run current .running else pure ()

/-- Clear the signatures that would skip the target and the widened steps, reopen a settled
run, then re-arm the planned set. -/
def rearmInvalidationSet (run : RunId) (target : StepId) (plan : RerunPlan)
    (steps : List StepRun) (by_ : Option Text) : Eff Unit := do
  commit (.setStepInput run target none)
  Prog.forEach plan.widened fun w => commit (.setStepInput run w none)
  reopenSettled run
  Prog.forEach (steps.filter (·.step ∈ plan.invalidated)) (rearmPlanned run target by_)

def ensureCreationFinished (run : RunId) : Eff Unit := do
  if ← read (.runCreationUnfinished run) then .err .creationUnfinished else pure ()

/-- A rerun opens a new Take: birth the next generation of every shared service. -/
def birthServices (run : RunId) (at_ : Timestamp) : Eff Unit := do
  let rows ← read (.runServices run)
  match (rows.map (·.take)).max? with
  | none => pure ()
  | some cur =>
      Prog.forEach (((rows.filter (·.take = cur)).map (·.name)).dedup.insertionSort (· ≤ ·))
        fun name => commit (.createRunService none run (cur + 1) name at_)

def rerunStepWidened (snapshots : Bool) (run : RunId) (target : StepId) (by_ : Option Text) :
    Eff RerunPlan := do
  ensureCreationFinished run
  let steps ← read (.stepsOfRun run)
  match steps.find? (·.step = target) with
  | none => .err (.stepNotFound target)
  | some targetStep =>
      match blockingDep targetStep steps with
      | some blocker => .err (.dependencyNotSatisfied target blocker)
      | none =>
          let plan ← planRerunOver snapshots run target steps
          let at_ ← now
          commit (.appendEvent
            ⟨run, .runRerunRequested target plan.invalidated by_ plan.widened, at_⟩)
          birthServices run at_
          rearmInvalidationSet run target plan steps by_
          pure plan

def retryStepWidened (snapshots : Bool) (run : RunId) (target : StepId) (by_ : Option Text) :
    Eff RerunPlan := do
  ensureCreationFinished run
  let steps ← read (.stepsOfRun run)
  match steps.find? (·.step = target) with
  | none => .err (.stepNotFound target)
  | some targetStep =>
      if targetStep.status ≠ .failed then .err (.notFailed target targetStep.status)
      else
        match blockingDep targetStep steps with
        | some blocker => .err (.dependencyNotSatisfied target blocker)
        | none =>
            let plan ← planRerunOver snapshots run target steps
            let at_ ← now
            commit (.appendEvent
              ⟨run, .stepRetryRequested target plan.invalidated by_ plan.widened, at_⟩)
            rearmInvalidationSet run target plan steps by_
            pure plan

end Scarab.Engine
