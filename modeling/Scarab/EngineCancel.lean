import Scarab.EngineTransitions

/-!
# Cancelling

Cancelling a step, cancelling a run on request, and the scheduler's own cancel of a run:
each step in a commit of its own, then the run.
-/
namespace Scarab.Engine

open Interleave

/-- Cancel a step from the status it was read in: one commit that also stamps the in-flight
Attempt of a Running step and carries its teardown. -/
def cancelCommit (run : RunId) (s : StepRun) (at_ : Timestamp) : StepTransition :=
  let live := if s.status = .running then inFlightAttempt s else none
  { run := run
    step := s.step
    from_ := s.status
    to_ := .cancelled
    frontier := if s.status = .running then .is (s.attempts.getLast?.map (·.id)) else .any
    stamp := live.map fun a => (a.id, .outcome .cancelled)
    events := eventsAt run at_ [.stepTransitioned s.step s.status .cancelled]
    outbox := (live.map fun a => cancelAttemptIntent run s.step a.id at_).toList }

/-- A gate cancelled mid-wait: its open Attempt is cancelled too. -/
def cancelOpenGateAttempt (run : RunId) (s : StepRun) : Eff Unit :=
  if s.isGate then do
    let attempts ← read (.attemptsOfStep run s.step)
    match attempts.getLast?.filter (·.outcome = .running) with
    | none => pure ()
    | some a => do
        let _ ← commit (.closeRunningAttempt run s.step a.id .cancelled none)
  else pure ()

/-- Cancel a step from its live status, re-reading it after each lost compare-and-set. -/
def cancelStep (run : RunId) (at_ : Timestamp) : ℕ → StepRun → Eff Unit
  | 0, _ => pure ()
  | tries + 1, s =>
      if s.status.isTerminal then pure ()
      else do
        match ← tryCommit (.commitStepTransition (cancelCommit run s at_)) with
        | .ok () => cancelOpenGateAttempt run s
        | .error .conflict => do
            let live ← read (.stepsOfRun run)
            match live.find? (·.step = s.step) with
            | some s' => cancelStep run at_ tries s'
            | none => pure ()
        | .error e => .err (.db e)

/-- Free the slot of the run's concurrency group, if this run holds it. -/
def freeSlot (run : RunId) : Eff Unit := do
  match ← read (.runConcurrency run) with
  | none => pure ()
  | some (group, _) => commit (.releaseSlot group run)

/-- An operator's cancel. -/
def cancelRunRequest (run : RunId) (by_ : Option Text) : Eff Bool := do
  match ← read (.runStatus run) with
  | none => pure false
  | some current =>
      if current.isTerminal then pure false
      else
        let at_ ← now
        append run (.runCancelRequested by_) at_
        let steps ← read (.stepsOfRun run)
        Prog.forEach steps (cancelStep run at_ 8)
        let intent ← cancelServicesIntent run at_
        commitRunTransitionAfter none run current .cancelled at_ true [intent] []
        freeSlot run
        pure true

/-- Ask the in-flight unit of a step to stop, best effort. -/
def askUnitToStop (run : RunId) (s : StepRun) : Eff Unit :=
  match inFlightAttempt s with
  | none => pure ()
  | some a => do
      match ← read (.attemptHandle run s.step a.id) with
      | none => pure ()
      | some h => do
          let _ ← ask (.cancel h)

/-- Cancel every live step, asking each in-flight unit to stop first. -/
def cancelLiveSteps (run : RunId) (at_ : Timestamp) : Eff Unit := do
  let steps ← read (.stepsOfRun run)
  Prog.forEach (steps.filter (!·.status.isTerminal)) fun s => do
    askUnitToStop run s
    cancelStep run at_ 8 s

def stopServiceUnit (r : RunService) : Eff Unit :=
  match r.handle with
  | none => pure ()
  | some h => do orExec (← ask (.teardownService h))

/-- Stop every shared service of a run. -/
def teardownServices (leader : Option LeaderTerm) (run : RunId) : Eff Unit := do
  let rows ← read (.runServices run)
  Prog.forEach (rows.filter (!·.status.isTerminal)) fun r => do
    stopServiceUnit r
    commit (.setRunService leader run r.take r.name .tornDown none)

/-- Move a run that is still live to `Cancelled`, with the teardown of its services. -/
def cancelLiveRun (leader : Option LeaderTerm) (run : RunId) (at_ : Timestamp) : Eff Unit := do
  match ← read (.runStatus run) with
  | none => pure ()
  | some current =>
      if current.isTerminal then pure ()
      else
        let intent ← cancelServicesIntent run at_
        commitRunTransitionAfter leader run current .cancelled at_ true [intent] []

/-- The scheduler's cancel: newest-wins supersession, or a slot taken from its holder. -/
def cancelRun (leader : Option LeaderTerm) (run : RunId) : Eff Unit := do
  let at_ ← now
  cancelLiveSteps run at_
  cancelLiveRun leader run at_
  teardownServices leader run
  freeSlot run

end Scarab.Engine
