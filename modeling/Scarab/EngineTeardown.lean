import Scarab.EngineLaunch

/-!
# Teardowns and shared services

Draining teardown intents until each named unit is gone, and the shared services a run's
steps use.
-/
namespace Scarab.Engine

open Interleave

/-- What one pass of a teardown message over its units reached; a failure outranks a unit
still terminating, which outranks every unit gone. -/
inductive TeardownPass where
  | gone
  | stillTerminating (handle : Text)
  | launching (key : Text)
  | failed (e : ExecError)

def TeardownPass.absorb (p : TeardownPass) (unit : Except ExecError Bool) (handle : Text) :
    TeardownPass :=
  match unit with
  | .ok true => p
  | .ok false => match p with
      | .gone => .stillTerminating handle
      | p => p
  | .error e => .failed e

def TeardownPass.awaitLaunch (p : TeardownPass) (key : Text) : TeardownPass :=
  match p with
  | .gone => .launching key
  | p => p

/-- Ask a unit to stop, then whether it is gone. -/
def cancelUntilGone (handle : Text) : Eff (Except ExecError Bool) := do
  match ← ask (.cancel handle) with
  | .error e => pure (.error e)
  | .ok () => ask (.tornDown handle)

/-- Tear one named Attempt's unit down; one with no unit recorded waits out its launch. -/
def teardownUnit (run : RunId) (p : TeardownPass) (item : TeardownAttempt) :
    Eff TeardownPass := do
  match ← read (.attemptHandle run item.step item.attempt) with
  | some handle => do
      let unit ← cancelUntilGone handle
      pure (p.absorb unit handle)
  | none => do
      let key := launchKey run item.step item.attempt
      if ← read (.outboxKeyPending key) then pure (p.awaitLaunch key) else pure p

def ceilingText : String := toString maxDeliveryAttempts

def fencedText : String := "(fencing keeps run state correct)"

/-- Why a teardown that is not done is given up in the end. -/
def TeardownPass.why : TeardownPass → Option String
  | .gone => none
  | .stillTerminating handle => some ("`" ++ String.ofList handle ++ "` was still terminating " ++
      "after " ++ ceilingText ++ " checks — every cancel was accepted, but the backend never " ++
      "reported the unit gone (a termination grace longer than the retry window, or an " ++
      "unreachable node); the teardown is abandoned, so the unit may still be running " ++ fencedText)
  | .launching key => some ("`" ++ String.ofList key ++ "` was still pending after " ++
      ceilingText ++ " checks — an attempt to tear down had no unit recorded while its launch " ++
      "could still create one; the teardown is abandoned, so a unit that launch creates may " ++
      "run on " ++ fencedText)
  | .failed e => some ("Pod teardown failed " ++ ceilingText ++ " times and was abandoned; the " ++
      "backend unit may be orphaned " ++ fencedText ++ ": " ++ e.text)

/-- Count a teardown that did not finish; at the ceiling it is abandoned, on the journal. -/
def countTeardown (id : ℕ) (msg : OutboxMessage) (why : String) : Eff Unit := do
  let failures ← commit (.recordOutboxFailure id)
  if maxDeliveryAttempts ≤ failures then do
    commit (.deadLetterOutbox id)
    let at_ ← now
    append msg.run (.teardownAbandoned msg.kind id why) at_
  else pure ()

/-- Retire a teardown whose units are all gone; count any other pass. -/
def settleTeardown (id : ℕ) (msg : OutboxMessage) (p : TeardownPass) : Eff Unit :=
  match p.why with
  | none => commit (.markDispatched id)
  | some why => countTeardown id msg why

/-- One delivery of an Attempt-scoped teardown. -/
def processTeardown (id : ℕ) (msg : OutboxMessage) : Eff Unit :=
  match msg.payload with
  | .teardown attempts => do
      let p ← Prog.foldEach attempts .gone (teardownUnit msg.run)
      settleTeardown id msg p
  | _ => .err .badPayload

def unprocessedReason (e : Err) : String :=
  "teardown message could not be processed " ++ ceilingText ++ " times and was abandoned; the " ++
    "backend unit may be orphaned " ++ fencedText ++ ": " ++ e.text

/-- A delivery that errors is counted by itself, never against the rest of the batch. -/
def isolateMessage (id : ℕ) (msg : OutboxMessage) (work : Eff Unit) : Eff Unit := do
  match ← work.attempt with
  | .ok _ => pure ()
  | .error e => countTeardown id msg (unprocessedReason e)

def drainAttemptTeardowns (cfg : SchedulerConfig) (owner : Text) (kind : OutboxKind) :
    Eff Unit := do
  let msgs ← commit (.claimOutbox owner kind cfg.outboxBatch)
  Prog.forEach msgs fun m => isolateMessage m.1 m.2 (processTeardown m.1 m.2)

def reconcileSupersessions (cfg : SchedulerConfig) (owner : Text) : Eff Unit :=
  drainAttemptTeardowns cfg owner .supersedeTeardown

/-- Tear one Cancelled Attempt of an older binary's cancel down. -/
def teardownCancelled (run : RunId) (p : TeardownPass) (item : TeardownAttempt) :
    Eff TeardownPass := do
  match ← read (.attemptHandle run item.step item.attempt) with
  | none => pure p
  | some handle => do
      let unit ← cancelUntilGone handle
      pure (p.absorb unit handle)

/-- The step units an older binary's run-wide cancel is the only teardown of. -/
def teardownLegacyCancel (msg : OutboxMessage) : Eff TeardownPass :=
  if msg.payload = .null then do
    let steps ← read (.stepsOfRun msg.run)
    Prog.foldEach (steps.flatMap fun s =>
      (s.attempts.filter (·.outcome = .cancelled)).map fun a => ⟨s.step, a.id⟩) .gone
      (teardownCancelled msg.run)
  else pure .gone

def Payload.throughTake : Payload → Option ℤ
  | .services t => some t
  | _ => none

/-- Stop one shared service of a cancelled run; a failed stop leaves its row live. -/
def teardownService (run : RunId) (p : TeardownPass) (svc : RunService) : Eff TeardownPass :=
  match svc.handle with
  | none => do
      commit (.setRunService none run svc.take svc.name .tornDown none)
      pure p
  | some h => do
      match ← ask (.teardownService h) with
      | .error e => pure (p.absorb (.error e) h)
      | .ok () => do
          commit (.setRunService none run svc.take svc.name .tornDown none)
          pure p

/-- One delivery of a cancelled run's services teardown. A run live again keeps the Takes
born after the cancel. -/
def processCancelRun (id : ℕ) (msg : OutboxMessage) : Eff Unit := do
  let p ← teardownLegacyCancel msg
  let status ← read (.runStatus msg.run)
  let reopened := status.any (!·.isTerminal)
  let rows ← read (.runServices msg.run)
  let p ← Prog.foldEach (rows.filter fun svc => !svc.status.isTerminal ∧
    !(reopened ∧ msg.payload.throughTake.any (· < svc.take))) p (teardownService msg.run)
  settleTeardown id msg p

def reconcileCancellations (cfg : SchedulerConfig) (owner : Text) : Eff Unit := do
  drainAttemptTeardowns cfg owner .cancelAttempt
  let msgs ← commit (.claimOutbox owner .cancelRun cfg.outboxBatch)
  Prog.forEach msgs fun m => isolateMessage m.1 m.2 (processCancelRun m.1 m.2)

/-- Launch a service, bounded by its readiness deadline. -/
def launchServiceBounded (cfg : SchedulerConfig) (leader : LeaderTerm) (run : RunId) (take : ℤ)
    (name : Text) (createdAt at_ : Timestamp) : Eff (Option Text) := do
  match ← ask (.launchService run take name) with
  | .ok handle => do
      commit (.setRunService (some leader) run take name .starting (some handle))
      pure (some handle)
  | .error _ =>
      if cfg.serviceReadyTimeoutMs < at_ - createdAt then do
        commit (.setRunService (some leader) run take name .failed none)
        pure none
      else pure none

/-- Poll a starting service: ready, past its deadline, or neither yet. -/
def pollStarting (cfg : SchedulerConfig) (leader : LeaderTerm) (run : RunId) (r : RunService)
    (handle : Option Text) (at_ : Timestamp) : Eff Unit :=
  match handle with
  | none => pure ()
  | some h => do
      if ← orExec (← ask (.serviceReady h)) then
        commit (.setRunService (some leader) run r.take r.name .ready none)
      else if cfg.serviceReadyTimeoutMs < at_ - r.createdAt then
        commit (.setRunService (some leader) run r.take r.name .failed none)
      else pure ()

/-- The handle of a starting service, relaunched when a crash lost it. -/
def startingHandle (cfg : SchedulerConfig) (leader : LeaderTerm) (run : RunId) (r : RunService)
    (at_ : Timestamp) : Eff (Option Text) :=
  match r.handle with
  | some h => pure (some h)
  | none => launchServiceBounded cfg leader run r.take r.name r.createdAt at_

/-- A service that was healthy and no longer is has died. -/
def pollHealthy (leader : LeaderTerm) (run : RunId) (r : RunService) : Eff Unit :=
  match r.handle with
  | none => pure ()
  | some h => do
      if ← orExec (← ask (.serviceReady h)) then pure ()
      else commit (.setRunService (some leader) run r.take r.name .failed none)

/-- Birth, launch and poll one service of the current Take. -/
def reconcileService (cfg : SchedulerConfig) (leader : LeaderTerm) (run : RunId)
    (rows : List RunService) (take : ℤ) (at_ : Timestamp) (name : Text) : Eff Unit :=
  match rows.find? fun r => r.take = take ∧ r.name = name with
  | none => do
      commit (.createRunService (some leader) run take name at_)
      let _ ← launchServiceBounded cfg leader run take name at_ at_
  | some r =>
      match r.status with
      | .starting => do
          let handle ← startingHandle cfg leader run r at_
          pollStarting cfg leader run r handle at_
      | .ready => pollHealthy leader run r
      | .running => pollHealthy leader run r
      | .tornDown => pure ()
      | .failed => pure ()

/-- Stop one service of an earlier Take. -/
def retireService (leader : LeaderTerm) (run : RunId) (r : RunService) : Eff Unit := do
  stopServiceUnit r
  commit (.setRunService (some leader) run r.take r.name .tornDown none)

/-- Drive the services of a live run. -/
def reconcileLiveServices (cfg : SchedulerConfig) (leader : LeaderTerm) (run : RunId)
    (services : List Text) : Eff Unit := do
  let rows ← read (.runServices run)
  let take := currentServiceTake rows
  let at_ ← now
  Prog.forEach (rows.filter fun r => r.take < take ∧ !r.status.isTerminal)
    (retireService leader run)
  Prog.forEach services (reconcileService cfg leader run rows take at_)

def reconcileServicesAsLeader (cfg : SchedulerConfig) (leader : LeaderTerm) (run : RunId) :
    Eff Unit := do
  let ir ← read (.runIr run)
  match (ir.map (·.services)).getD [] with
  | [] => pure ()
  | services => do
      match ← read (.runStatus run) with
      | none => .err (.runNotFound run)
      | some status =>
          if status.isTerminal then teardownServices (some leader) run
          else reconcileLiveServices cfg leader run services

def reconcileServices (cfg : SchedulerConfig) (owner : Text) (run : RunId) : Eff Leg := do
  match ← leaderTerm owner with
  | none => pure .done
  | some term => leaderLeg (reconcileServicesAsLeader cfg term run)

def unfinishedCreationReason : String := "the server stopped while creating this Run"

/-- End a run whose creation never finished. -/
def failRunCreation (leader : Option LeaderTerm) (run : RunId) (reason : String)
    (at_ : Timestamp) : Eff Unit :=
  commitRunTransitionAfter leader run .pending .failed at_ true [] [.runCreationFailed reason]

/-- End every run left mid-creation past the bound; a deposed leader stops at once. -/
def sweepUnfinishedCreations (cfg : SchedulerConfig) (owner : Text) : Eff Unit := do
  match ← leaderTerm owner with
  | none => pure ()
  | some term => do
      let at_ ← now
      let stale ← read (.unfinishedCreationsBefore (at_ - cfg.unfinishedCreationBoundMs))
      let _ ← Prog.foldEach stale true fun live run =>
        if live then do
          match ← (failRunCreation (some term) run unfinishedCreationReason at_).attempt with
          | .error (.db .notLeader) => pure false
          | .error (.db .fenceTimeout) => pure false
          | _ => pure true
        else pure false
      pure ()

end Scarab.Engine
