import Scarab.EngineCalls

/-!
# What one command does to the store

For each table, the commands that change it and how. Every later argument about a run
reads a step's effect off these lemmas instead of unfolding the transactions.
-/
namespace Scarab.Engine

open Interleave

namespace Db

variable {db : Db} {run run' : RunId} {step step' : StepId} {r : StepRec}

section frames

@[simp] theorem steps_setStep (db : Db) (run : RunId) (step : StepId) (r : StepRec) :
    (db.setStep run step r).steps run step = r := by
  simp [setStep]

theorem steps_setStep_of_ne (h : ¬(run' = run ∧ step' = step)) :
    (db.setStep run step r).steps run' step' = db.steps run' step' := by
  by_cases hr : run' = run
  · subst hr
    have hs : step' ≠ step := fun hs => h ⟨rfl, hs⟩
    simp [setStep, hs]
  · simp [setStep, hr]

@[simp] theorem enqueue_outbox (db : Db) (m : OutboxMessage) :
    (db.enqueue m).outbox = db.outbox.enqueue m := rfl

@[simp] theorem enqueueAll_outbox (db : Db) (ms : List OutboxMessage) :
    (db.enqueueAll ms).outbox = ms.foldl Outbox.enqueue db.outbox := by
  induction ms generalizing db with
  | nil => rfl
  | cons m ms ih => exact ih (db.enqueue m)

/-- Enqueueing touches nothing but the outbox. -/
theorem enqueueAll_eq (db : Db) (ms : List OutboxMessage) :
    db.enqueueAll ms = { db with outbox := (db.enqueueAll ms).outbox } := by
  induction ms generalizing db with
  | nil => rfl
  | cons m ms ih => exact ih (db.enqueue m)

@[simp] theorem enqueueAll_steps (db : Db) (ms : List OutboxMessage) :
    (db.enqueueAll ms).steps = db.steps := by
  rw [enqueueAll_eq]

@[simp] theorem enqueueAll_events (db : Db) (ms : List OutboxMessage) :
    (db.enqueueAll ms).events = db.events := by
  rw [enqueueAll_eq]

@[simp] theorem enqueueAll_runs (db : Db) (ms : List OutboxMessage) :
    (db.enqueueAll ms).runs = db.runs := by
  rw [enqueueAll_eq]

@[simp] theorem enqueueAll_slots (db : Db) (ms : List OutboxMessage) :
    (db.enqueueAll ms).slots = db.slots := by
  rw [enqueueAll_eq]

end frames

/-- A step's row once claimed: Running on a fresh Attempt. -/
def claimedRec (now : Timestamp) (r : StepRec) : StepRec :=
  { r with
    status := .running
    attempts := r.attempts.record ⟨r.attempts.next, now, none, none, .running⟩ }

theorem mem_claimable {limit : ℕ} {s : StepRun} (h : s ∈ db.claimable limit) :
    s = { db.stepRun s.run s.step with status := .running } ∧ s.run ∈ db.runIds ∧
      s.step ∈ db.stepIds s.run ∧ (db.steps s.run s.step).status = .ready := by
  simp only [claimable, List.mem_map] at h
  obtain ⟨s₀, hs₀, rfl⟩ := h
  have hready := List.mem_of_mem_take hs₀
  simp only [readySteps, List.mem_filter, List.mem_flatMap, stepsOfRun, List.mem_map,
    decide_eq_true_eq] at hready
  obtain ⟨⟨run, hrun, step, hstep, rfl⟩, hst⟩ := hready
  exact ⟨rfl, hrun, hstep, hst⟩

/-- One claimed step: its own row is claimed, once, and the others are left alone. -/
theorem launchClaimed_steps {db₀ : Db} {now : Timestamp} {s : StepRun}
    (hs : s.attempts = (db₀.steps s.run s.step).attempts.entries)
    (h : db.steps s.run s.step = db₀.steps s.run s.step ∨
      db.steps s.run s.step = claimedRec now (db₀.steps s.run s.step)) :
    (launchClaimed now db s).steps s.run s.step = claimedRec now (db₀.steps s.run s.step) ∧
    ∀ run step, ¬(run = s.run ∧ step = s.step) →
      (launchClaimed now db s).steps run step = db.steps run step := by
  refine ⟨?_, fun run step hne => ?_⟩
  · simp only [launchClaimed, mintLaunch, enqueueAll_steps, journal, steps_setStep]
    rcases h with h | h
    · rw [h, hs]
      rfl
    · have hid : (⟨s.attempts.length + 1⟩ : AttemptId) ≠
          (claimedRec now (db₀.steps s.run s.step)).attempts.next := by
        rw [hs]
        simp [claimedRec, Attempts.next, Attempts.record]
      rw [h, Attempts.record_of_ne hid]
      rfl
  · simp only [launchClaimed, mintLaunch, enqueueAll_steps, journal]
    exact steps_setStep_of_ne hne

theorem foldl_launchClaimed_steps {db₀ : Db} {now : Timestamp} {claimed : List StepRun}
    (hs : ∀ s ∈ claimed, s.attempts = (db₀.steps s.run s.step).attempts.entries)
    (h : ∀ run step, db.steps run step = db₀.steps run step ∨
      db.steps run step = claimedRec now (db₀.steps run step)) (run : RunId) (step : StepId) :
    let db' := claimed.foldl (launchClaimed now) db
    (db'.steps run step = db.steps run step ∧ (∀ s ∈ claimed, ¬(s.run = run ∧ s.step = step))) ∨
      (db'.steps run step = claimedRec now (db₀.steps run step) ∧
        ∃ s ∈ claimed, s.run = run ∧ s.step = step) := by
  induction claimed generalizing db with
  | nil => simp
  | cons s claimed ih =>
    obtain ⟨hown, hother⟩ := launchClaimed_steps (hs s (by simp)) (h s.run s.step)
    have hnext : ∀ run step, (launchClaimed now db s).steps run step = db₀.steps run step ∨
        (launchClaimed now db s).steps run step = claimedRec now (db₀.steps run step) := by
      intro run step
      by_cases hk : run = s.run ∧ step = s.step
      · obtain ⟨rfl, rfl⟩ := hk
        exact .inr hown
      · rw [hother run step hk]
        exact h run step
    have ih' := ih (fun x hx => hs x (List.mem_cons_of_mem _ hx)) hnext
    simp only [List.foldl_cons]
    rcases ih' with ⟨heq, hnone⟩ | ⟨heq, x, hx, hk⟩
    · by_cases hk : s.run = run ∧ s.step = step
      · obtain ⟨rfl, rfl⟩ := hk
        exact .inr ⟨heq.trans hown, s, by simp, rfl, rfl⟩
      · have hk' : ¬(run = s.run ∧ step = s.step) := fun hc => hk ⟨hc.1.symm, hc.2.symm⟩
        refine .inl ⟨heq.trans (hother run step hk'), fun x hx => ?_⟩
        rcases List.mem_cons.mp hx with rfl | hx
        · exact hk
        · exact hnone x hx
    · exact .inr ⟨heq, x, List.mem_cons_of_mem _ hx, hk⟩

/-- Claiming moves Ready steps to Running on a fresh Attempt, and nothing else. -/
theorem claim_steps (db : Db) (limit : ℕ) (now : Timestamp) (run : RunId) (step : StepId) :
    let db' := (db.claimable limit).foldl (launchClaimed now) db
    db'.steps run step = db.steps run step ∨
      db'.steps run step = claimedRec now (db.steps run step) ∧
        (db.steps run step).status = .ready ∧ run ∈ db.runIds ∧ step ∈ db.stepIds run ∧
        { db.stepRun run step with status := .running } ∈ db.claimable limit := by
  have hs : ∀ s ∈ db.claimable limit, s.attempts = (db.steps s.run s.step).attempts.entries := by
    intro s hs
    rw [(mem_claimable hs).1]
    rfl
  rcases foldl_launchClaimed_steps hs (fun run step => .inl rfl) run step with h | h
  · exact .inl h.1
  · obtain ⟨heq, s, hmem, rfl, rfl⟩ := h
    obtain ⟨hs, hrun, hstep, hst⟩ := mem_claimable hmem
    exact .inr ⟨heq, hst, hrun, hstep, hs ▸ hmem⟩

end Db

/-- The ways a transaction rewrites the row of one step. -/
inductive StepEffect (db : Db) (run : RunId) (step : StepId) : Tx → StepRec → Prop
  | moved (t : StepTransition) (hrun : t.run = run) (hstep : t.step = step)
      (from_ : (db.steps run step).status = t.from_)
      (frontier : ∀ x, t.frontier = .is x → (db.steps run step).attempts.frontier = x) :
      StepEffect db run step (.commitStepTransition t) { db.steps run step with
        status := t.to_, attempts := (db.steps run step).attempts.stamp? t.stamp }
  | promoted (leader : LeaderTerm) (signature : Text) (events : List Event)
      (pending : (db.steps run step).status = .pending) :
      StepEffect db run step (.promoteStep leader run step signature events)
        { db.steps run step with status := .ready, input := some signature }
  | claimed (leader : LeaderTerm) (limit : ℕ) (now : Timestamp)
      (ready : (db.steps run step).status = .ready)
      (listed : { db.stepRun run step with status := .running } ∈ db.claimable limit) :
      StepEffect db run step (.claimReadySteps leader limit now)
        (Db.claimedRec now (db.steps run step))
  | waitOpened (leader : LeaderTerm) (startedAt at_ : Timestamp)
      (pending : (db.steps run step).status = .pending)
      (closed : (db.steps run step).attempts.running? = none) :
      StepEffect db run step (.openGateWait leader run step startedAt at_) { db.steps run step with
        attempts := (db.steps run step).attempts.record
          ⟨(db.steps run step).attempts.next, min startedAt at_, none, none, .running⟩ }
  | resolved (res : GateResolution) (attempt : AttemptId) (minted : Bool) (attempts : Attempts)
      (pending : (db.steps run step).status = .pending)
      (wait : Db.closeWait (db.steps run step).attempts res = some (attempt, minted, attempts)) :
      StepEffect db run step (.resolveGateWait run step res)
        (Db.resolvedRec (db.steps run step) res attempt attempts)
  | closed (attempt : AttemptId) (outcome : AttemptOutcome) (event : Option Event)
      (running : (db.steps run step).attempts.outcome? attempt = some .running) :
      StepEffect db run step (.closeRunningAttempt run step attempt outcome event)
        { db.steps run step with
          attempts := (db.steps run step).attempts.update attempt fun a =>
            { a with outcome := outcome } }
  | signed (signature : Option Text) :
      StepEffect db run step (.setStepInput run step signature)
        { db.steps run step with input := signature }
  | output (attempt : AttemptId) (output : Text) (identity : Option Text) :
      StepEffect db run step (.setStepOutput run step attempt output identity)
        { db.steps run step with
          output := some output, outputIdentity := identity, evidenceAttempt := some attempt }
  | results (attempt : AttemptId) (results : Results) :
      StepEffect db run step (.setStepResults run step attempt results)
        { db.steps run step with results := results, evidenceAttempt := some attempt }
  | ingested (attempt : AttemptId) (results : Results)
      (running : (db.steps run step).status = .running)
      (latest : (db.steps run step).attempts.frontier = some attempt) :
      StepEffect db run step (.ingestAttemptResults run step attempt results)
        { db.steps run step with results := results, evidenceAttempt := some attempt }
  | failed (attempt : AttemptId) (kind : FailureKind) (detail : Option String) :
      StepEffect db run step (.setAttemptFailure run step attempt kind detail)
        { db.steps run step with
          attempts := (db.steps run step).attempts.stamp attempt (.failure kind detail) }

/-- The transaction rewrites the row of a step the run has. -/
def Rewrites (db : Db) (t : Tx) (run : RunId) (step : StepId) (r : StepRec) : Prop :=
  step ∈ db.stepIds run ∧ StepEffect db run step t r

/-- A transaction that rewrites one row leaves the others alone. -/
theorem steps_of_setStep {d d' : Db} {run run' : RunId} {step step' : StepId} {r : StepRec}
    {P : StepRec → Prop} (hd : d'.steps = (d.setStep run step r).steps)
    (hP : run' = run → step' = step → P r) :
    d'.steps run' step' = d.steps run' step' ∨ P (d'.steps run' step') := by
  rw [hd]
  by_cases hk : run' = run ∧ step' = step
  · obtain ⟨rfl, rfl⟩ := hk
    exact .inr (by simpa using hP rfl rfl)
  · exact .inl (Db.steps_setStep_of_ne hk)

theorem Tx.done_eq_ok {x : Except DbError Db} {a : Unit} {db : Db} (h : done x = .ok (a, db)) :
    x = .ok db := by
  cases x with
  | error e => simp [done, Except.map] at h
  | ok db' =>
    obtain ⟨-, rfl⟩ : () = a ∧ db' = db := by simpa [done, Except.map] using h
    rfl

theorem Tx.done_eq_error {x : Except DbError Db} {e : DbError} (h : done x = .error e) :
    x = .error e := by
  cases x with
  | error e' => simpa [done, Except.map] using h
  | ok db => simp [done, Except.map] at h

section exec

variable {w : Answer} {db db' : Db}

theorem AttemptFrontier.misses_eq_false {f : AttemptFrontier} {latest : Option AttemptId} :
    f.misses latest = false ↔ ∀ x, f = .is x → latest = x := by
  cases f <;> simp [AttemptFrontier.misses]

theorem Db.commitStepTransition_ok {t : StepTransition}
    (h : db.commitStepTransition t = .ok db') :
    t.step ∈ db.stepIds t.run ∧ (db.steps t.run t.step).status = t.from_ ∧
      (∀ x, t.frontier = .is x → (db.steps t.run t.step).attempts.frontier = x) ∧
      db' = (((db.setStep t.run t.step { db.steps t.run t.step with
        status := t.to_
        attempts := (db.steps t.run t.step).attempts.stamp? t.stamp }).journal
          t.events).enqueueAll t.outbox) := by
  simp only [Db.commitStepTransition] at h
  split at h
  · cases h
  · next h1 =>
    split at h
    · cases h
    · next h2 =>
      push Not at h1
      exact ⟨h1.1, h1.2, AttemptFrontier.misses_eq_false.mp (by simpa using h2),
        (Except.ok.inj h).symm⟩

/-- A step transition is refused exactly when its guard no longer holds. -/
theorem Db.commitStepTransition_error {t : StepTransition} {e : DbError}
    (h : db.commitStepTransition t = .error e) :
    t.step ∉ db.stepIds t.run ∨ (db.steps t.run t.step).status ≠ t.from_ ∨
      ∃ x, t.frontier = .is x ∧ (db.steps t.run t.step).attempts.frontier ≠ x := by
  simp only [Db.commitStepTransition] at h
  split at h
  · next h1 =>
    rcases h1 with h1 | h1
    · exact .inl h1
    · exact .inr (.inl h1)
  · split at h
    · next h2 =>
      refine .inr (.inr ?_)
      cases hf : t.frontier with
      | any => simp [hf, AttemptFrontier.misses] at h2
      | is x => exact ⟨x, rfl, by simpa [hf, AttemptFrontier.misses] using h2⟩
    · cases h

theorem Db.commitRunTransition_ok {t : RunTransition} (h : db.commitRunTransition t = .ok db') :
    t.run ∈ db.runIds ∧ db.runs t.run = t.from_ ∧ db.generations t.run = t.generation ∧
      db' = ({ db with
        runs := Function.update db.runs t.run t.to_
        generations := Function.update db.generations t.run
          (db.generations t.run + if t.from_.isTerminal then 1 else 0) }.journal
            t.events).enqueueAll t.outbox := by
  simp only [Db.commitRunTransition] at h
  split at h
  · cases h
  · split at h
    · cases h
    · next h2 =>
      push Not at h2
      exact ⟨h2.1, h2.2.1, h2.2.2, (Except.ok.inj h).symm⟩

/-- A run transition loses its compare-and-set when its guard no longer holds. -/
theorem Db.commitRunTransition_conflict {t : RunTransition}
    (h : db.commitRunTransition t = .error .conflict) :
    t.run ∉ db.runIds ∨ db.runs t.run ≠ t.from_ ∨ db.generations t.run ≠ t.generation := by
  simp only [Db.commitRunTransition] at h
  split at h
  · cases h
  · split at h
    · next hno => exact hno
    · cases h

theorem Db.promoteStep_ok {leader : LeaderTerm} {run : RunId} {step : StepId} {signature : Text}
    {events : List Event} (h : db.promoteStep leader run step signature events = .ok db') :
    step ∈ db.stepIds run ∧ (db.steps run step).status = .pending ∧
      db' = (db.setStep run step
        { db.steps run step with status := .ready, input := some signature }).journal events := by
  simp only [Db.promoteStep] at h
  split at h
  · cases h
  · split at h
    · cases h
    · next h2 =>
      push Not at h2
      exact ⟨h2.1, h2.2, (Except.ok.inj h).symm⟩

theorem Db.claimReadySteps_ok {leader : LeaderTerm} {limit : ℕ} {now : Timestamp}
    {claimed : List StepRun} (h : db.claimReadySteps leader limit now = .ok (claimed, db')) :
    claimed = db.claimable limit ∧
      db' = (db.claimable limit).foldl (Db.launchClaimed now) db := by
  simp only [Db.claimReadySteps] at h
  split at h
  · cases h
  · obtain ⟨h1, h2⟩ := Prod.mk.inj (Except.ok.inj h)
    exact ⟨h1.symm, h2.symm⟩

/-- A run gets a slot that is free, its own, or left by a run that has ended. -/
theorem Db.acquireSlot_ok {leader : LeaderTerm} {group : Text} {run : RunId}
    {holder : Option RunId} (h : db.acquireSlot leader group run = .ok (holder, db')) :
    (holder = none ∧ db'.slots = Function.update db.slots group (some run) ∧
      ∀ r, db.slots group = some r → r = run ∨ (db.runStatus r).all (·.isTerminal) = true) ∨
      (holder ≠ none ∧ db' = db) := by
  simp only [Db.acquireSlot] at h
  split at h
  · cases h
  · split at h
    · next hnone =>
      obtain ⟨rfl, rfl⟩ := Prod.mk.inj (Except.ok.inj h)
      exact .inl ⟨rfl, rfl, by simp [hnone]⟩
    · next held hheld =>
      split at h
      · next hown =>
        obtain ⟨rfl, rfl⟩ := Prod.mk.inj (Except.ok.inj h)
        subst hown
        refine .inl ⟨rfl, ?_, fun r hr => .inl (Option.some.inj (hr.symm.trans hheld))⟩
        rw [← hheld, Function.update_eq_self]
      · split at h
        · next hended =>
          obtain ⟨rfl, rfl⟩ := Prod.mk.inj (Except.ok.inj h)
          refine .inl ⟨rfl, rfl, fun r hr => .inr ?_⟩
          rwa [Option.some.inj (hr.symm.trans hheld)]
        · obtain ⟨rfl, rfl⟩ := Prod.mk.inj (Except.ok.inj h)
          exact .inr ⟨by simp, rfl⟩

theorem Db.openGateWait_ok {leader : LeaderTerm} {run : RunId} {step : StepId}
    {startedAt at_ : Timestamp} {a : Option Attempt}
    (h : db.openGateWait leader run step startedAt at_ = .ok (a, db')) :
    db' = db ∧ (∀ x, a = some x → (db.steps run step).attempts.running? = some x) ∧
        ¬(step ∈ db.stepIds run ∧ (db.steps run step).status = .pending ∧
          (db.steps run step).attempts.running? = none) ∨
      step ∈ db.stepIds run ∧ (db.steps run step).status = .pending ∧
        (db.steps run step).attempts.running? = none ∧
        ∃ x : Attempt, a = some x ∧
          x = ⟨(db.steps run step).attempts.next, min startedAt at_, none, none, .running⟩ ∧
          db' = (db.setStep run step { db.steps run step with
            attempts := (db.steps run step).attempts.record x }).journal
              [⟨run, .attemptStarted step x.id, at_⟩] := by
  simp only [Db.openGateWait] at h
  split at h
  · cases h
  · split at h
    · next h1 =>
      obtain ⟨rfl, rfl⟩ := Prod.mk.inj (Except.ok.inj h)
      exact .inl ⟨rfl, by simp, fun hc => h1 hc.1⟩
    · next h1 =>
      split at h
      · next h2 =>
        obtain ⟨rfl, rfl⟩ := Prod.mk.inj (Except.ok.inj h)
        exact .inl ⟨rfl, by simp, fun hc => h2 hc.2.1⟩
      · next h2 =>
        split at h
        · next x hx =>
          obtain ⟨rfl, rfl⟩ := Prod.mk.inj (Except.ok.inj h)
          exact .inl ⟨rfl, by simpa using hx, by simp [hx]⟩
        · next hx =>
          obtain ⟨rfl, rfl⟩ := Prod.mk.inj (Except.ok.inj h)
          exact .inr ⟨not_not.mp h1, not_not.mp h2, hx, _, rfl, rfl, rfl⟩

/-- A gate resolution that finds no wait changes nothing; one that does closes it. -/
theorem Db.resolveGateWait_cases (db : Db) (run : RunId) (step : StepId) (res : GateResolution) :
    db.resolveGateWait run step res = (none, db) ∨
      ∃ attempt minted attempts, step ∈ db.stepIds run ∧
        (db.steps run step).status = .pending ∧
        Db.closeWait (db.steps run step).attempts res = some (attempt, minted, attempts) ∧
        db.resolveGateWait run step res = (some attempt,
          (((db.setStep run step (resolvedRec (db.steps run step) res attempt attempts)).keepGateOutputs
            run step attempt res.stored).journal
              ((gateResolutionEvents step attempt minted res).map fun k => ⟨run, k, res.at_⟩))) := by
  by_cases h1 : step ∈ db.stepIds run ∧ (db.steps run step).status = .pending
  · cases hw : Db.closeWait (db.steps run step).attempts res with
    | none => exact .inl (by simp [Db.resolveGateWait, h1, hw])
    | some x =>
      obtain ⟨attempt, minted, attempts⟩ := x
      exact .inr ⟨attempt, minted, attempts, h1.1, h1.2, rfl, by simp [Db.resolveGateWait, h1, hw]⟩
  · refine .inl (if_pos ?_)
    by_contra hc
    push Not at hc
    exact h1 hc

theorem Db.closeRunningAttempt_cases (db : Db) (run : RunId) (step : StepId)
    (attempt : AttemptId) (outcome : AttemptOutcome) (event : Option Event) :
    db.closeRunningAttempt run step attempt outcome event = (false, db) ∧
        (step ∈ db.stepIds run → (db.steps run step).attempts.outcome? attempt ≠ some .running) ∨
      step ∈ db.stepIds run ∧ (db.steps run step).attempts.outcome? attempt = some .running ∧
        db.closeRunningAttempt run step attempt outcome event =
          (true, (db.setStep run step { db.steps run step with
            attempts := (db.steps run step).attempts.update attempt fun a =>
              { a with outcome := outcome } }).journal event.toList) := by
  by_cases h1 : step ∈ db.stepIds run ∧
      (db.steps run step).attempts.outcome? attempt = some .running
  · exact .inr ⟨h1.1, h1.2, if_pos h1⟩
  · exact .inl ⟨if_neg h1, fun hs hr => h1 ⟨hs, hr⟩⟩

@[simp] theorem Db.keepGateOutputs_steps (db : Db) (run : RunId) (step : StepId)
    (attempt : AttemptId) (outputs : Option Results) :
    (db.keepGateOutputs run step attempt outputs).steps = db.steps := by
  cases outputs <;> rfl

theorem Db.setStepOutput_ok {run : RunId} {step : StepId} {attempt : AttemptId} {output : Text}
    {identity : Option Text} (h : db.setStepOutput run step attempt output identity = .ok db') :
    step ∈ db.stepIds run ∧
      db' = (db.setStep run step { db.steps run step with
        output := some output, outputIdentity := identity,
        evidenceAttempt := some attempt }).setEvidence run step attempt
          fun e => { e with output := some output } := by
  simp only [Db.setStepOutput] at h
  split at h
  · next hmem => exact ⟨hmem, (Except.ok.inj h).symm⟩
  · cases h

theorem Db.setStepResults_ok {run : RunId} {step : StepId} {attempt : AttemptId}
    {results : Results} (h : db.setStepResults run step attempt results = .ok db') :
    step ∈ db.stepIds run ∧ db' = db.storeResults run step attempt results := by
  simp only [Db.setStepResults] at h
  split at h
  · next hmem => exact ⟨hmem, (Except.ok.inj h).symm⟩
  · cases h

theorem Db.ingestAttemptResults_ok {run : RunId} {step : StepId} {attempt : AttemptId}
    {results : Results} (h : db.ingestAttemptResults run step attempt results = .ok db') :
    step ∈ db.stepIds run ∧ (db.steps run step).status = .running ∧
      (db.steps run step).attempts.frontier = some attempt ∧
      db' = db.storeResults run step attempt results := by
  simp only [Db.ingestAttemptResults] at h
  split at h
  · next hfence => exact ⟨hfence.1, hfence.2.1, hfence.2.2, (Except.ok.inj h).symm⟩
  · cases h

theorem Db.setGateWaitInputs_ok {leader : LeaderTerm} {run : RunId} {step : StepId}
    {attempt : AttemptId} {inputs : Text} {set : Bool}
    (h : db.setGateWaitInputs leader run step attempt inputs = .ok (set, db')) :
    ∃ gateInputs, db' = { db with gateInputs := gateInputs } := by
  simp only [Db.setGateWaitInputs] at h
  split at h
  · cases h
  · split at h
    · exact ⟨_, (Prod.mk.inj (Except.ok.inj h)).2.symm⟩
    · exact ⟨db.gateInputs, (Prod.mk.inj (Except.ok.inj h)).2.symm⟩

/-- Whoever gets it, taking a slot writes the slots and nothing else. -/
theorem Db.acquireSlot_slots {leader : LeaderTerm} {group : Text} {run : RunId}
    {holder : Option RunId} (h : db.acquireSlot leader group run = .ok (holder, db')) :
    ∃ slots, db' = { db with slots := slots } := by
  simp only [Db.acquireSlot] at h
  split at h
  · cases h
  · split at h
    · exact ⟨_, (Prod.mk.inj (Except.ok.inj h)).2.symm⟩
    · split at h
      · exact ⟨db.slots, (Prod.mk.inj (Except.ok.inj h)).2.symm⟩
      · split at h
        · exact ⟨_, (Prod.mk.inj (Except.ok.inj h)).2.symm⟩
        · exact ⟨db.slots, (Prod.mk.inj (Except.ok.inj h)).2.symm⟩

theorem Db.releaseSlot_slots (db : Db) (group : Text) (run : RunId) :
    ∃ slots, db.releaseSlot group run = { db with slots := slots } := by
  simp only [Db.releaseSlot]
  split
  · exact ⟨_, rfl⟩
  · exact ⟨db.slots, rfl⟩

theorem Db.createRunService_ok {leader : Option LeaderTerm} {run : RunId} {take : ℤ}
    {name : Text} {at_ : Timestamp}
    (h : db.createRunService leader run take name at_ = .ok db') :
    ∃ services, db' = { db with services := services } := by
  simp only [Db.createRunService] at h
  split at h
  · cases h
  · split at h
    · exact ⟨db.services, (Except.ok.inj h).symm⟩
    · exact ⟨_, (Except.ok.inj h).symm⟩

theorem Db.setRunService_ok {leader : Option LeaderTerm} {run : RunId} {take : ℤ} {name : Text}
    {status : ServiceStatus} {handle : Option Text}
    (h : db.setRunService leader run take name status handle = .ok db') :
    ∃ services, db' = { db with services := services } := by
  simp only [Db.setRunService] at h
  split at h
  · cases h
  · exact ⟨_, (Except.ok.inj h).symm⟩

theorem Db.leaseFor_lease (db : Db) (owner : Text) (expired : Bool) :
    ∃ lease, (db.leaseFor owner expired).2 = { db with lease := lease } := by
  simp only [Db.leaseFor]
  split
  · exact ⟨_, rfl⟩
  · split
    · exact ⟨db.lease, rfl⟩
    · split
      · exact ⟨_, rfl⟩
      · exact ⟨db.lease, rfl⟩

section rewrites

variable {run : RunId} {step : StepId}

theorem Db.claimReadySteps_rewrites {leader : LeaderTerm} {limit : ℕ} {now : Timestamp}
    {claimed : List StepRun} (h : db.claimReadySteps leader limit now = .ok (claimed, db')) :
    db'.steps run step = db.steps run step ∨
      Rewrites db (.claimReadySteps leader limit now) run step (db'.steps run step) := by
  obtain ⟨-, rfl⟩ := Db.claimReadySteps_ok h
  rcases db.claim_steps limit now run step with h' | ⟨h', hst, -, hmem, hlist⟩
  · exact .inl h'
  · rw [h']
    exact .inr ⟨hmem, .claimed leader limit now hst hlist⟩

theorem Db.openGateWait_rewrites {leader : LeaderTerm} {run' : RunId} {step' : StepId}
    {startedAt at_ : Timestamp} {a : Option Attempt}
    (h : db.openGateWait leader run' step' startedAt at_ = .ok (a, db')) :
    db'.steps run step = db.steps run step ∨
      Rewrites db (.openGateWait leader run' step' startedAt at_) run step
        (db'.steps run step) := by
  rcases Db.openGateWait_ok h with ⟨rfl, -⟩ | ⟨hmem, hst, hopen, x, -, rfl, rfl⟩
  · exact .inl rfl
  · refine steps_of_setStep (P := Rewrites db _ run step) rfl ?_
    rintro rfl rfl
    exact ⟨hmem, .waitOpened leader startedAt at_ hst hopen⟩

theorem Db.resolveGateWait_rewrites (db : Db) (run' : RunId) (step' : StepId)
    (res : GateResolution) :
    (db.resolveGateWait run' step' res).2.steps run step = db.steps run step ∨
      Rewrites db (.resolveGateWait run' step' res) run step
        ((db.resolveGateWait run' step' res).2.steps run step) := by
  rcases db.resolveGateWait_cases run' step' res with h | ⟨x, m, xs, hmem, hst, hw, h⟩
  · exact .inl (by rw [h])
  · rw [h]
    refine steps_of_setStep (P := Rewrites db _ run step)
      (by rw [Db.journal, Db.keepGateOutputs_steps]) ?_
    rintro rfl rfl
    exact ⟨hmem, .resolved res x m xs hst hw⟩

theorem Db.closeRunningAttempt_rewrites (db : Db) (run' : RunId) (step' : StepId)
    (attempt : AttemptId) (outcome : AttemptOutcome) (event : Option Event) :
    (db.closeRunningAttempt run' step' attempt outcome event).2.steps run step =
        db.steps run step ∨
      Rewrites db (.closeRunningAttempt run' step' attempt outcome event) run step
        ((db.closeRunningAttempt run' step' attempt outcome event).2.steps run step) := by
  rcases db.closeRunningAttempt_cases run' step' attempt outcome event with
    ⟨h, -⟩ | ⟨hmem, hr, h⟩
  · exact .inl (by rw [h])
  · rw [h]
    refine steps_of_setStep (P := Rewrites db _ run step) rfl ?_
    rintro rfl rfl
    exact ⟨hmem, .closed attempt outcome event hr⟩

theorem Db.setStepInput_rewrites (db : Db) (run' : RunId) (step' : StepId)
    (signature : Option Text) :
    (db.setStepInput run' step' signature).steps run step = db.steps run step ∨
      Rewrites db (.setStepInput run' step' signature) run step
        ((db.setStepInput run' step' signature).steps run step) := by
  simp only [Db.setStepInput]
  split
  · next hmem =>
    refine steps_of_setStep (P := Rewrites db _ run step) rfl ?_
    rintro rfl rfl
    exact ⟨hmem, .signed signature⟩
  · exact .inl rfl

theorem Db.stampAttempt_rewrites (db : Db) (run' : RunId) (step' : StepId) (attempt : AttemptId)
    (kind : FailureKind) (detail : Option String) :
    (db.stampAttempt run' step' attempt (.failure kind detail)).steps run step =
        db.steps run step ∨
      Rewrites db (.setAttemptFailure run' step' attempt kind detail) run step
        ((db.stampAttempt run' step' attempt (.failure kind detail)).steps run step) := by
  simp only [Db.stampAttempt]
  split
  · next hmem =>
    refine steps_of_setStep (P := Rewrites db _ run step) rfl ?_
    rintro rfl rfl
    exact ⟨hmem, .failed attempt kind detail⟩
  · exact .inl rfl

end rewrites

/-- Every transaction's effect on the row of a step. -/
theorem Tx.exec_steps {t : Tx} {a : t.Ans} (h : t.exec w db = .ok (a, db')) (run : RunId)
    (step : StepId) :
    db'.steps run step = db.steps run step ∨ Rewrites db t run step (db'.steps run step) := by
  cases t with
  | commitStepTransition t =>
    obtain ⟨hmem, hfrom, hfront, rfl⟩ := Db.commitStepTransition_ok (Tx.done_eq_ok h)
    rw [Db.enqueueAll_steps]
    refine steps_of_setStep (P := Rewrites db _ run step) rfl ?_
    rintro rfl rfl
    exact ⟨hmem, .moved t rfl rfl hfrom hfront⟩
  | commitRunTransition t =>
    obtain ⟨-, -, -, rfl⟩ := Db.commitRunTransition_ok (Tx.done_eq_ok h)
    exact .inl (by simp [Db.journal])
  | promoteStep leader run' step' signature events =>
    obtain ⟨hmem, hst, rfl⟩ := Db.promoteStep_ok (Tx.done_eq_ok h)
    refine steps_of_setStep (P := Rewrites db _ run step) rfl ?_
    rintro rfl rfl
    exact ⟨hmem, .promoted leader signature events hst⟩
  | claimReadySteps => exact Db.claimReadySteps_rewrites h
  | openGateWait => exact Db.openGateWait_rewrites h
  | resolveGateWait run' step' res =>
    obtain rfl := (Prod.mk.inj (Except.ok.inj h)).2
    exact db.resolveGateWait_rewrites run' step' res
  | closeRunningAttempt run' step' attempt outcome event =>
    obtain rfl := (Prod.mk.inj (Except.ok.inj h)).2
    exact db.closeRunningAttempt_rewrites run' step' attempt outcome event
  | setStepInput run' step' signature =>
    obtain rfl := Except.ok.inj (Tx.done_eq_ok h)
    exact db.setStepInput_rewrites run' step' signature
  | setAttemptFailure run' step' attempt kind detail =>
    obtain rfl := Except.ok.inj (Tx.done_eq_ok h)
    exact db.stampAttempt_rewrites run' step' attempt kind detail
  | setStepOutput run' step' attempt output identity =>
    obtain ⟨hmem, rfl⟩ := Db.setStepOutput_ok (Tx.done_eq_ok h)
    refine steps_of_setStep (P := Rewrites db _ run step) rfl ?_
    rintro rfl rfl
    exact ⟨hmem, .output attempt output identity⟩
  | setStepResults run' step' attempt results =>
    obtain ⟨hmem, rfl⟩ := Db.setStepResults_ok (Tx.done_eq_ok h)
    refine steps_of_setStep (P := Rewrites db _ run step) rfl ?_
    rintro rfl rfl
    exact ⟨hmem, .results attempt results⟩
  | ingestAttemptResults run' step' attempt results =>
    obtain ⟨hmem, hst, hlatest, rfl⟩ := Db.ingestAttemptResults_ok (Tx.done_eq_ok h)
    refine steps_of_setStep (P := Rewrites db _ run step) rfl ?_
    rintro rfl rfl
    exact ⟨hmem, .ingested attempt results hst hlatest⟩
  | setGateWaitInputs =>
    obtain ⟨_, rfl⟩ := Db.setGateWaitInputs_ok h
    exact .inl rfl
  | acquireSlot =>
    obtain ⟨_, rfl⟩ := Db.acquireSlot_slots h
    exact .inl rfl
  | releaseSlot group run' =>
    obtain ⟨_, hslots⟩ := db.releaseSlot_slots group run'
    obtain rfl := Except.ok.inj (Tx.done_eq_ok h)
    exact .inl (by rw [hslots])
  | createRunService =>
    obtain ⟨_, rfl⟩ := Db.createRunService_ok (Tx.done_eq_ok h)
    exact .inl rfl
  | setRunService =>
    obtain ⟨_, rfl⟩ := Db.setRunService_ok (Tx.done_eq_ok h)
    exact .inl rfl
  | lease owner =>
    obtain ⟨_, hlease⟩ := db.leaseFor_lease owner w.expired
    obtain rfl := (Prod.mk.inj (Except.ok.inj h)).2.symm.trans hlease
    exact .inl rfl
  | appendEvent | setAttemptHandle | setAttemptConsumed | setAttemptWorkspaceInputSteps
  | putArtifacts | enqueueOutbox | markDispatched | deadLetterOutbox =>
    obtain rfl := Except.ok.inj (Tx.done_eq_ok h)
    exact .inl rfl
  | claimOutbox | renewOutboxClaim | recordOutboxFailure =>
    obtain ⟨-, rfl⟩ := Prod.mk.inj (Except.ok.inj h)
    exact .inl rfl

end exec

/-- The events a transaction journals. -/
def Tx.newEvents (db : Db) : Tx → List Event
  | .appendEvent event => [event]
  | .commitStepTransition t => t.events
  | .commitRunTransition t => t.events
  | .promoteStep _ _ _ _ events => events
  | .claimReadySteps _ limit now =>
      (db.claimable limit).flatMap fun s => (Db.mintLaunch now s).2.1
  | .openGateWait _ run step _ at_ =>
      if step ∈ db.stepIds run ∧ (db.steps run step).status = .pending ∧
          (db.steps run step).attempts.running? = none then
        [⟨run, .attemptStarted step (db.steps run step).attempts.next, at_⟩]
      else []
  | .resolveGateWait run step res =>
      if step ∈ db.stepIds run ∧ (db.steps run step).status = .pending then
        match Db.closeWait (db.steps run step).attempts res with
        | none => []
        | some (attempt, minted, _) =>
            (gateResolutionEvents step attempt minted res).map fun k => ⟨run, k, res.at_⟩
      else []
  | .closeRunningAttempt run step attempt _ event =>
      if step ∈ db.stepIds run ∧ (db.steps run step).attempts.outcome? attempt = some .running then
        event.toList
      else []
  | _ => []

/-- The messages a transaction puts in the outbox, in order. -/
def Tx.newMessages (db : Db) : Tx → List OutboxMessage
  | .commitStepTransition t => t.outbox
  | .commitRunTransition t => t.outbox
  | .enqueueOutbox msg => [msg]
  | .claimReadySteps _ limit now =>
      (db.claimable limit).flatMap fun s => (Db.mintLaunch now s).2.2
  | _ => []

def Tx.isRunMove : Tx → Bool
  | .commitRunTransition _ => true
  | _ => false

def Tx.isSlotMove : Tx → Bool
  | .acquireSlot _ _ _ | .releaseSlot _ _ => true
  | _ => false

/-- The transactions that only change how outbox rows are delivered. -/
def Tx.isDelivery : Tx → Bool
  | .claimOutbox _ _ _ | .markDispatched _ | .recordOutboxFailure _ | .deadLetterOutbox _ => true
  | _ => false

/-- What a transaction leaves alone, and what it appends. -/
structure Tx.Frame (t : Tx) (db db' : Db) : Prop where
  runIds : db'.runIds = db.runIds
  stepIds : db'.stepIds = db.stepIds
  creating : db'.creating = db.creating
  concurrency : db'.concurrency = db.concurrency
  irs : db'.irs = db.irs
  runs : t.isRunMove = false → db'.runs = db.runs ∧ db'.generations = db.generations
  slots : t.isSlotMove = false → db'.slots = db.slots
  events : db'.events = db.events ++ t.newEvents db
  outbox : t.isDelivery = false →
    db'.outbox = (t.newMessages db).foldl Outbox.enqueue db.outbox
  handles : ∀ run step attempt, db'.handles run step attempt = db.handles run step attempt ∨
    ∃ handle, t = .setAttemptHandle run step attempt handle ∧
      db'.handles run step attempt = some handle
  outputs : ∀ run step attempt,
    (db'.evidence run step attempt).output = (db.evidence run step attempt).output ∨
      ∃ output identity, t = .setStepOutput run step attempt output identity ∧
        (db'.evidence run step attempt).output = some output

section frame

variable {w : Answer} {db db' : Db}

theorem Db.setCell_cases {α : Type} (table : RunId → StepId → AttemptId → α) (run run' : RunId)
    (step step' : StepId) (a a' : AttemptId) (v : α) :
    Db.setCell table run step a v run' step' a' = table run' step' a' ∨
      run' = run ∧ step' = step ∧ a' = a ∧ Db.setCell table run step a v run' step' a' = v := by
  by_cases hr : run' = run
  · subst hr
    by_cases hs : step' = step
    · subst hs
      by_cases ha : a' = a
      · subst ha
        exact .inr ⟨rfl, rfl, rfl, by simp [Db.setCell]⟩
      · exact .inl (by simp [Db.setCell, ha])
    · exact .inl (by simp [Db.setCell, hs])
  · exact .inl (by simp [Db.setCell, hr])

/-- Storing evidence that is no output keeps every output. -/
theorem Db.setEvidence_output {run run' : RunId} {step step' : StepId} {a a' : AttemptId}
    {f : AttemptEvidence → AttemptEvidence} (hf : ∀ e, (f e).output = e.output) :
    ((db.setEvidence run step a f).evidence run' step' a').output =
      (db.evidence run' step' a').output := by
  rcases Db.setCell_cases db.evidence run run' step step' a a' (f (db.evidence run step a)) with
    h | ⟨rfl, rfl, rfl, h⟩
  · exact congrArg AttemptEvidence.output h
  · exact (congrArg AttemptEvidence.output h).trans (hf _)

/-- Claiming only touches step rows, the journal and the outbox. -/
theorem Db.claim_frame (now : Timestamp) (claimed : List StepRun) (db : Db) :
    claimed.foldl (Db.launchClaimed now) db = { db with
      steps := (claimed.foldl (Db.launchClaimed now) db).steps
      events := db.events ++ claimed.flatMap fun s => (Db.mintLaunch now s).2.1
      outbox := (claimed.flatMap fun s => (Db.mintLaunch now s).2.2).foldl Outbox.enqueue
        db.outbox } := by
  induction claimed generalizing db with
  | nil => simp
  | cons s claimed ih =>
    rw [List.foldl_cons, ih]
    simp only [List.flatMap_cons, List.foldl_append, ← List.append_assoc]
    rfl

/-- A transaction that writes step rows, gate inputs, services or the lease, and journals and
queues nothing, keeps the rest. -/
theorem Tx.Frame.of_rows {t : Tx} {steps : RunId → StepId → StepRec}
    {gateInputs : RunId → StepId → AttemptId → Option Text} {services : RunId → List RunService}
    {lease : Option LeaderTerm} (hm : t.newMessages db = []) (he : t.newEvents db = []) :
    Tx.Frame t db { db with
      steps := steps, gateInputs := gateInputs, services := services, lease := lease } :=
  ⟨rfl, rfl, rfl, rfl, rfl, fun _ => ⟨rfl, rfl⟩, fun _ => rfl, by simp [he], fun _ => by simp [hm],
    fun _ _ _ => .inl rfl, fun _ _ _ => .inl rfl⟩

theorem Tx.Frame.of_eq {t : Tx} (hm : t.newMessages db = []) (he : t.newEvents db = []) :
    Tx.Frame t db db := Tx.Frame.of_rows hm he

/-- A transaction that only journals and writes step rows. -/
theorem Tx.Frame.of_journal {t : Tx} {steps : RunId → StepId → StepRec} {events : List Event}
    (hm : t.newMessages db = []) (he : t.newEvents db = events) :
    Tx.Frame t db ({ db with steps := steps }.journal events) :=
  ⟨rfl, rfl, rfl, rfl, rfl, fun _ => ⟨rfl, rfl⟩, fun _ => rfl, (by rw [he]; rfl),
    fun _ => (by rw [hm]; rfl), fun _ _ _ => .inl rfl, fun _ _ _ => .inl rfl⟩

/-- A transaction that stores evidence other than an output. -/
theorem Tx.Frame.of_evidence {t : Tx} {steps : RunId → StepId → StepRec} {run : RunId}
    {step : StepId} {attempt : AttemptId} {f : AttemptEvidence → AttemptEvidence}
    (hf : ∀ e, (f e).output = e.output) (hm : t.newMessages db = []) (he : t.newEvents db = []) :
    Tx.Frame t db ({ db with steps := steps }.setEvidence run step attempt f) :=
  ⟨rfl, rfl, rfl, rfl, rfl, fun _ => ⟨rfl, rfl⟩, fun _ => rfl, by simp [he, Db.setEvidence],
    fun _ => by simp [hm, Db.setEvidence], fun _ _ _ => .inl rfl,
    fun _ _ _ => .inl (Db.setEvidence_output hf)⟩

theorem Db.keepGateOutputs_frame {t : Tx} {steps : RunId → StepId → StepRec} {run : RunId}
    {step : StepId} {attempt : AttemptId} {outputs : Option Results} {events : List Event}
    (hm : t.newMessages db = []) (he : t.newEvents db = events) :
    Tx.Frame t db (({ db with steps := steps }.keepGateOutputs run step attempt outputs).journal
      events) := by
  cases outputs with
  | none => exact Tx.Frame.of_journal hm he
  | some out =>
    exact ⟨rfl, rfl, rfl, rfl, rfl, fun _ => ⟨rfl, rfl⟩, fun _ => rfl, (by rw [he]; rfl),
      fun _ => (by rw [hm]; rfl), fun _ _ _ => .inl rfl,
      fun run' step' a' => .inl (Db.setEvidence_output (f := fun e => { e with results := out })
        (fun _ => rfl))⟩

/-- A transaction that writes the slots. -/
theorem Tx.Frame.of_slots {t : Tx} {slots : Text → Option RunId} (ht : t.isSlotMove = true)
    (hm : t.newMessages db = []) (he : t.newEvents db = []) :
    Tx.Frame t db { db with slots := slots } :=
  ⟨rfl, rfl, rfl, rfl, rfl, fun _ => ⟨rfl, rfl⟩, (by simp [ht]), by simp [he],
    fun _ => by simp [hm], fun _ _ _ => .inl rfl, fun _ _ _ => .inl rfl⟩

/-- A transaction that changes how outbox rows are delivered. -/
theorem Tx.Frame.of_delivery {t : Tx} {outbox : Outbox} (ht : t.isDelivery = true)
    (he : t.newEvents db = []) : Tx.Frame t db { db with outbox := outbox } :=
  ⟨rfl, rfl, rfl, rfl, rfl, fun _ => ⟨rfl, rfl⟩, fun _ => rfl, by simp [he], (by simp [ht]),
    fun _ _ _ => .inl rfl, fun _ _ _ => .inl rfl⟩

theorem Db.resolveGateWait_frame (db : Db) (run : RunId) (step : StepId) (res : GateResolution) :
    Tx.Frame (.resolveGateWait run step res) db (db.resolveGateWait run step res).2 := by
  rcases db.resolveGateWait_cases run step res with h | ⟨x, m, xs, hmem, hst, hw, h⟩
  · rw [h]
    refine .of_eq rfl ?_
    simp only [Tx.newEvents]
    split
    · next hc =>
      cases hw : Db.closeWait (db.steps run step).attempts res with
      | none => rfl
      | some x => simp [Db.resolveGateWait, hc, hw] at h
    · rfl
  · rw [h]
    exact Db.keepGateOutputs_frame rfl (by simp [Tx.newEvents, hmem, hst, hw])

theorem Db.closeRunningAttempt_frame (db : Db) (run : RunId) (step : StepId)
    (attempt : AttemptId) (outcome : AttemptOutcome) (event : Option Event) :
    Tx.Frame (.closeRunningAttempt run step attempt outcome event) db
      (db.closeRunningAttempt run step attempt outcome event).2 := by
  rcases db.closeRunningAttempt_cases run step attempt outcome event with
    ⟨h, hr⟩ | ⟨hmem, hr, h⟩
  · rw [h]
    exact .of_eq rfl (if_neg fun hc => hr hc.1 hc.2)
  · rw [h]
    exact .of_journal rfl (if_pos ⟨hmem, hr⟩)

/-- An output is stored on the Attempt it came with, and on no other. -/
theorem Db.setStepOutput_frame {run : RunId} {step : StepId} {attempt : AttemptId} {output : Text}
    {identity : Option Text} (h : db.setStepOutput run step attempt output identity = .ok db') :
    Tx.Frame (.setStepOutput run step attempt output identity) db db' := by
  obtain ⟨-, rfl⟩ := Db.setStepOutput_ok h
  refine ⟨rfl, rfl, rfl, rfl, rfl, fun _ => ⟨rfl, rfl⟩, fun _ => rfl,
    by simp [Tx.newEvents, Db.setEvidence, Db.setStep], fun _ => rfl, fun _ _ _ => .inl rfl,
    fun run' step' a' => ?_⟩
  rcases Db.setCell_cases db.evidence run run' step step' attempt a'
    { db.evidence run step attempt with output := some output } with h | ⟨rfl, rfl, rfl, h⟩
  · exact .inl (congrArg AttemptEvidence.output h)
  · exact .inr ⟨output, identity, rfl, congrArg AttemptEvidence.output h⟩

theorem Db.setAttemptHandle_frame (db : Db) (run : RunId) (step : StepId) (attempt : AttemptId)
    (handle : Text) :
    Tx.Frame (.setAttemptHandle run step attempt handle) db
      { db with handles := Db.setCell db.handles run step attempt (some handle) } := by
  refine ⟨rfl, rfl, rfl, rfl, rfl, fun _ => ⟨rfl, rfl⟩, fun _ => rfl, by simp [Tx.newEvents],
    fun _ => rfl, fun run' step' a' => ?_, fun _ _ _ => .inl rfl⟩
  rcases Db.setCell_cases db.handles run run' step step' attempt a' (some handle) with
    h | ⟨rfl, rfl, rfl, h⟩
  · exact .inl h
  · exact .inr ⟨handle, rfl, h⟩

/-- Every transaction's effect on everything but the rows of the steps. -/
theorem Tx.exec_frame {t : Tx} {a : t.Ans} (h : t.exec w db = .ok (a, db')) :
    Tx.Frame t db db' := by
  cases t with
  | appendEvent event =>
    obtain rfl := Except.ok.inj (Tx.done_eq_ok h)
    exact .of_journal rfl rfl
  | commitStepTransition t =>
    obtain ⟨-, -, -, rfl⟩ := Db.commitStepTransition_ok (Tx.done_eq_ok h)
    rw [Db.enqueueAll_eq]
    exact ⟨rfl, rfl, rfl, rfl, rfl, fun _ => ⟨rfl, rfl⟩, fun _ => rfl, rfl,
      fun _ => Db.enqueueAll_outbox _ _, fun _ _ _ => .inl rfl, fun _ _ _ => .inl rfl⟩
  | commitRunTransition t =>
    obtain ⟨-, -, -, rfl⟩ := Db.commitRunTransition_ok (Tx.done_eq_ok h)
    rw [Db.enqueueAll_eq]
    exact ⟨rfl, rfl, rfl, rfl, rfl, nofun, fun _ => rfl, rfl,
      fun _ => Db.enqueueAll_outbox _ _, fun _ _ _ => .inl rfl, fun _ _ _ => .inl rfl⟩
  | promoteStep leader run step signature events =>
    obtain ⟨-, -, rfl⟩ := Db.promoteStep_ok (Tx.done_eq_ok h)
    exact .of_journal rfl rfl
  | claimReadySteps leader limit now =>
    obtain ⟨-, rfl⟩ := Db.claimReadySteps_ok h
    rw [Db.claim_frame]
    exact ⟨rfl, rfl, rfl, rfl, rfl, fun _ => ⟨rfl, rfl⟩, fun _ => rfl, rfl, fun _ => rfl,
      fun _ _ _ => .inl rfl, fun _ _ _ => .inl rfl⟩
  | openGateWait leader run step startedAt at_ =>
    rcases Db.openGateWait_ok h with ⟨rfl, -, hc⟩ | ⟨hmem, hst, hopen, x, -, rfl, rfl⟩
    · exact .of_eq rfl (if_neg hc)
    · exact .of_journal rfl (if_pos ⟨hmem, hst, hopen⟩)
  | resolveGateWait run step res =>
    obtain rfl := (Prod.mk.inj (Except.ok.inj h)).2
    exact db.resolveGateWait_frame run step res
  | closeRunningAttempt run step attempt outcome event =>
    obtain rfl := (Prod.mk.inj (Except.ok.inj h)).2
    exact db.closeRunningAttempt_frame run step attempt outcome event
  | setStepInput run step signature =>
    obtain rfl := Except.ok.inj (Tx.done_eq_ok h)
    simp only [Db.setStepInput]
    split <;> exact .of_rows rfl rfl
  | setStepOutput => exact Db.setStepOutput_frame (Tx.done_eq_ok h)
  | setStepResults run step attempt results =>
    obtain ⟨-, rfl⟩ := Db.setStepResults_ok (Tx.done_eq_ok h)
    exact .of_evidence (fun _ => rfl) rfl rfl
  | ingestAttemptResults run step attempt results =>
    obtain ⟨-, -, -, rfl⟩ := Db.ingestAttemptResults_ok (Tx.done_eq_ok h)
    exact .of_evidence (fun _ => rfl) rfl rfl
  | setAttemptFailure run step attempt kind detail =>
    obtain rfl := Except.ok.inj (Tx.done_eq_ok h)
    simp only [Db.stampAttempt]
    split <;> exact .of_rows rfl rfl
  | setAttemptHandle run step attempt handle =>
    obtain rfl := Except.ok.inj (Tx.done_eq_ok h)
    exact db.setAttemptHandle_frame run step attempt handle
  | setAttemptConsumed | setAttemptWorkspaceInputSteps =>
    obtain rfl := Except.ok.inj (Tx.done_eq_ok h)
    exact .of_evidence (fun _ => rfl) rfl rfl
  | putArtifacts =>
    obtain rfl := Except.ok.inj (Tx.done_eq_ok h)
    exact .of_eq rfl rfl
  | setGateWaitInputs =>
    obtain ⟨_, rfl⟩ := Db.setGateWaitInputs_ok h
    exact .of_rows rfl rfl
  | acquireSlot =>
    obtain ⟨_, rfl⟩ := Db.acquireSlot_slots h
    exact .of_slots rfl rfl rfl
  | releaseSlot group run =>
    obtain ⟨_, hslots⟩ := db.releaseSlot_slots group run
    obtain rfl := Except.ok.inj (Tx.done_eq_ok h)
    rw [hslots]
    exact .of_slots rfl rfl rfl
  | createRunService =>
    obtain ⟨_, rfl⟩ := Db.createRunService_ok (Tx.done_eq_ok h)
    exact .of_rows rfl rfl
  | setRunService =>
    obtain ⟨_, rfl⟩ := Db.setRunService_ok (Tx.done_eq_ok h)
    exact .of_rows rfl rfl
  | enqueueOutbox msg =>
    obtain rfl := Except.ok.inj (Tx.done_eq_ok h)
    exact ⟨rfl, rfl, rfl, rfl, rfl, fun _ => ⟨rfl, rfl⟩, fun _ => rfl,
      by simp [Tx.newEvents, Db.enqueue], fun _ => rfl, fun _ _ _ => .inl rfl,
      fun _ _ _ => .inl rfl⟩
  | markDispatched | deadLetterOutbox =>
    obtain rfl := Except.ok.inj (Tx.done_eq_ok h)
    exact .of_delivery rfl rfl
  | claimOutbox | recordOutboxFailure =>
    obtain ⟨-, rfl⟩ := Prod.mk.inj (Except.ok.inj h)
    exact .of_delivery rfl rfl
  | renewOutboxClaim =>
    obtain ⟨-, rfl⟩ := Prod.mk.inj (Except.ok.inj h)
    exact .of_eq rfl rfl
  | lease owner =>
    obtain ⟨_, hlease⟩ := db.leaseFor_lease owner w.expired
    obtain rfl := (Prod.mk.inj (Except.ok.inj h)).2.symm.trans hlease
    exact .of_rows rfl rfl

end frame
end Scarab.Engine
