import Scarab.AttemptRetries

/-!
# One Attempt runs at a time

A step's only Attempt that may be running is its latest, and of a step that is no gate only while
the step itself is Running.
-/
namespace Scarab.Engine

open Interleave

/-- No two Attempts of a step run at once, and none while the step does something else. -/
structure RunsOne (db₀ db : Db) : Prop where
  latest : ∀ run step, ∀ a ∈ (db.steps run step).attempts.entries, a.outcome = .running →
    (db.steps run step).attempts.last? = some a
  running : ∀ run step, ∀ a ∈ (db.steps run step).attempts.entries, a.outcome = .running →
    (db₀.steps run step).gateKind = none → (db.steps run step).status = .running

/-- What the two say of one row. -/
def RowRunsOne (gate : Bool) (r : StepRec) : Prop :=
  ∀ a ∈ r.attempts.entries, a.outcome = .running →
    r.attempts.last? = some a ∧ (gate = false → r.status = .running)

section rows

variable {as : Attempts} {a b : Attempt} {id : AttemptId} {f : Attempt → Attempt}

/-- An Attempt that runs after an update ran before it. -/
theorem Attempts.running_of_update (ha : a ∈ (as.update id f).entries) (hr : a.outcome = .running)
    (hf : ∀ b, b.id = id → (f b).outcome = .running → b.outcome = .running) :
    ∃ b ∈ as.entries, b.outcome = .running ∧
      a = if b.id = id then { f b with id := b.id } else b := by
  rw [Attempts.entries_update] at ha
  obtain ⟨b, hb, rfl⟩ := List.mem_map.mp ha
  refine ⟨b, hb, ?_, rfl⟩
  by_cases hid : b.id = id
  · simp only [hid, if_true] at hr
    exact hf b hid hr
  · simpa [hid] using hr

theorem rowRunsOne_update {gate : Bool} {r : StepRec} {status : StepStatus}
    (h : RowRunsOne gate r)
    (hf : ∀ b, b.id = id → (f b).outcome = .running → b.outcome = .running)
    (hst : r.status = .running → (∃ a, (r.attempts.update id f).last? = some a ∧
      a.outcome = .running) → gate = false → status = .running) :
    RowRunsOne gate { r with status := status, attempts := r.attempts.update id f } := by
  intro a ha hr
  obtain ⟨b, hb, hbr, rfl⟩ := Attempts.running_of_update ha hr hf
  obtain ⟨hlast, hrun⟩ := h b hb hbr
  have hlast' : (r.attempts.update id f).last? =
      some (if b.id = id then { f b with id := b.id } else b) := by
    rw [Attempts.last?_update, hlast]
    rfl
  exact ⟨hlast', fun hg => hst (hrun hg) ⟨_, hlast', hr⟩ hg⟩

theorem rowRunsOne_stamp {gate : Bool} {r : StepRec} {status : StepStatus} {s : AttemptStamp}
    (h : RowRunsOne gate r) (hs : s ≠ .outcome .running)
    (hst : r.status = .running → (∃ a, (r.attempts.stamp id s).last? = some a ∧
      a.outcome = .running) → gate = false → status = .running) :
    RowRunsOne gate { r with status := status, attempts := r.attempts.stamp id s } := by
  refine rowRunsOne_update h (fun b _ hb => ?_) hst
  split_ifs at hb
  · exact hb
  · cases s with
    | outcome o => exact absurd (congrArg _ hb) hs
    | failure kind detail => cases hb

/-- A stamp ends the Attempt it is put on. -/
theorem Attempts.not_running_of_stamp {s : AttemptStamp} (hs : s ≠ .outcome .running)
    (hfront : as.frontier = some id) (hl : (as.stamp id s).last? = some a) :
    a.outcome ≠ .running := by
  obtain ⟨b, hb, hid⟩ := Attempts.frontier_eq_some.mp hfront
  rw [Attempts.stamp, Attempts.last?_update, hb, Option.map_some, if_pos hid] at hl
  obtain rfl := Option.some.inj hl
  intro hr
  simp only at hr
  split_ifs at hr with hi
  · rw [hr] at hi
    cases hi
  · cases s with
    | outcome o => exact hs (congrArg _ hr)
    | failure kind detail => cases hr

end rows

variable {cond : Config engine → Entry engine → Prop} {g g₁ : Config engine} {e : Entry engine}
  {db₀ : Db} {run : RunId} {step : StepId}

/-- The latest Attempt in a snapshot a call read, once over, stays over. -/
theorem not_running_of_snapshot (hr : Reach cond db₀ g) {pid : ℕ} {s : StepRun} {b c : Attempt}
    (hs : Past.SawStep (ownOf g.log pid) run s) (hc : s.attempts.getLast? = some c)
    (hend : c.outcome ≠ .running) (hb : b ∈ (g.db.steps run s.step).attempts.entries)
    (hid : b.id = c.id) : b.outcome ≠ .running := by
  obtain ⟨steps, hsaw, hmem⟩ := hs
  obtain ⟨g₀, e, newer, hr₀, rfl, -, -, -, g₁, hsame, hs₁, hr₁, hrun⟩ := hr.saw hsaw
  obtain ⟨-, heq⟩ := of_mem_stepsOfRun hmem
  have hmem₁ : c ∈ (g₁.db.steps run s.step).attempts.entries := by
    rw [hsame]
    rw [heq] at hc
    exact List.mem_of_getLast? hc
  obtain ⟨b', hb', hid', hend', -⟩ := (hr₁.leads hrun run s.step).attempts c hmem₁
  rw [Attempts.eq_of_id hb hb' (hid.trans hid'.symm)]
  exact hend' hend

/-- A move from a status a call saw, on the latest Attempt it saw: once the move's stamp is on it,
that Attempt is over. -/
theorem ended_by_snapshot (hr : Reach cond db₀ g) {pid : ℕ} {s : StepRun} {o : AttemptOutcome}
    {a : Attempt} (ho : o ≠ .running) (hs : Past.SawStep (ownOf g.log pid) run s)
    (hfront : (g.db.steps run s.step).attempts.frontier = s.attempts.getLast?.map (·.id))
    (hl : ((g.db.steps run s.step).attempts.stamp?
      ((inFlightAttempt s).map fun a => (a.id, .outcome o))).last? = some a) :
    a.outcome ≠ .running := by
  cases hlast : s.attempts.getLast? with
  | none =>
    rw [hlast, Option.map_none, Attempts.frontier_eq_none] at hfront
    have hnone : inFlightAttempt s = none := by simp [inFlightAttempt, hlast]
    rw [hnone, Option.map_none, Attempts.stamp?, Attempts.last?, hfront] at hl
    cases hl
  | some c =>
    rw [hlast, Option.map_some] at hfront
    by_cases hc : c.outcome = .running
    · have hsome : inFlightAttempt s = some c := by simp [inFlightAttempt, hlast, hc]
      rw [hsome, Option.map_some, Attempts.stamp?] at hl
      exact Attempts.not_running_of_stamp (by simpa using ho) hfront hl
    · have hnone : inFlightAttempt s = none := by simp [inFlightAttempt, hlast, hc]
      rw [hnone, Option.map_none, Attempts.stamp?] at hl
      obtain ⟨b, hb, hid⟩ := Attempts.frontier_eq_some.mp hfront
      obtain rfl := Option.some.inj (hl.symm.trans hb)
      exact not_running_of_snapshot hr hs hlast hc (Attempts.last?_mem hl) hid

/-- A failure a call recorded on the latest Attempt it saw ends that Attempt. -/
theorem ended_by_failure (hr : Reach cond db₀ g) {pid : ℕ} {attempt : AttemptId}
    {kind : FailureKind} {cause : Option String} {a : Attempt}
    (hw : Past.Weighed (ownOf g.log pid) run step attempt kind cause)
    (ha : a ∈ (g.db.steps run step).attempts.entries) (hid : a.id = attempt) :
    a.outcome ≠ .running := by
  obtain ⟨attempts, events, ir, newer, older, hpast, hstale, -, -⟩ := hw
  have hsplit : ownOf g.log pid = (newer ++ [⟨.read (.events run), .ok events⟩]) ++
      ⟨.write (.setAttemptFailure run step attempt kind cause), .ok ()⟩ ::
        ⟨.read (.attemptsOfStep run step), .ok attempts⟩ :: older := by
    rw [hpast]
    simp
  obtain ⟨gb, eb, gb₁, -, hrb, hsb, hcb, hrunb, -, hpid, hwb, -, hown⟩ := hr.moment_split hsplit
  -- the Attempt was the latest when the call read them
  have hsaw : Past.Saw (ownOf gb.log pid) (.attemptsOfStep run step) attempts := by
    rw [Past.Saw, hown]
    exact List.mem_cons_self
  obtain ⟨ga, -, -, hra, rfl, -, -, -, ga₁, hsame, -, hra₁, hruna⟩ := hrb.saw hsaw
  have hlatest := latest_of_not_stale hstale
  have hknown : step ∈ ga.db.stepIds run := by
    by_contra hno
    simp [Query.eval, Db.attemptsOfStep, hno] at hlatest
  have hfront : (ga.db.steps run step).attempts.frontier = some attempt := by
    simpa [Query.eval, Db.attemptsOfStep, hknown, Attempts.frontier, Attempts.last?] using hlatest
  obtain ⟨c, hc, hcid⟩ := Attempts.frontier_eq_some.mp hfront
  have hminted : gb.db.Minted run step attempt :=
    hra₁.minted hruna ⟨c, hsame ▸ Attempts.last?_mem hc, hcid⟩
  obtain ⟨d, hd, hdid⟩ := hminted
  -- the write stamped it
  obtain ⟨w, hexec⟩ := hsb.write_eq hwb
  have hknownb : step ∈ gb.db.stepIds run := by
    rw [hrb.shape.2.1, ← hra.shape.2.1]
    exact hknown
  have hdb : gb₁.db = gb.db.stampAttempt run step attempt (.failure kind cause) :=
    (Except.ok.inj (Tx.done_eq_ok hexec)).symm
  have hrow : (gb₁.db.steps run step).attempts =
      (gb.db.steps run step).attempts.stamp attempt (.failure kind cause) := by
    rw [hdb, Db.stampAttempt, if_pos hknownb, Db.steps_setStep]
  have hended : ∃ d' ∈ (gb₁.db.steps run step).attempts.entries, d'.id = attempt ∧
      d'.outcome ≠ .running := by
    rw [hrow]
    refine ⟨_, List.mem_map_of_mem hd, by simp [hdid], ?_⟩
    simp only [hdid, if_true]
    intro ho
    split_ifs at ho with hi
    rw [ho] at hi
    cases hi
  obtain ⟨d', hd', hdid', hend⟩ := hended
  obtain ⟨b, hb, hbid, hbend, -⟩ := ((hrb.next hsb hcb).leads hrunb run step).attempts d' hd'
  rw [Attempts.eq_of_id ha hb (hid.trans (hbid.trans hdid').symm)]
  exact hbend hend

/-- A step that leaves Running leaves no Attempt running. -/
theorem ended_by_move (hr : Reach cond db₀ g) {pid : ℕ} {l : Call} {t : StepTransition} {a : Attempt}
    (hm : StepMove l (ownOf g.log pid) t) (hfrom : t.from_ = .running)
    (hfront : ∀ x, t.frontier = .is x → (g.db.steps t.run t.step).attempts.frontier = x)
    (hl : ((g.db.steps t.run t.step).attempts.stamp? t.stamp).last? = some a) :
    a.outcome ≠ .running := by
  cases hm with
  | rearm run target s by_ at_ reruns saw live known =>
    have hst : s.status = .running := hfrom
    simp only [rearmCommit, hst, if_true] at hl hfront
    exact ended_by_snapshot hr (by simp) saw (hfront _ rfl) hl
  | cancel run s at_ saw live =>
    have hst : s.status = .running := hfrom
    simp only [cancelCommit, hst, if_true] at hl hfront
    exact ended_by_snapshot hr (by simp) saw (hfront _ rfl) hl
  | succeed run step attempt at_ polled =>
    exact Attempts.not_running_of_stamp (by simp) (hfront _ rfl) hl
  | fail run step attempt kind cause at_ failed =>
    exact Attempts.not_running_of_stamp (by simp) (hfront _ rfl) hl
  | retry run step attempt kind cause at_ failed weighed =>
    obtain ⟨b, hb, hid⟩ := Attempts.frontier_eq_some.mp (hfront _ rfl)
    obtain rfl := Option.some.inj (hl.symm.trans hb)
    exact ended_by_failure hr weighed (Attempts.last?_mem hl) hid
  | unneeded | revive | skip | unready | unchanged => cases hfrom

theorem rowRunsOne_record {gate : Bool} {r : StepRec} {a : Attempt} {status : StepStatus}
    (hid : a.id = r.attempts.next) (hnone : ∀ b ∈ r.attempts.entries, b.outcome ≠ .running)
    (hst : a.outcome = .running → gate = false → status = .running) :
    RowRunsOne gate { r with status := status, attempts := r.attempts.record a } := by
  intro b hb hrun
  change b ∈ (r.attempts.record a).entries at hb
  rw [Attempts.entries_record_next hid] at hb
  rcases List.mem_append.mp hb with hb | hb
  · exact absurd hrun (hnone b hb)
  · obtain rfl := List.mem_singleton.mp hb
    exact ⟨Attempts.last?_record_next hid, hst hrun⟩

theorem none_runs_of_running? {gate : Bool} {r : StepRec} (h : RowRunsOne gate r)
    (hclosed : r.attempts.running? = none) : ∀ b ∈ r.attempts.entries, b.outcome ≠ .running := by
  intro b hb hrun
  have hopen := Attempts.running?_eq_some.mpr ⟨(h b hb hrun).1, hrun⟩
  rw [hclosed] at hopen
  cases hopen

/-- One step of a run keeps a row's Attempts apart. -/
theorem step_rowRunsOne (hfresh : db₀.Fresh) (hr : Reach cond db₀ g) (hs : Step g e g₁)
    (h : RowRunsOne (db₀.steps run step).gateKind.isSome (g.db.steps run step)) :
    RowRunsOne (db₀.steps run step).gateKind.isSome (g₁.db.steps run step) := by
  rcases hr.step_row hs run step with hsame | ⟨t, a, l, -, -, hb, -, heff⟩
  · rwa [hsame]
  generalize g₁.db.steps run step = r at heff
  cases heff with
  | moved t hrun hstep from_ frontier =>
    subst hrun hstep
    cases hst : t.stamp with
    | none =>
      intro a ha hrun
      obtain ⟨hlast, hstatus⟩ := h a ha hrun
      refine ⟨hlast, fun hg => absurd hrun (ended_by_move hr hb ?_ frontier ?_)⟩
      · rw [← from_, hstatus hg]
      · rw [hst]
        exact hlast
    | some x =>
      refine rowRunsOne_stamp h (StepMove.stamp_ne_running hb x hst) fun hrun ⟨a, hl, ha⟩ _ => ?_
      refine absurd ha (ended_by_move hr hb (from_ ▸ hrun) frontier ?_)
      rw [hst]
      exact hl
  | promoted leader signature events pending =>
    intro a ha hrun
    obtain ⟨hlast, hstatus⟩ := h a ha hrun
    refine ⟨hlast, fun hg => ?_⟩
    rw [pending] at hstatus
    cases hstatus hg
  | claimed leader limit now ready listed =>
    have hgate : (db₀.steps run step).gateKind.isSome = false := by
      rw [hr.not_gate hfresh (.inl ready)]
      rfl
    refine rowRunsOne_record rfl (fun b hb hrun => ?_) fun _ _ => rfl
    have hstatus := (h b hb hrun).2 hgate
    rw [ready] at hstatus
    cases hstatus
  | waitOpened leader startedAt at_ pending closed =>
    have hgate : (db₀.steps run step).gateKind.isSome = true :=
      Option.isSome_iff_ne_none.mpr (hr.sawGate hb)
    exact rowRunsOne_record rfl (none_runs_of_running? h closed) fun _ hg => by simp [hgate] at hg
  | resolved res attempt minted attempts pending wait =>
    have hgate : (db₀.steps run step).gateKind.isSome = true := by
      obtain ⟨steps, gate, hsaw, hmem, rfl, hg, -⟩ := hb
      rw [← hr.sawStep_isGate ⟨steps, hsaw, hmem⟩]
      simpa [StepRun.isGate] using hg
    have hverdict : ∀ b : Bool, (if b then AttemptOutcome.succeeded else .failed) ≠ .running := by
      decide
    rcases closeWait_cases wait with ⟨f, -, rfl, hf⟩ | ⟨a, hclosed, -, rfl, hid, ho⟩
    · refine rowRunsOne_update (r := { g.db.steps run step with
        results := res.stored.getD (g.db.steps run step).results
        evidenceAttempt := if res.stored.isSome then some attempt
          else (g.db.steps run step).evidenceAttempt }) h (fun b _ hrun => ?_)
        fun _ _ hg => by simp [hgate] at hg
      rw [hf] at hrun
      exact absurd hrun (hverdict _)
    · refine rowRunsOne_record (r := { g.db.steps run step with
        results := res.stored.getD (g.db.steps run step).results
        evidenceAttempt := if res.stored.isSome then some attempt
          else (g.db.steps run step).evidenceAttempt }) hid (none_runs_of_running? h hclosed)
        fun _ hg => by simp [hgate] at hg
  | closed attempt outcome event running =>
    refine rowRunsOne_update h (fun b _ hrun => ?_) fun hrun _ _ => hrun
    have hintent := hb.1
    simp only at hrun
    simp [hrun, AttemptOutcome.byIntent] at hintent
  | signed | output | results | ingested => exact h
  | failed attempt kind detail =>
    exact rowRunsOne_stamp h (by simp) fun hrun _ _ => hrun

/-- Whatever interleaves, a step has at most one Attempt that runs, its latest, and a step that is
no gate has one only while it is Running. -/
theorem runsOne (hfresh : db₀.Fresh) (hr : Reach cond db₀ g) : RunsOne db₀ g.db := by
  have hrow : ∀ run step,
      RowRunsOne (db₀.steps run step).gateKind.isSome (g.db.steps run step) := by
    intro run step
    refine Runs.keeps (P := fun g' : Config engine =>
      RowRunsOne (db₀.steps run step).gateKind.isSome (g'.db.steps run step))
      (fun g₂ e g₃ hpre hs _ ih => step_rowRunsOne hfresh hpre hs ih) hr ?_
    intro a ha
    have hnil : ((Config.init db₀ : Config engine).db.steps run step).attempts.entries = [] :=
      (hfresh.steps run step).2.1
    rw [hnil] at ha
    cases ha
  exact ⟨fun run step a ha h => (hrow run step a ha h).1,
    fun run step a ha h hg => (hrow run step a ha h).2 (by rw [hg]; rfl)⟩

/-- A step that is rerun while its first Attempt runs, and is claimed again: the second Attempt runs
alone. -/
theorem runsOne_rerun : ∃ g, Reach (fun _ _ => True) oneStepDb g ∧
    (g.db.steps runR stepA).attempts.entries.map (·.outcome) = [.superseded, .running] ∧
    RunsOne oneStepDb g.db := by
  obtain ⟨g, hg, htest⟩ := Reach.of_play (M := engine) oneStepDb
    [.start (.admitRun plainConfig [] runR), .runOut 0 60 (calm .running none),
      .start (.reconcile plainConfig []), .runOut 1 60 (calm .running none),
      .start (.rerunStep false runR stepA none), .runOut 2 60 (calm .running none),
      .start (.admitRun plainConfig [] runR), .runOut 3 60 (calm .running none),
      .start (.reconcile plainConfig []), .runOut 4 60 (calm .running none)]
    (fun g => decide ((g.db.steps runR stepA).attempts.entries.map (·.outcome) =
      [.superseded, .running])) (by decide +kernel)
  exact ⟨g, hg, of_decide_eq_true htest, runsOne (createdDb_fresh _ _ _) hg⟩

end Scarab.Engine
