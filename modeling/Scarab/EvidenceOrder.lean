import Scarab.EngineEvolution

/-!
# Evidence goes forward

An Attempt's output and results are written before the verdict that is fenced on the
latest Attempt, so a late writer can put an older Attempt's evidence back. Written only
while their Attempt is the latest of a Running step, they come in the order of the Attempts.
-/
namespace Scarab.Engine

open Interleave

variable {run : RunId} {step : StepId} {attempt : AttemptId} {db₀ : Db}
  {cond : Config engine → Entry engine → Prop} {g g₁ : Config engine} {e : Entry engine}

/-- The step of the run stores an Attempt's output or results on its step. -/
def WritesEvidence (run : RunId) (step : StepId) (attempt : AttemptId) (e : Entry engine) : Prop :=
  (∃ output identity, e.Did (.setStepOutput run step attempt output identity) ()) ∨
    (∃ results, e.Did (.setStepResults run step attempt results) ()) ∨
    ∃ results, e.Did (.ingestAttemptResults run step attempt results) ()

/-- No write of an older Attempt follows one of a newer Attempt, and no Attempt stamped by
intent writes at all. -/
structure EvidenceOrdered (run : RunId) (step : StepId) (g : Config engine) : Prop where
  forward : ∀ newer later between earlier older i j,
    g.log = newer ++ later :: (between ++ earlier :: older) → WritesEvidence run step i later →
      WritesEvidence run step j earlier → j.num ≤ i.num
  unstamped : ∀ e ∈ g.log, ∀ attempt, WritesEvidence run step attempt e →
    ∀ outcome, (e.pre.steps run step).attempts.outcome? attempt = some outcome →
      outcome.byIntent = false

/-- The unfenced writes land while their Attempt is the latest of a Running step. -/
def KeepsEvidence (run : RunId) (step : StepId) (g : Config engine) (e : Entry engine) : Prop :=
  ∀ attempt, (∃ output identity, e.Did (.setStepOutput run step attempt output identity) ()) ∨
      (∃ results, e.Did (.setStepResults run step attempt results) ()) →
    (g.db.steps run step).status = .running ∧
      (g.db.steps run step).attempts.frontier = some attempt

/-- The latest Attempt of a Running step is not stamped by intent. -/
theorem latest_not_byIntent (hfresh : db₀.Fresh) (hr : Reach cond db₀ g) {a : Attempt}
    (hst : (g.db.steps run step).status = .running)
    (hl : (g.db.steps run step).attempts.last? = some a) : a.outcome.byIntent = false := by
  induction hr generalizing a with
  | refl =>
    rw [show ((Config.init db₀).db.steps run step).status = .pending from
      (hfresh.steps run step).1] at hst
    cases hst
  | @tail g₁ g₂ e init hs hm ih =>
    have hr : Reach cond db₀ g₁ := init
    rcases hr.step_row hs run step with heq | ⟨t, b, l, -, -, hb, -, heff⟩
    · rw [heq] at hst hl
      exact ih hst hl
    · generalize g₂.db.steps run step = r at heff hst hl
      cases heff with
      | moved t hrun hstep from_ frontier => exact absurd hst (StepMove.to_ne_running hb)
      | promoted | waitOpened leader startedAt at_ pending => simp_all
      | resolved res attempt minted attempts pending wait =>
        simp only [Db.resolvedRec] at hst
        split_ifs at hst
      | claimed leader limit now ready listed =>
        rw [Db.claimedRec, Attempts.last?_record_next rfl] at hl
        obtain rfl := Option.some.inj hl
        rfl
      | signed | output | results | ingested => exact ih hst hl
      | closed attempt outcome event running =>
        -- only a gate's wait is closed outside a transition, and no gate runs
        exact absurd (hr.not_gate hfresh (.inr hst)) (hr.sawGate hb.2.1)
      | failed attempt kind detail =>
        rw [Attempts.stamp, Attempts.last?_update] at hl
        obtain ⟨b, hb', rfl⟩ := Option.map_eq_some_iff.mp hl
        have hno := ih hst hb'
        by_cases hid : b.id = attempt
        · simp only [hid, if_true, hno, Bool.false_eq_true, if_false]
          rfl
        · simpa [hid] using hno

/-- Every write lands while its Attempt is the latest of a Running step. -/
theorem latest_of_writes (hs : Step g e g₁)
    (hk : KeepsEvidence run step g e) (hw : WritesEvidence run step attempt e) :
    (g.db.steps run step).status = .running ∧
      (g.db.steps run step).attempts.frontier = some attempt := by
  rcases hw with hout | hres | ⟨results, hd⟩
  · exact hk attempt (.inl hout)
  · exact hk attempt (.inr hres)
  · obtain ⟨w, hexec⟩ := hs.write_eq hd
    have hok := Tx.done_eq_ok hexec
    simp only [Db.ingestAttemptResults] at hok
    split at hok
    · next hcond => exact hcond.2
    · cases hok

/-- While every write lands on the latest Attempt of a Running step, evidence goes forward. -/
theorem evidenceOrdered_of_keepsEvidence (hfresh : db₀.Fresh)
    (hr : Reach (KeepsEvidence run step) db₀ g) : EvidenceOrdered run step g := by
  refine ⟨fun newer later between earlier older i j hlog hi hj => ?_, fun e he attempt hw o ho => ?_⟩
  · obtain ⟨g₁, g₂, hr₁, hs₁, hm₁, -, hlog₁⟩ := hr.at_entry hlog
    obtain ⟨g₃, g₄, hr₃, hs₃, hm₃, hrun, -⟩ := hr₁.at_entry hlog₁
    have hi' := (latest_of_writes hs₁ hm₁ hi).2
    have hj' := (latest_of_writes hs₃ hm₃ hj).2
    rw [Attempts.frontier_num hi', Attempts.frontier_num hj']
    have hleads := hr₃.leads ((Runs.refl.tail hs₃ hm₃).trans hrun) run step
    exact hleads.attempts.length_le
  · obtain ⟨newer, older, hlog⟩ := List.append_of_mem he
    obtain ⟨g₀, g₁, hr₀, hs, hm, -, -⟩ := hr.at_entry hlog
    obtain ⟨hst, hf⟩ := latest_of_writes hs hm hw
    obtain ⟨a, hl, rfl⟩ := Attempts.frontier_eq_some.mp hf
    rw [Entry.pre, hs.before_eq, Attempts.outcome?_of_mem (Attempts.last?_mem hl)] at ho
    rw [← Option.some.inj ho]
    exact latest_not_byIntent hfresh hr₀ hst hl

/-- What the step writes lands on the latest Attempt of a Running step. -/
def writesLive (e : Entry engine) : Bool :=
  match e.what with
  | .did (.write (.setStepOutput r s a _ _)) _ | .did (.write (.setStepResults r s a _)) _ =>
      (e.pre.steps r s).status = .running ∧ (e.pre.steps r s).attempts.frontier = some a
  | _ => true

theorem keepsEvidence_of_writesLive (run : RunId) (step : StepId)
    (hr : Reach (fun _ _ => True) db₀ g) (hlog : ∀ e ∈ g.log, writesLive e = true) :
    Reach (KeepsEvidence run step) db₀ g := by
  refine hr.of_log hlog fun g e g₁ hg hs _ he attempt hw => ?_
  have hpre : e.pre = g.db := hs.before_eq
  rw [← hpre]
  rcases hw with ⟨output, identity, hd⟩ | ⟨results, hd⟩
  · simpa [writesLive, hd] using he
  · simpa [writesLive, hd] using he

/-- The step stores the output of the Attempt with this number. -/
def writesOutputOf (n : ℕ) (e : Entry engine) : Bool :=
  match e.what with
  | .did (.write (.setStepOutput r s a _ _)) (.ok _) => r = runR ∧ s = stepA ∧ a.num = n
  | _ => false

theorem writesEvidence_of_writesOutputOf {n : ℕ} (h : writesOutputOf n e = true) :
    WritesEvidence runR stepA ⟨n⟩ e := by
  simp only [writesOutputOf] at h
  split at h
  · next r s a output identity x hw =>
    obtain ⟨rfl, rfl, rfl⟩ := of_decide_eq_true h
    exact .inl ⟨output, identity, hw⟩
  · cases h

/-- A step that runs to success, is rerun, and runs to success again. -/
theorem evidenceOrdered_of_keepsEvidence_twice :
    ∃ g, Reach (KeepsEvidence runR stepA) oneStepDb g ∧
      (g.log.any (writesOutputOf 1) && g.log.any (writesOutputOf 2)) = true ∧
      EvidenceOrdered runR stepA g := by
  obtain ⟨g, hg, htest⟩ := Reach.of_play (M := engine) oneStepDb
    [.start (.admitRun plainConfig [] runR), .runOut 0 60 (calm .succeeded (some "x".toList)),
      .start (.reconcile plainConfig []), .runOut 1 60 (calm .succeeded (some "x".toList)),
      .start (.rerunStep false runR stepA none), .runOut 2 60 (calm .succeeded none),
      .start (.admitRun plainConfig [] runR), .runOut 3 60 (calm .succeeded none),
      .start (.reconcile plainConfig []), .runOut 4 60 (calm .succeeded (some "y".toList))]
    (fun g => g.log.all writesLive &&
      (g.log.any (writesOutputOf 1) && g.log.any (writesOutputOf 2))) (by decide +kernel)
  rw [Bool.and_eq_true, List.all_eq_true] at htest
  have hr := keepsEvidence_of_writesLive runR stepA hg htest.1
  exact ⟨g, hr, htest.2, evidenceOrdered_of_keepsEvidence (createdDb_fresh _ _ _) hr⟩

/-- A write of the first Attempt's output, newest in the log, over one of the second's. -/
def regresses : List (Entry engine) → Bool
  | [] => false
  | later :: older => writesOutputOf 1 later && older.any (writesOutputOf 2)

theorem not_evidenceOrdered_of_regresses (h : regresses g.log = true) :
    ¬EvidenceOrdered runR stepA g := by
  intro hord
  cases hlog : g.log with
  | nil => simp [hlog, regresses] at h
  | cons later rest =>
    simp only [hlog, regresses, Bool.and_eq_true, List.any_eq_true] at h
    obtain ⟨hlater, earlier, hmem, hearlier⟩ := h
    obtain ⟨between, older, rfl⟩ := List.append_of_mem hmem
    have := hord.forward [] later between earlier older ⟨1⟩ ⟨2⟩ hlog
      (writesEvidence_of_writesOutputOf hlater) (writesEvidence_of_writesOutputOf hearlier)
    simp at this

/-- One replica has read its unit's output when a rerun supersedes the Attempt; the next
Attempt runs and stores its output, and then the first replica goes on. -/
theorem not_evidenceOrdered_under_rerun :
    ¬∀ (db₀ : Db) (run : RunId) (step : StepId) (g : Config engine), db₀.Fresh →
      Reach (fun _ e => Faultless e = true) db₀ g → EvidenceOrdered run step g := by
  intro hall
  obtain ⟨g, hg, htest⟩ := Reach.of_play (M := engine) oneStepDb
    [.start (.admitRun plainConfig [] runR), .runOut 0 60 (calm .succeeded none),
      .start (.reconcile plainConfig []), .acts 1 18 (calm .succeeded (some "x".toList)),
      .start (.rerunStep false runR stepA none), .runOut 2 60 (calm .succeeded none),
      .start (.admitRun plainConfig [] runR), .runOut 3 60 (calm .succeeded none),
      .start (.reconcile plainConfig []), .runOut 4 60 (calm .succeeded (some "y".toList)),
      .acts 1 1 (calm .succeeded (some "x".toList))]
    (fun g => g.log.all Faultless && regresses g.log) (by decide +kernel)
  rw [Bool.and_eq_true, List.all_eq_true] at htest
  have hr : Reach (fun _ e => Faultless e = true) oneStepDb g :=
    hg.of_log htest.1 fun _ _ _ _ _ _ he => he
  exact not_evidenceOrdered_of_regresses htest.2
    (hall oneStepDb runR stepA g (createdDb_fresh _ _ _) hr)

end Scarab.Engine
