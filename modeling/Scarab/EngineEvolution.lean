import Scarab.EngineHistory

/-!
# What every run keeps

Facts that hold between any two states of a run, whatever was interleaved: Attempts are
never dropped or reopened, an Attempt that is not in flight never is again, a run never
returns to Pending and leaves a terminal status only through a rerun.
-/
namespace Scarab.Engine

open Interleave

namespace StepMove

variable {l : Call} {h : Past} {t : StepTransition}

theorem to_ne_running (hm : StepMove l h t) : t.to_ ≠ .running := by
  cases hm <;> simp [rearmCommit, cancelCommit, finalizeCommit, rearmStepCommit, unneededCommit,
    plainMove]

/-- A step leaves a terminal status only back to Pending. -/
theorem to_pending_of_terminal (hm : StepMove l h t) (hf : t.from_.isTerminal = true) :
    t.to_ = .pending := by
  cases hm with
  | rearm | revive => rfl
  | cancel run s at_ saw live =>
    simp only [cancelCommit] at hf
    simp [hf] at live
  | succeed | fail | retry | unneeded | skip | unready | unchanged =>
    simp [finalizeCommit, rearmStepCommit, unneededCommit, plainMove, StepStatus.isTerminal] at hf

theorem stamp_ne_running (hm : StepMove l h t) :
    ∀ x, t.stamp = some x → x.2 ≠ .outcome .running := by
  cases hm with
  | rearm run target s by_ at_ =>
    rintro x hx
    obtain ⟨a, -, rfl⟩ := Option.map_eq_some_iff.mp hx
    simp
  | cancel run s at_ =>
    rintro x hx
    obtain ⟨a, -, rfl⟩ := Option.map_eq_some_iff.mp hx
    simp
  | unneeded run gate at_ =>
    rintro x hx
    obtain ⟨a, -, rfl⟩ := Option.map_eq_some_iff.mp hx
    simp
  | succeed | fail | retry | revive | skip | unready | unchanged =>
    simp [finalizeCommit, finalStamp, rearmStepCommit, plainMove]

/-- A step becomes Ready only from Running, by a retry. -/
theorem from_running_of_ready (hm : StepMove l h t) (ht : t.to_ = .ready) :
    t.from_ = .running := by
  cases hm <;>
    simp [rearmCommit, cancelCommit, finalizeCommit, rearmStepCommit, unneededCommit,
      plainMove] at ht ⊢

end StepMove

namespace RunMove

variable {l : Call} {h : Past} {t : RunTransition}

theorem to_ne_pending (hm : RunMove l h t) : t.to_ ≠ .pending := by
  cases hm with
  | settle run from_ steps => simp [runTransition, settledAs]; split_ifs <;> simp
  | start | resume | suspend | reopen | cancel | overBudget | deadLetter | uncreated =>
    simp [runTransition]

/-- A run leaves a terminal status only to Running, by a rerun or a retry. -/
theorem of_terminal (hm : RunMove l h t) (hf : t.from_.isTerminal = true) :
    t.to_ = .running ∧ ∃ target, l.Reruns t.run target := by
  cases hm with
  | reopen run target from_ at_ generation reruns ended => exact ⟨rfl, target, reruns⟩
  | settle run from_ steps at_ generation live | cancel leader run from_ at_ intent generation live
  | deadLetter run from_ at_ generation live =>
    simp only [runTransition] at hf
    simp [hf] at live
  | start | resume | suspend | overBudget | uncreated =>
    simp [runTransition, RunStatus.isTerminal] at hf

end RunMove

section snapshot

variable {db : Db} {run : RunId} {step : StepId}

theorem mem_stepsOfRun (hstep : step ∈ db.stepIds run) :
    db.stepRun run step ∈ db.stepsOfRun run := List.mem_map_of_mem hstep

theorem of_mem_stepsOfRun {s : StepRun} (hs : s ∈ db.stepsOfRun run) :
    s.step ∈ db.stepIds run ∧ s = db.stepRun run s.step := by
  obtain ⟨step, hstep, rfl⟩ := List.mem_map.mp hs
  exact ⟨hstep, rfl⟩

theorem find?_stepsOfRun (hstep : step ∈ db.stepIds run) :
    (db.stepsOfRun run).find? (·.step = step) = some (db.stepRun run step) := by
  cases hf : (db.stepsOfRun run).find? (·.step = step) with
  | none =>
    have := List.find?_eq_none.mp hf _ (mem_stepsOfRun hstep)
    simp [Db.stepRun] at this
  | some s =>
    obtain ⟨-, hs⟩ := of_mem_stepsOfRun (List.mem_of_find?_eq_some hf)
    have hid : s.step = step := by simpa using List.find?_some hf
    rw [hs, hid]

end snapshot

/-- What every commit keeps about a step's row. -/
structure StepRec.Leads (r r' : StepRec) : Prop where
  needs : r'.needs = r.needs
  gateKind : r'.gateKind = r.gateKind
  explicitInputs : r'.explicitInputs = r.explicitInputs
  attempts : r.attempts.Leads r'.attempts

theorem StepRec.leads_refl (r : StepRec) : r.Leads r := ⟨rfl, rfl, rfl, Attempts.leads_refl _⟩

theorem StepRec.Leads.trans {r r₁ r₂ : StepRec} (h01 : r.Leads r₁) (h12 : r₁.Leads r₂) :
    r.Leads r₂ :=
  ⟨h12.needs.trans h01.needs, h12.gateKind.trans h01.gateKind,
    h12.explicitInputs.trans h01.explicitInputs, h01.attempts.trans h12.attempts⟩

/-- A verdict closes a running wait, or mints one already closed when the latest is over. -/
theorem closeWait_cases {h attempts : Attempts} {res : GateResolution} {attempt : AttemptId}
    {minted : Bool} (hw : Db.closeWait h res = some (attempt, minted, attempts)) :
    (∃ f, h.outcome? attempt = some .running ∧ attempts = h.update attempt f ∧
        ∀ a, (f a).outcome = if res.passed then .succeeded else .failed) ∨
      (∃ a : Attempt, h.running? = none ∧ attempt = h.next ∧ attempts = h.record a ∧
        a.id = h.next ∧ a.outcome = if res.passed then .succeeded else .failed) := by
  simp only [Db.closeWait] at hw
  split at hw
  · split at hw
    · next hrun =>
      obtain ⟨rfl, -, rfl⟩ : _ ∧ _ ∧ _ := by simpa using hw
      exact .inl ⟨_, hrun, rfl, fun _ => rfl⟩
    · cases hw
  · split at hw
    · next a hrun =>
      obtain ⟨hlast, ho⟩ := Attempts.running?_eq_some.mp hrun
      obtain ⟨rfl, -, rfl⟩ : _ ∧ _ ∧ _ := by simpa using hw
      refine .inl ⟨_, ?_, rfl, fun _ => rfl⟩
      rw [Attempts.outcome?_of_mem (Attempts.last?_mem hlast), ho]
    · next hnone =>
      obtain ⟨rfl, -, rfl⟩ : _ ∧ _ ∧ _ := by simpa using hw
      exact .inr ⟨_, hnone, rfl, rfl, rfl, rfl⟩

theorem closeWait_leads {h attempts : Attempts} {res : GateResolution} {attempt : AttemptId}
    {minted : Bool} (hw : Db.closeWait h res = some (attempt, minted, attempts)) :
    h.Leads attempts := by
  rcases closeWait_cases hw with ⟨f, hrun, rfl, hf⟩ | ⟨a, -, -, rfl, -, -⟩
  · refine Attempts.leads_update (fun a _ _ _ => ?_) fun a ha hid hi => ?_
    · rw [hf]
      split_ifs <;> simp
    · rw [← hid, Attempts.outcome?_of_mem ha] at hrun
      rw [Option.some.inj hrun] at hi
      cases hi
  · exact Attempts.leads_record _ _

/-- The Attempt is the running latest one of a Running step. -/
def Db.InFlight (db : Db) (run : RunId) (step : StepId) (attempt : AttemptId) : Prop :=
  (db.steps run step).status = .running ∧
    ∃ a, (db.steps run step).attempts.last? = some a ∧ a.id = attempt ∧ a.outcome = .running

/-- The step has had this Attempt. -/
def Db.Minted (db : Db) (run : RunId) (step : StepId) (attempt : AttemptId) : Prop :=
  ∃ a ∈ (db.steps run step).attempts.entries, a.id = attempt

section effect

variable {l : Call} {h : Past} {db : Db} {t : Tx} {run : RunId} {step : StepId} {r : StepRec}

theorem Rewrites.leads (hb : Backed l h (.write t)) (hr : Rewrites db t run step r) :
    (db.steps run step).Leads r := by
  obtain ⟨-, heff⟩ := hr
  cases heff with
  | moved t hrun hstep from_ frontier =>
    exact ⟨rfl, rfl, rfl, Attempts.leads_stamp? (StepMove.stamp_ne_running hb)⟩
  | promoted | signed | output | results | ingested => exact ⟨rfl, rfl, rfl, Attempts.leads_refl _⟩
  | claimed | waitOpened => exact ⟨rfl, rfl, rfl, Attempts.leads_record _ _⟩
  | resolved res attempt minted attempts pending wait =>
    exact ⟨rfl, rfl, rfl, closeWait_leads wait⟩
  | closed attempt outcome event running =>
    refine ⟨rfl, rfl, rfl, Attempts.leads_update (fun a _ _ _ ho => ?_) fun a ha hid hi => ?_⟩
    · have := hb.1
      simp only at ho
      simp [ho, AttemptOutcome.byIntent] at this
    · rw [← hid, Attempts.outcome?_of_mem ha] at running
      rw [Option.some.inj running] at hi
      cases hi
  | failed => exact ⟨rfl, rfl, rfl, Attempts.leads_stamp (by simp)⟩

/-- An Attempt a commit leaves in flight was in flight, unless the commit minted it. -/
theorem Rewrites.inFlight (hb : Backed l h (.write t)) (hr : Rewrites db t run step r)
    {attempt : AttemptId} (hm : db.Minted run step attempt) (hst : r.status = .running)
    {a : Attempt} (hl : r.attempts.last? = some a) (hid : a.id = attempt)
    (ho : a.outcome = .running) : db.InFlight run step attempt := by
  obtain ⟨-, heff⟩ := hr
  cases heff with
  | moved t hrun hstep from_ frontier => exact absurd hst (StepMove.to_ne_running hb)
  | promoted => simp at hst
  | resolved res attempt minted attempts pending wait =>
    simp only [Db.resolvedRec] at hst
    split_ifs at hst
  | waitOpened leader startedAt at_ pending closed =>
    simp [pending] at hst
  | claimed leader limit now ready listed =>
    rw [Db.claimedRec, Attempts.last?_record_next rfl] at hl
    obtain ⟨b, hb', hbid⟩ := hm
    obtain rfl := Option.some.inj hl
    have := (Attempts.num_bounds hb').2
    rw [hbid, ← hid] at this
    simp [Attempts.next] at this
  | signed | output | results | ingested => exact ⟨hst, a, hl, hid, ho⟩
  | closed attempt' outcome event running =>
    obtain ⟨b, hb', hbid, hbo⟩ := Attempts.last?_running_of_update hl ho fun b _ hout => by
      have := hb.1
      simp only at hout
      simp [hout, AttemptOutcome.byIntent] at this
    exact ⟨hst, b, hb', hbid.trans hid, hbo⟩
  | failed attempt' kind detail =>
    obtain ⟨b, hb', hbid, hbo⟩ := Attempts.last?_running_of_stamp (by simp) hl ho
    exact ⟨hst, b, hb', hbid.trans hid, hbo⟩

end effect
end Scarab.Engine

namespace Scarab.Interleave

open Engine

variable {cond : Config engine → Entry engine → Prop} {g g₁ : Config engine} {e : Entry engine}
  {db₀ : Db} {run : RunId} {step : StepId} {attempt : AttemptId}

/-- A step's row is left alone, or rewritten by a backed commit. -/
theorem Reach.step_row (hr : Reach cond db₀ g) (hs : Step g e g₁) (run : RunId) (step : StepId) :
    g₁.db.steps run step = g.db.steps run step ∨
      ∃ t a l, e.Did t a ∧ StartedAs g.log e.pid l ∧ Backed l (ownOf g.log e.pid) (.write t) ∧
        Rewrites g.db t run step (g₁.db.steps run step) := by
  rcases hr.step_cases hs with hsame | ⟨t, a, hc⟩
  · exact .inl (by rw [hsame])
  · obtain ⟨w, hexec⟩ := hc.exec
    obtain ⟨l, hl, hb⟩ := hc.backed
    exact (Tx.exec_steps hexec run step).imp_right fun hrw => ⟨t, a, l, hc.did, hl, hb, hrw⟩

theorem Reach.step_leads (hr : Reach cond db₀ g) (hs : Step g e g₁) (run : RunId) (step : StepId) :
    (g.db.steps run step).Leads (g₁.db.steps run step) := by
  rcases hr.step_row hs run step with hsame | ⟨t, a, l, -, -, hb, hrw⟩
  · rw [hsame]
    exact StepRec.leads_refl _
  · exact hrw.leads hb

theorem Reach.leads (hr : Reach cond db₀ g) (hrun : Runs cond g g₁) (run : RunId) (step : StepId) :
    (g.db.steps run step).Leads (g₁.db.steps run step) :=
  hrun.keeps (P := fun g' => (g.db.steps run step).Leads (g'.db.steps run step))
    (fun _ _ _ hpre hs _ hl => hl.trans ((hr.extend hpre).step_leads hs run step))
    (StepRec.leads_refl _)

/-- The ids, the creation marks and the groups a store was made with. -/
def SameShape (d d' : Db) : Prop :=
  d'.runIds = d.runIds ∧ d'.stepIds = d.stepIds ∧ d'.creating = d.creating ∧
    d'.concurrency = d.concurrency

theorem Reach.step_shape (hr : Reach cond db₀ g) (hs : Step g e g₁) : SameShape g.db g₁.db := by
  rcases hr.step_cases hs with hsame | ⟨t, a, hc⟩
  · rw [hsame]
    exact ⟨rfl, rfl, rfl, rfl⟩
  · obtain ⟨w, hexec⟩ := hc.exec
    have hf := Tx.exec_frame hexec
    exact ⟨hf.runIds, hf.stepIds, hf.creating, hf.concurrency⟩

theorem Reach.shape (hr : Reach cond db₀ g) : SameShape db₀ g.db := by
  refine Runs.keeps (P := fun g' => SameShape db₀ g'.db) (fun g' _ g'' hpre hs _ hl => ?_) hr
    ⟨rfl, rfl, rfl, rfl⟩
  obtain ⟨h1, h2, h3, h4⟩ := Reach.step_shape hpre hs
  exact ⟨h1.trans hl.1, h2.trans hl.2.1, h3.trans hl.2.2.1, h4.trans hl.2.2.2⟩

theorem Reach.minted (hr : Reach cond db₀ g) (hrun : Runs cond g g₁)
    (hm : g.db.Minted run step attempt) : g₁.db.Minted run step attempt := by
  obtain ⟨a, ha, rfl⟩ := hm
  obtain ⟨a', ha', hid, -⟩ := (hr.leads hrun run step).attempts a ha
  exact ⟨a', ha', hid⟩

theorem Reach.step_inFlight (hr : Reach cond db₀ g) (hs : Step g e g₁)
    (hm : g.db.Minted run step attempt) (hf : g₁.db.InFlight run step attempt) :
    g.db.InFlight run step attempt := by
  rcases hr.step_row hs run step with hsame | ⟨t, a, l, -, -, hb, hrw⟩
  · rwa [Db.InFlight, hsame] at hf
  · obtain ⟨hst, a, hl, hid, ho⟩ := hf
    exact hrw.inFlight hb hm hst hl hid ho

theorem Reach.gateKind (hr : Reach cond db₀ g) (run : RunId) (step : StepId) :
    (g.db.steps run step).gateKind = (db₀.steps run step).gateKind :=
  (Reach.leads (g := Config.init db₀) .refl hr run step).gateKind

/-- A step a call saw has the kind the store was made with. -/
theorem Reach.sawStep_isGate {pid : ℕ} {s : StepRun} (hr : Reach cond db₀ g)
    (hs : Past.SawStep (ownOf g.log pid) run s) :
    s.gateKind = (db₀.steps run s.step).gateKind := by
  obtain ⟨steps, hsaw, hmem⟩ := hs
  obtain ⟨g₀, -, -, hr₀, rfl, -⟩ := hr.saw hsaw
  obtain ⟨-, heq⟩ := of_mem_stepsOfRun hmem
  rw [← hr₀.gateKind run s.step, heq]
  rfl

theorem Reach.sawGate {pid : ℕ} (hr : Reach cond db₀ g)
    (hs : Past.SawGate (ownOf g.log pid) run step) :
    (db₀.steps run step).gateKind ≠ none := by
  obtain ⟨s, hsaw, rfl, hg⟩ := hs
  rw [← hr.sawStep_isGate hsaw]
  intro hnone
  simp [StepRun.isGate, hnone] at hg

/-- A gate is never Ready and never Running. -/
theorem Reach.not_gate (hfresh : db₀.Fresh) (hr : Reach cond db₀ g)
    (hst : (g.db.steps run step).status = .ready ∨ (g.db.steps run step).status = .running) :
    (db₀.steps run step).gateKind = none := by
  induction hr with
  | refl =>
    have hp : ((Config.init db₀).db.steps run step).status = .pending := (hfresh.steps run step).1
    rw [hp] at hst
    rcases hst with h | h <;> cases h
  | @tail g₁ g₂ e init hs hm ih =>
    have hr : Reach cond db₀ g₁ := init
    rcases hr.step_row hs run step with heq | ⟨t, a, l, -, -, hb, -, heff⟩
    · rw [heq] at hst
      exact ih hst
    · generalize g₂.db.steps run step = r at heff hst
      cases heff with
      | moved t hrun hstep from_ frontier =>
        rcases hst with hto | hto
        · exact ih (.inr (from_.trans (StepMove.from_running_of_ready hb hto)))
        · exact absurd hto (StepMove.to_ne_running hb)
      | promoted leader signature events pending =>
        obtain ⟨⟨s, hsaw, rfl, hng⟩, -⟩ := hb
        rw [← hr.sawStep_isGate hsaw]
        simpa [StepRun.isGate] using hng
      | claimed leader limit now ready listed => exact ih (.inl ready)
      | resolved res attempt minted attempts pending wait =>
        simp only [Db.resolvedRec] at hst
        split_ifs at hst <;> rcases hst with h | h <;> cases h
      | waitOpened | closed | signed | output | results | ingested | failed => exact ih hst

/-- A run's status is left alone, or moved by a backed transition. -/
theorem Reach.step_run (hr : Reach cond db₀ g) (hs : Step g e g₁) (run : RunId) :
    g₁.db.runs run = g.db.runs run ∧ g₁.db.generations run = g.db.generations run ∨
      ∃ t l, e.Did (.commitRunTransition t) () ∧ t.run = run ∧ StartedAs g.log e.pid l ∧
        RunMove l (ownOf g.log e.pid) t ∧ g.db.runs run = t.from_ ∧ g₁.db.runs run = t.to_ ∧
        g₁.db.steps = g.db.steps ∧ run ∈ g.db.runIds ∧
        g₁.db.generations run = g.db.generations run + if t.from_.isTerminal then 1 else 0 := by
  rcases hr.step_cases hs with hsame | ⟨t, a, hc⟩
  · exact .inl (by rw [hsame]; exact ⟨rfl, rfl⟩)
  · obtain ⟨w, hexec⟩ := hc.exec
    obtain ⟨l, hl, hb⟩ := hc.backed
    have hf := Tx.exec_frame hexec
    cases ht : t.isRunMove with
    | false =>
      obtain ⟨h1, h2⟩ := hf.runs ht
      exact .inl (by rw [h1, h2]; exact ⟨rfl, rfl⟩)
    | true =>
      cases t with
      | commitRunTransition t =>
        obtain ⟨hmem, hfrom, hgen, hpost⟩ := Db.commitRunTransition_ok (Tx.done_eq_ok hexec)
        have hdb : g₁.db.runs = Function.update g.db.runs t.run t.to_ ∧
            g₁.db.generations = Function.update g.db.generations t.run
              (g.db.generations t.run + if t.from_.isTerminal then 1 else 0) ∧
            g₁.db.steps = g.db.steps := by
          rw [hpost, Db.enqueueAll_eq]
          exact ⟨rfl, rfl, rfl⟩
        by_cases hrun : t.run = run
        · subst hrun
          refine .inr ⟨t, l, hc.did, rfl, hl, hb.1, hfrom, ?_, hdb.2.2, hmem, ?_⟩
          · simp [hdb.1]
          · simp [hdb.2.1]
        · exact .inl (by simp [hdb.1, hdb.2.1, Ne.symm hrun])
      | _ => simp [Tx.isRunMove] at ht

end Scarab.Interleave
