import Scarab.EngineEvolution

/-!
# What a suspended run waits on

The suspend test searches the needs of each outstanding step for a waiting gate, keeping the
answers it has found. What it accepts is a run with nothing to do but wait.
-/
namespace Scarab.Engine

open Interleave

/-- The step is a gate that waits for its verdict: every need of it has Succeeded. -/
structure Db.Waiting (db : Db) (run : RunId) (step : StepId) : Prop where
  known : step ∈ db.stepIds run
  gate : (db.steps run step).gateKind.isSome = true
  pending : (db.steps run step).status = .pending
  reached : ∀ n ∈ (db.steps run step).needs, n ∈ db.stepIds run ∧
    (db.steps run n).status = .succeeded

/-- A chain of needs leads from the step to a waiting gate, through steps that are not done. -/
inductive Db.BehindGate (db : Db) (run : RunId) : StepId → Prop
  | next {step n : StepId} (need : n ∈ (db.steps run step).needs) (waits : db.Waiting run n) :
      db.BehindGate run step
  | further {step n : StepId} (need : n ∈ (db.steps run step).needs)
      (known : n ∈ db.stepIds run) (live : (db.steps run n).status.isTerminal = false)
      (behind : db.BehindGate run n) : db.BehindGate run step

/-- No step of the run is Ready or Running, and each one that is not done waits on a gate. -/
structure Db.WaitsOnGates (db : Db) (run : RunId) : Prop where
  idle : ∀ step ∈ db.stepIds run, (db.steps run step).status ≠ .ready ∧
    (db.steps run step).status ≠ .running
  waits : ∀ step ∈ db.stepIds run, (db.steps run step).status.isTerminal = false →
    db.Waiting run step ∨ db.BehindGate run step
  some_ : ∃ step, db.Waiting run step

section search

variable {db : Db} {run : RunId} {waiting : List StepId}

theorem find?_stepsOfRun_eq_none {step : StepId} (h : step ∉ db.stepIds run) :
    (db.stepsOfRun run).find? (·.step = step) = none := by
  rw [List.find?_eq_none]
  intro s hs hstep
  obtain ⟨hmem, -⟩ := of_mem_stepsOfRun hs
  rw [of_decide_eq_true hstep] at hmem
  exact h hmem

/-- The answers found so far are right where they say yes. -/
def SoundMemo (db : Db) (run : RunId) (memo : List (StepId × Bool)) : Prop :=
  ∀ x ∈ memo, x.2 = true → db.BehindGate run x.1

theorem SoundMemo.cons {memo : List (StepId × Bool)} (hm : SoundMemo db run memo) {id : StepId}
    {b : Bool} (hb : b = true → db.BehindGate run id) : SoundMemo db run ((id, b) :: memo) := by
  intro x hx
  rcases List.mem_cons.mp hx with rfl | hx
  · exact hb
  · exact hm x hx

theorem behindWaitingGate_sound (hw : ∀ id ∈ waiting, db.Waiting run id) (n : ℕ) :
    ∀ (id : StepId) (memo : List (StepId × Bool)), SoundMemo db run memo →
      ((behindWaitingGate (db.stepsOfRun run) waiting n id memo).1 = true →
        db.BehindGate run id) ∧
      SoundMemo db run (behindWaitingGate (db.stepsOfRun run) waiting n id memo).2 := by
  induction n with
  | zero => exact fun id memo hm => ⟨by simp [behindWaitingGate], hm⟩
  | succ n ih =>
    intro id memo hm
    simp only [behindWaitingGate]
    cases hfound : memo.find? (·.1 = id) with
    | some x =>
      obtain ⟨id', b⟩ := x
      have hid : id' = id := by simpa using List.find?_some hfound
      exact ⟨fun hb => hid ▸ hm _ (List.mem_of_find?_eq_some hfound) hb, hm⟩
    | none =>
      by_cases hmem : id ∈ db.stepIds run
      · rw [find?_stepsOfRun hmem]
        dsimp only
        -- over the needs, a yes comes from one of them
        have hkeep : ∀ out : Bool × List (StepId × Bool),
            (out.1 = true → db.BehindGate run id) ∧ SoundMemo db run out.2 →
              (out.1 = true → db.BehindGate run id) ∧ SoundMemo db run ((id, out.1) :: out.2) :=
          fun out h => ⟨h.1, h.2.cons h.1⟩
        refine hkeep _ (List.foldlRecOn (motive := fun acc : Bool × List (StepId × Bool) =>
          (acc.1 = true → db.BehindGate run id) ∧ SoundMemo db run acc.2) _ _ ?_ ?_)
        · exact ⟨by simp, hm.cons (by simp)⟩
        · intro acc hacc m hneed
          split_ifs with hyes hwait
          · exact hacc
          · exact ⟨fun _ => .next hneed (hw m hwait), hacc.2⟩
          · by_cases hm' : m ∈ db.stepIds run
            · rw [find?_stepsOfRun hm']
              dsimp only
              split_ifs with hterm
              · exact ⟨by simp, hacc.2⟩
              · obtain ⟨hyes', hmemo⟩ := ih m acc.2 hacc.2
                refine ⟨fun hb => .further hneed hm' ?_ (hyes' hb), hmemo⟩
                simpa [Db.stepRun] using hterm
            · rw [find?_stepsOfRun_eq_none hm']
              exact ⟨by simp, hacc.2⟩
      · rw [find?_stepsOfRun_eq_none hmem]
        exact ⟨by simp, hm.cons (by simp)⟩

/-- The fold over the outstanding steps says yes only when each is Pending and behind a gate. -/
theorem outstanding_behind {steps : ℕ} (hw : ∀ id ∈ waiting, db.Waiting run id)
    (xs : List StepRun) (acc : Bool × List (StepId × Bool)) (hm : SoundMemo db run acc.2)
    (hb : (xs.foldl (fun (acc : Bool × List (StepId × Bool)) s =>
      if !acc.1 then acc
      else if s.status ≠ .pending then (false, acc.2)
      else behindWaitingGate (db.stepsOfRun run) waiting steps s.step acc.2) acc).1 = true) :
    acc.1 = true ∧ ∀ s ∈ xs, s.status = .pending ∧ db.BehindGate run s.step := by
  induction xs generalizing acc with
  | nil => exact ⟨hb, by simp⟩
  | cons s xs ih =>
    rw [List.foldl_cons] at hb
    by_cases hacc : acc.1 = true
    · by_cases hst : s.status = .pending
      · rw [if_neg (by simp [hacc]), if_neg (by simp [hst])] at hb
        obtain ⟨hyes, hmemo⟩ := behindWaitingGate_sound hw steps s.step acc.2 hm
        obtain ⟨hthis, hrest⟩ := ih _ hmemo hb
        refine ⟨hacc, fun x hx => ?_⟩
        rcases List.mem_cons.mp hx with rfl | hx
        · exact ⟨hst, hyes hthis⟩
        · exact hrest x hx
      · rw [if_neg (by simp [hacc]), if_pos hst] at hb
        exact absurd (ih (false, acc.2) hm hb).1 (by simp)
    · rw [if_pos (by simpa using hacc)] at hb
      exact absurd (ih acc hm hb).1 hacc

/-- What the suspend test accepts. -/
theorem waitsOnGates_of_onlyWaits (h : onlyWaitsOutstanding (db.stepsOfRun run) = true) :
    db.WaitsOnGates run := by
  simp only [onlyWaitsOutstanding] at h
  generalize hwaiting : ((db.stepsOfRun run).filter fun s => decide (s.status = .pending ∧
    (s.needs.all fun id => ((db.stepsOfRun run).find? (·.step = id)).any fun s =>
      s.status = .succeeded) = true ∧ s.isGate = true)).map (·.step) = waiting at h
  have hw : ∀ id ∈ waiting, db.Waiting run id := by
    intro id hid
    rw [← hwaiting] at hid
    obtain ⟨s, hs, rfl⟩ := List.mem_map.mp hid
    obtain ⟨hs, hdec⟩ := List.mem_filter.mp hs
    obtain ⟨hpending, hneeds, hgate⟩ := of_decide_eq_true hdec
    obtain ⟨hmem, heq⟩ := of_mem_stepsOfRun hs
    rw [heq] at hpending hneeds hgate
    refine ⟨hmem, hgate, hpending, fun n hn => ?_⟩
    have hsucc := List.all_eq_true.mp hneeds n hn
    by_cases hnmem : n ∈ db.stepIds run
    · rw [find?_stepsOfRun hnmem] at hsucc
      exact ⟨hnmem, by simpa [Db.stepRun] using hsucc⟩
    · rw [find?_stepsOfRun_eq_none hnmem] at hsucc
      simp at hsucc
  split_ifs at h with hempty
  obtain ⟨-, hall⟩ := outstanding_behind hw _ (true, []) (fun x hx => absurd hx (by simp)) h
  have hout : ∀ step ∈ db.stepIds run, (db.steps run step).status.isTerminal = false →
      step ∈ waiting ∨ (db.steps run step).status = .pending ∧ db.BehindGate run step := by
    intro step hstep hlive
    by_cases hwait : step ∈ waiting
    · exact .inl hwait
    · refine .inr (hall (db.stepRun run step) (List.mem_filter.mpr ⟨mem_stepsOfRun hstep, ?_⟩))
      simp [Db.stepRun, hlive, hwait]
  constructor
  · intro step hstep
    have hbusy : (db.steps run step).status.isTerminal = false →
        (db.steps run step).status = .pending := by
      intro hlive
      rcases hout step hstep hlive with hwait | hpend
      · exact (hw step hwait).pending
      · exact hpend.1
    constructor
    · intro hst
      rw [hst] at hbusy
      cases hbusy rfl
    · intro hst
      rw [hst] at hbusy
      cases hbusy rfl
  · intro step hstep hlive
    exact (hout step hstep hlive).imp (hw step) And.right
  · obtain ⟨id, hid⟩ := List.exists_mem_of_ne_nil _ hempty
    exact ⟨id, hw id hid⟩

end search
end Scarab.Engine

namespace Scarab.Interleave

open Engine

variable {cond : Config engine → Entry engine → Prop} {g g₁ : Config engine} {e : Entry engine}
  {db₀ : Db}

/-- A run whose steps all left the state alone ends where it began. -/
theorem Runs.state_eq {M : Machine} {cond : Config M → Entry M → Prop} {g g₁ : Config M}
    (h : Runs cond g g₁) {mid : List (Entry M)} (hlog : g₁.log = mid ++ g.log)
    (hstill : ∀ x ∈ mid, x.after = x.before) : g₁.state = g.state := by
  induction h generalizing mid with
  | refl => rfl
  | tail init step meets ih =>
    obtain ⟨newer, hnewer⟩ := init.log_eq
    rw [step.log_eq, hnewer, ← List.cons_append] at hlog
    obtain rfl := List.append_cancel_right hlog
    rw [← step.after_eq, hstill _ List.mem_cons_self, step.before_eq]
    exact ih hnewer fun x hx => hstill x (List.mem_cons_of_mem _ hx)

/-- A step that is not a commit leaves the store alone. -/
theorem Step.still (hs : Step g e g₁) (hno : ∀ t r, e.what ≠ .did (.write t) r) :
    e.after = e.before := by
  rw [hs.after_eq, hs.before_eq]
  rcases hs.state_cases with ⟨hsame, -⟩ | ⟨c, r, w, hw, hresp⟩
  · exact hsame
  · cases c with
    | read q =>
      simp only [engine, respond] at hresp
      split at hresp <;> exact (Prod.mk.inj hresp).2.symm
    | ask q => exact (Prod.mk.inj hresp).2.symm
    | write t => exact absurd hw (hno t r)

/-- The call's last read of the run's steps: it found all of them done or waiting on gates, and
since then the call has read the reopen generation and the clock, and nothing else. -/
structure SuspendRead (run : RunId) (pid : ℕ) (mid : List (Entry engine)) (r : Entry engine) :
    Prop where
  own : r.pid = pid
  read_ : r.what = .did (.read (.stepsOfRun run)) (.ok (r.pre.stepsOfRun run))
  waits : r.pre.WaitsOnGates run
  since : ∃ generation at_, ownOf mid pid =
    [⟨.read (.runReopenGeneration run), .ok generation⟩, ⟨.ask .now, at_⟩]

/-- A run is suspended by a call that has just read its steps, all waiting on gates then; they
still are unless another call came in between. -/
theorem Reach.suspended_waits (hr : Reach cond db₀ g) (hs : Step g e g₁) {t : RunTransition}
    (hd : e.Did (.commitRunTransition t) ()) (hto : t.to_ = .suspended) :
    ∃ mid r older, g.log = mid ++ r :: older ∧ SuspendRead t.run e.pid mid r ∧
      ((∀ x ∈ mid, x.pid = e.pid) → g.db = r.pre) := by
  obtain ⟨l, -, hm, -⟩ := hs.justified hr.backed hd
  generalize ht : t = t' at hm
  cases hm with
  | suspend leader run at_ generation waits =>
    subst ht
    obtain ⟨steps, generation, at_, older, hpast, hwaits⟩ := waits
    have hsplit : ownOf g.log e.pid = [⟨.read (.runReopenGeneration run), .ok generation⟩,
        ⟨.ask .now, at_⟩] ++ ⟨.read (.stepsOfRun run), .ok steps⟩ :: older := hpast
    obtain ⟨gr, er, gr₁, mid, hrr, hsr, -, hrun, hlog, hpid, hw, hmid, -⟩ :=
      hr.moment_split hsplit
    obtain ⟨rfl, hsame⟩ := hsr.read_eq hw
    have hpre : er.pre = gr.db := hsr.before_eq
    refine ⟨mid, er, gr.log, hlog, ⟨hpid, ?_, ?_, generation, at_, hmid⟩, fun hown => ?_⟩
    · rw [hpre]
      exact hw
    · rw [hpre]
      exact waitsOnGates_of_onlyWaits hwaits
    · have hstate : g.state = gr₁.state := by
        have hsince : g.log = mid ++ gr₁.log := by rw [hsr.log_eq, hlog]
        refine hrun.state_eq hsince fun x hx => ?_
        obtain ⟨newer, older', hsplit⟩ := List.append_of_mem
          (show x ∈ g.log from hlog ▸ List.mem_append_left _ hx)
        obtain ⟨gx, gx₁, -, hsx, -⟩ := hr.at_entry hsplit
        refine hsx.still fun t r hwx => ?_
        have hin : (⟨.write t, r⟩ : Exchange Cmd Resp) ∈ ownOf mid e.pid :=
          mem_ownOf.mpr ⟨x, hx, hown x hx, hwx⟩
        rw [hmid] at hin
        simp at hin
      rw [hpre, ← hsame]
      exact hstate
  | settle run from_ steps =>
    rw [ht] at hto
    simp only [runTransition, settledAs] at hto
    split_ifs at hto
  | _ =>
    rw [ht] at hto
    cases hto

end Scarab.Interleave
