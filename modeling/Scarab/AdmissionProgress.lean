import Scarab.AdmissionAlone
import Scarab.RunSettlement

/-!
# Admission makes progress

A pass of the leader over a run in which nothing runs and no gate is waiting moves a step, or
ends the run. One pass may bring a gate back and skip it again; the next one cannot.
-/
namespace Scarab.Engine

open Interleave

section decide

variable {run : RunId} {db : Db} {leader : LeaderTerm}

/-- No step of the run uses a shared service. -/
def Db.NoUses (db : Db) (run : RunId) : Prop :=
  ∀ step ∈ db.stepIds run, ∀ spec, (db.steps run step).spec = some spec → spec.uses = []

theorem mem_filter_stepsOfRun {p : StepRun → Bool} {s : StepId} :
    s ∈ ((db.stepsOfRun run).filter p).map (·.step) ↔
      s ∈ db.stepIds run ∧ p (db.stepRun run s) = true := by
  simp only [List.mem_map, List.mem_filter]
  constructor
  · rintro ⟨x, ⟨hx, hp⟩, rfl⟩
    obtain ⟨hmem, heq⟩ := of_mem_stepsOfRun hx
    exact ⟨hmem, heq ▸ hp⟩
  · rintro ⟨hmem, hp⟩
    exact ⟨_, ⟨mem_stepsOfRun hmem, hp⟩, rfl⟩

/-- The loop that skips the gates with a dead need. -/
theorem alone_skipDeadGates : AloneOk (Prog.forEach ((db.stepsOfRun run).filter fun s =>
      decide (s.status = .pending ∧ s.isGate = true ∧ depDead (db.stepsOfRun run) s = true))
      fun s => transitionStep run s.step .pending .skipped) db
    fun _ d => Steady run db d ∧ ∀ s,
      (¬(s ∈ db.stepIds run ∧ (db.steps run s).status = .pending ∧
          (db.steps run s).gateKind.isSome = true ∧
          depDead (db.stepsOfRun run) (db.stepRun run s) = true) → Spares run s db d) ∧
      (Dull run s db → Dull run s d) ∧
      (s ∈ db.stepIds run → (db.steps run s).status = .pending →
        (db.steps run s).gateKind.isSome = true →
        depDead (db.stepsOfRun run) (db.stepRun run s) = true →
          (d.steps run s).status = .skipped ∧
            Gained run s .pending .skipped db.events d.events) := by
  refine aloneOk_mono (alone_forEach_decides run (fun _ st => st = .skipped)
    fun x hx d hd => ?_) fun _ d hd => ?_
  · have hmem : x.step ∈ d.stepIds run := by
      rw [hd.stepIds]
      exact (of_mem_stepsOfRun (List.mem_filter.mp hx).1).1
    exact alone_transition_decides hmem (by simp) rfl (.inr rfl)
  · refine ⟨hd.1, fun s => ⟨fun hno => (hd.2 s).1 fun hin => hno ?_, (hd.2 s).2.1,
      fun hknown hp hgate hdead => ?_⟩⟩
    · obtain ⟨hknown, hdec⟩ := mem_filter_stepsOfRun.mp hin
      exact ⟨hknown, of_decide_eq_true hdec⟩
    · obtain ⟨hskipped, hgained⟩ := (hd.2 s).2.2
        (mem_filter_stepsOfRun.mpr ⟨hknown, decide_eq_true ⟨hp, hgate, hdead⟩⟩) hp
      rw [hskipped] at hgained
      exact ⟨hskipped, hgained (by simp)⟩

/-- One Pending step of the snapshot: it is moved when its needs decide it. -/
theorem alone_admitStep {d : Db} {x : StepRun} (identityOf : List (StepId × Option Text))
    (rows : List RunService) (hx : x ∈ db.stepsOfRun run) (hlead : d.lease = some leader)
    (huses : d.NoUses run) (hids : d.stepIds = db.stepIds) :
    AloneOk (admitStep leader run (db.stepsOfRun run) identityOf rows x) d fun _ d' =>
      Decides run x.step (fun st => depsSatisfied (db.stepsOfRun run) x = true ∨
        depDead (db.stepsOfRun run) x = true → st ≠ .pending) d d' := by
  have hmem : x.step ∈ d.stepIds run := by
    rw [hids]
    exact (of_mem_stepsOfRun hx).1
  simp only [admitStep]
  split_ifs with hsat hdead
  · refine alone_read ?_
    have hspec : (((Query.stepSpec run x.step).eval d).map (·.uses)).getD [] = [] := by
      simp only [Query.eval, hmem, if_true]
      cases hs : (d.steps run x.step).spec with
      | none => rfl
      | some spec => exact huses x.step hmem spec hs
    rw [hspec]
    have hready : bindServices rows [] = .ready := by simp [bindServices]
    rw [hready]
    refine alone_read (alone_read ?_)
    split_ifs
    · refine alone_transition_decides hmem (fun s hs k hk at_ => ?_) (by simp) (.inl (by simp))
      obtain rfl := List.mem_singleton.mp hk
      simpa [Event.ignoredBy] using hs.symm
    · refine alone_ask fun at_ => alone_commitOrLose (fun w a d' hexec => ?_) (fun w hexec => ?_)
        fun w e hexec => ?_
      · obtain ⟨-, hp, rfl⟩ := Db.promoteStep_ok (Tx.done_eq_ok hexec)
        have hignored : ∀ s, s ≠ x.step → ∀ e ∈ eventsAt run at_ [.stepTransitioned x.step .pending
            .ready], e.ignoredBy s = true := by
          intro s hs e he
          obtain rfl := List.mem_singleton.mp he
          simpa [Event.ignoredBy] using hs.symm
        have htouch := touches_setStep (r := { d.steps run x.step with
          status := .ready, input := some (inputSignature x.needs
            ((Query.stepInputs run x.step).eval d) identityOf) }) rfl rfl rfl hignored
        refine ⟨htouch.steady, htouch.others, fun _ _ => by simp [Db.journal], fun hn => absurd hp hn,
          fun _ => unneededSkip_move [] .pending at_ htouch.events (by simp), fun _ _ => ?_⟩
        simpa [Db.journal] using
          @gained_of_appended run x.step .pending .ready _ _ at_ [] htouch.events
      · have hlost := Tx.done_eq_error hexec
        simp only [Db.promoteStep, hlead, ne_eq, not_true_eq_false, if_false] at hlost
        split_ifs at hlost with hno
        have hdone : (d.steps run x.step).status ≠ .pending := hno.resolve_left (not_not.mpr hmem)
        exact ⟨.refl run d, fun s _ => .refl run s d, fun hp => absurd hp hdone, fun _ => rfl, id,
          fun hp => absurd hp hdone⟩
      · have herr := Tx.done_eq_error hexec
        simp only [Db.promoteStep, hlead, ne_eq, not_true_eq_false, if_false] at herr
        split_ifs at herr
        exact (Except.error.inj herr).symm
  · exact alone_transition_decides hmem (by simp) (by simp) (.inr rfl)
  · refine aloneOk_pure (.of_spares (.refl run d) (fun s => .refl run s d) fun _ hno => ?_)
    exact absurd hno (not_or.mpr ⟨hsat, hdead⟩)

/-- The needs of the step decide it: all have Succeeded, or one never will. -/
def Db.Decided (db : Db) (run : RunId) (step : StepId) : Prop :=
  depsSatisfied (db.stepsOfRun run) (db.stepRun run step) = true ∨
    depDead (db.stepsOfRun run) (db.stepRun run step) = true

/-- The loop over the Pending steps of the snapshot that are no gates. -/
theorem alone_admitPending {d : Db} {identityOf : List (StepId × Option Text)}
    {rows : List RunService} (hlead : d.lease = some leader) (huses : d.NoUses run)
    (hids : d.stepIds = db.stepIds) :
    AloneOk (Prog.forEach ((db.stepsOfRun run).filter fun s =>
        decide (s.status = .pending ∧ (!s.isGate) = true))
      (admitStep leader run (db.stepsOfRun run) identityOf rows)) d
    fun _ d' => Steady run d d' ∧ ∀ s,
      (¬(s ∈ db.stepIds run ∧ (db.steps run s).status = .pending ∧
          (db.steps run s).gateKind.isSome = false) → Spares run s d d') ∧
      (Dull run s d → Dull run s d') ∧
      (s ∈ db.stepIds run → (db.steps run s).status = .pending →
        (db.steps run s).gateKind.isSome = false → db.Decided run s →
        (d.steps run s).status = .pending → (d'.steps run s).status ≠ .pending) := by
  refine aloneOk_mono (alone_forEach_decides run (fun s st => db.Decided run s → st ≠ .pending)
    fun x hx d' hd => ?_) fun _ d' hd => ?_
  · have hmem := (List.mem_filter.mp hx).1
    have hrow := (of_mem_stepsOfRun hmem).2
    have hdecides := alone_admitStep identityOf rows hmem
      (hd.lease.trans hlead)
      (fun s hs spec hspec => huses s (hd.stepIds ▸ hs) spec (by rw [← hd.spec]; exact hspec))
      (hd.stepIds.trans hids)
    rw [Db.Decided, ← hrow]
    exact hdecides
  · refine ⟨hd.1, fun s => ⟨fun hno => (hd.2 s).1 fun hin => hno ?_, (hd.2 s).2.1,
      fun hknown hp hgate hdecided hd' => ((hd.2 s).2.2 ?_ hd').1 hdecided⟩⟩
    · obtain ⟨hknown, hdec⟩ := mem_filter_stepsOfRun.mp hin
      obtain ⟨hp, hgate⟩ := of_decide_eq_true hdec
      exact ⟨hknown, hp, by simpa [StepRun.isGate, Db.stepRun] using hgate⟩
    · refine mem_filter_stepsOfRun.mpr ⟨hknown, decide_eq_true ⟨hp, ?_⟩⟩
      simpa [StepRun.isGate, Db.stepRun] using hgate

/-- Claiming changes only Ready steps. -/
theorem claim_effect (run : RunId) (db : Db) (limit : ℕ) (at_ : Timestamp) :
    Steady run db ((db.claimable limit).foldl (Db.launchClaimed at_) db) ∧ ∀ s,
      (Dull run s db → Dull run s ((db.claimable limit).foldl (Db.launchClaimed at_) db)) ∧
      ((db.steps run s).status ≠ .ready →
        Spares run s db ((db.claimable limit).foldl (Db.launchClaimed at_) db)) ∧
      ((db.steps run s).status = .ready →
        (((db.claimable limit).foldl (Db.launchClaimed at_) db).steps run s).status ≠ .pending) := by
  have hframe := Db.claim_frame at_ (db.claimable limit) db
  have hrows := db.claim_steps limit at_ run
  generalize (db.claimable limit).foldl (Db.launchClaimed at_) db = d at hframe hrows
  have hskip : ∀ s bare, d.unneededSkip run s bare = db.unneededSkip run s bare := by
    intro s bare
    refine unneededSkip_append (by rw [hframe]) (fun e he _ => ?_) bare
    obtain ⟨x, -, hx⟩ := List.mem_flatMap.mp he
    obtain rfl := List.mem_singleton.mp hx
    rfl
  have hkeep : ∀ s, (d.steps run s).needs = (db.steps run s).needs ∧
      (d.steps run s).gateKind = (db.steps run s).gateKind ∧
      (d.steps run s).spec = (db.steps run s).spec := by
    intro s
    rcases hrows s with hsame | ⟨hclaimed, -⟩
    · rw [hsame]
      exact ⟨rfl, rfl, rfl⟩
    · rw [hclaimed]
      exact ⟨rfl, rfl, rfl⟩
  refine ⟨⟨by rw [hframe], by rw [hframe], by rw [hframe], by rw [hframe], by rw [hframe],
    fun s => (hkeep s).1, fun s => (hkeep s).2.1, fun s => (hkeep s).2.2⟩, fun s => ⟨fun hd bare =>
    (hskip s bare).trans (hd bare), fun hne => ?_, fun hready => ?_⟩⟩
  · rcases hrows s with hsame | ⟨-, hready, -⟩
    · exact ⟨by rw [hsame], by rw [hsame], hskip s⟩
    · exact absurd hready hne
  · rcases hrows s with hsame | ⟨hclaimed, -⟩
    · rw [hsame, hready]
      simp
    · rw [hclaimed]
      simp [Db.claimedRec]

/-- The run is suspended only when nothing but waits is left; the steps stay as they are. -/
theorem alone_suspendIfWaiting {steps : List StepRun} (hlead : db.lease = some leader)
    (hmem : run ∈ db.runIds) (hrun : db.runs run = .running) :
    AloneOk (suspendIfWaiting leader run steps) db fun _ d => d = db ∨
      db.WaitsOnGates run ∧ d.steps = db.steps ∧ d.runIds = db.runIds ∧
        d.runs run = .suspended := by
  unfold suspendIfWaiting
  split_ifs
  · refine alone_read ?_
    split_ifs with hwaits
    · refine alone_ask fun at_ => aloneOk_mono (alone_commitRunTransitionAfter
        (fun l hl => hl ▸ hlead) hmem hrun) fun _ d hd => ?_
      obtain ⟨t, hok, ht, hto, -⟩ := hd
      have hruns := runs_commitRunTransition hok
      rw [ht, hto] at hruns
      obtain ⟨-, -, -, rfl⟩ := Db.commitRunTransition_ok hok
      rw [Db.enqueueAll_eq] at hruns ⊢
      exact .inr ⟨waitsOnGates_of_onlyWaits hwaits, rfl, rfl, hruns⟩
    · exact aloneOk_pure (.inl rfl)
  · exact aloneOk_pure (.inl rfl)

/-- What deciding the steps, and the claim behind it, does to each step. -/
structure Admitted (run : RunId) (db d : Db) : Prop where
  steady : Steady run db d
  dull : ∀ s, Dull run s db → Dull run s d
  ended : ∀ s, (db.steps run s).status.isTerminal = true → Spares run s db d
  dead : ∀ s ∈ db.stepIds run, (db.steps run s).status = .pending →
    (db.steps run s).gateKind.isSome = true →
    depDead (db.stepsOfRun run) (db.stepRun run s) = true → (d.steps run s).status = .skipped ∧
      Gained run s .pending .skipped db.events d.events
  waiting : ∀ s ∈ db.stepIds run, (db.steps run s).status = .pending →
    (db.steps run s).gateKind.isSome = true →
    depDead (db.stepsOfRun run) (db.stepRun run s) = false → (d.steps run s).status = .pending
  decided : ∀ s ∈ db.stepIds run, (db.steps run s).status = .pending →
    (db.steps run s).gateKind.isSome = false → db.Decided run s →
    (d.steps run s).status ≠ .pending

theorem alone_admitSteps {cfg : SchedulerConfig} (hlead : db.lease = some leader)
    (hmem : run ∈ db.runIds) (hrun : db.runs run = .running) (huses : db.NoUses run) :
    AloneOk (admitSteps cfg leader run) db fun _ d =>
      ∃ d₀, Admitted run db d₀ ∧ (d = d₀ ∨ d₀.WaitsOnGates run ∧ d.steps = d₀.steps ∧
        d.runIds = d₀.runIds ∧ d.runs run = .suspended) := by
  refine alone_read ?_
  refine Prog.solo_seq alone_skipDeadGates fun _ d₁ h₁ => ?_
  obtain ⟨hs₁, h₁⟩ := h₁
  have hcollect : AloneOk (Prog.collect (db.stepsOfRun run) (readIdentity run)) d₁
      fun _ d => d₁ = d :=
    aloneOk_mono (Prog.solo_collect fun x _ => alone_read (Q := fun _ d => d = d₁)
      (aloneOk_pure rfl)) fun _ _ hd => hd.symm
  refine Prog.solo_seq hcollect fun identityOf d hd => ?_
  subst hd
  refine alone_read ?_
  refine Prog.solo_seq (aloneOk_grows (alone_admitPending (hs₁.lease.trans hlead)
    (fun s hs spec hspec => huses s (hs₁.stepIds ▸ hs) spec (by rw [← hs₁.spec]; exact hspec))
    hs₁.stepIds)) fun _ d₂ h₂ => ?_
  obtain ⟨⟨hs₂, h₂⟩, hgrow₂⟩ := h₂
  refine alone_ask fun at_ => alone_commit (fun w claimed d₃ hexec => ?_) fun w e hexec => ?_
  · have hgrow₃ : d₂.events <+: d₃.events := by
      rw [(Tx.exec_frame hexec).events]
      exact List.prefix_append _ _
    obtain ⟨-, rfl⟩ := Db.claimReadySteps_ok hexec
    obtain ⟨hs₃, h₃⟩ := claim_effect run d₂ cfg.outboxBatch at_
    generalize (d₂.claimable cfg.outboxBatch).foldl (Db.launchClaimed at_) d₂ = d₃ at hs₃ h₃ hgrow₃
    have hsteady := (hs₁.trans hs₂).trans hs₃
    refine aloneOk_mono (alone_suspendIfWaiting (hsteady.lease.trans hlead)
      (by rw [hsteady.runIds]; exact hmem) (by rw [hsteady.runs]; exact hrun)) fun _ d hd => ?_
    refine ⟨d₃, ⟨hsteady, fun s hd => (h₃ s).1 ((h₂ s).2.1 ((h₁ s).2.1 hd)), fun s hterm => ?_,
      fun s hs hp hgate hdead => ?_, fun s hs hp hgate hdead => ?_, fun s hs hp hgate hdec => ?_⟩,
      hd⟩
    · have hnp : (db.steps run s).status ≠ .pending := fun hp => by
        rw [hp] at hterm
        cases hterm
      have hs1 := (h₁ s).1 fun hc => hnp hc.2.1
      have hs2 := hs1.trans ((h₂ s).1 fun hc => hnp hc.2.1)
      refine hs2.trans ((h₃ s).2.1 fun hr => ?_)
      rw [hs2.status] at hr
      rw [hr] at hterm
      cases hterm
    · obtain ⟨hs1, hgained⟩ := (h₁ s).2.2 hs hp hgate hdead
      have hs2 := ((h₂ s).1 fun hc => by simp [hgate] at hc).status.trans hs1
      exact ⟨((h₃ s).2.1 (by rw [hs2]; simp)).status.trans hs2,
        hgained.upto (hgrow₂.trans hgrow₃)⟩
    · have hs1 := ((h₁ s).1 fun hc => Bool.noConfusion (hc.2.2.2.symm.trans hdead)).status.trans hp
      have hs2 := ((h₂ s).1 fun hc => by simp [hgate] at hc).status.trans hs1
      exact ((h₃ s).2.1 (by rw [hs2]; simp)).status.trans hs2
    · have hs1 := ((h₁ s).1 fun hc => by simp [hgate] at hc).status.trans hp
      have hs2 := (h₂ s).2.2 hs hp hgate hdec hs1
      by_cases hready : (d₂.steps run s).status = .ready
      · exact (h₃ s).2.2 hready
      · rw [((h₃ s).2.1 hready).status]
        exact hs2
  · simp only [Tx.exec, Db.claimReadySteps, hs₂.lease, hs₁.lease, hlead, ne_eq, not_true_eq_false,
      if_false] at hexec
    cases hexec

end decide

section settle

variable {run : RunId} {db : Db}

theorem teardownServices_issues (leader : Option LeaderTerm) (run : RunId) :
    (teardownServices leader run).Issues fun c => ∀ t, c = .write t → t.isRunMove = false := by
  refine Prog.Issues.bind ⟨by simp, fun r => ?_⟩ fun rows => Prog.Issues.forEach fun r _ => ?_
  · cases r <;> trivial
  · refine Prog.Issues.bind ?_ fun _ => ⟨by rintro t ⟨⟩; rfl, fun r => ?_⟩
    · unfold stopServiceUnit
      split
      · trivial
      · exact Prog.Issues.bind ⟨by simp, fun _ => trivial⟩ fun r => by cases r <;> trivial
    · cases r <;> trivial

theorem freeSlot_issues (run : RunId) :
    (freeSlot run).Issues fun c => ∀ t, c = .write t → t.isRunMove = false := by
  refine Prog.Issues.bind ⟨by simp, fun r => ?_⟩ fun c => ?_
  · cases r <;> trivial
  · split
    · trivial
    · exact ⟨by rintro t ⟨⟩; rfl, fun r => by cases r <;> trivial⟩

/-- What moves no run keeps a run's status. -/
theorem respond_runs {c : Cmd} (hc : ∀ t, c = .write t → t.isRunMove = false) (w : Answer) :
    (respond c w db).2.runs = db.runs := by
  cases c with
  | read q => simp only [respond]; split <;> rfl
  | ask q => rfl
  | write t =>
    simp only [respond]
    split
    · rfl
    · split
      · next a d hexec => exact ((Tx.exec_frame hexec).runs (hc t rfl)).1
      · rfl

theorem alone_readRun {α : Type} {Q : Except Err α → Db → Prop}
    {f : Option RunStatus → Eff α} (hmem : run ∈ db.runIds)
    (h : Alone (f (some (db.runs run))) db Q) : Alone ((read (.runStatus run)).bind f) db Q := by
  intro w hw
  simp only [respond, hw, Query.eval, Db.runStatus, hmem, if_true]
  exact h

theorem alone_journalVerdictless (steps : List StepRun) :
    AloneOk (journalVerdictless run steps) db fun _ d => d.runs = db.runs ∧ d.runIds = db.runIds := by
  unfold journalVerdictless
  split_ifs
  · refine alone_ask fun at_ w hw => ?_
    simp only [respond, hw, Tx.exec, Tx.done]
    exact ⟨(), rfl, rfl, rfl⟩
  · exact aloneOk_pure ⟨rfl, rfl⟩

/-- Settlement ends the run once every step is terminal, and does nothing before. -/
theorem alone_advance (hmem : run ∈ db.runIds) (hrun : (db.runs run).isTerminal = false) :
    Alone (advance run) db fun _ d => (d.runs run).isTerminal = true ∨
      d = db ∧ (db.stepIds run = [] ∨
        ∃ s ∈ db.stepIds run, (db.steps run s).status.isTerminal = false) := by
  intro w hw
  simp only [respond, hw]
  show Alone (if (db.stepsOfRun run) = [] ∨ (!(db.stepsOfRun run).all (·.status.isTerminal)) = true
    then Prog.ok () else _) db _
  split_ifs with hwait
  · refine Or.inr ⟨rfl, ?_⟩
    rcases hwait with hnil | hlive
    · exact .inl (List.map_eq_nil_iff.mp hnil)
    · right
      simp only [Bool.not_eq_true', List.all_eq_false] at hlive
      obtain ⟨x, hx, hlive⟩ := hlive
      obtain ⟨hmem, heq⟩ := of_mem_stepsOfRun hx
      rw [heq] at hlive
      exact ⟨x.step, hmem, by simpa [Db.stepRun] using hlive⟩
  · refine alone_readRun hmem ?_
    simp only [hrun, Bool.false_eq_true, if_false]
    refine Prog.solo_seq (alone_journalVerdictless _) fun _ d hd => ?_
    obtain ⟨hruns, hids⟩ := hd
    have hmoved : AloneOk (transitionRun none run (db.runs run) (settledAs (db.stepsOfRun run))) d
        fun _ d' => (d'.runs run).isTerminal = true := by
      refine alone_ask fun at_ => aloneOk_mono (alone_commitRunTransitionAfter (by simp)
        (hids ▸ hmem) (by rw [hruns])) fun _ d' hd' => ?_
      obtain ⟨t, hok, ht, hto, -⟩ := hd'
      have hend := runs_commitRunTransition hok
      rw [ht, hto] at hend
      rw [hend]
      unfold settledAs
      split_ifs <;> rfl
    refine Prog.solo_seq hmoved fun _ d' hd' => ?_
    have hissues : ((teardownServices none run).bind fun _ => freeSlot run).Issues
        fun c => ∀ t, c = .write t → t.isRunMove = false :=
      (teardownServices_issues none run).bind fun _ => freeSlot_issues run
    have hend : Alone ((teardownServices none run).bind fun _ => freeSlot run) d'
        fun _ d => (d.runs run).isTerminal = true :=
      Prog.solo_of_issues (I := fun (d : Db) => (d.runs run).isTerminal = true) hissues
        (fun c w s _ hc hs => by rw [respond_runs hc w]; exact hs) hd'
    exact Prog.solo_mono hend fun _ _ h => .inl h

/-- Settlement leaves a run that has ended as it is. -/
theorem alone_advance_ended {P : Db → Prop} (hend : (db.runs run).isTerminal = true) :
    Alone (advance run) db fun _ d => (d.runs run).isTerminal = true ∨ P d := by
  intro w hw
  simp only [respond, hw]
  show Alone (if (db.stepsOfRun run) = [] ∨ (!(db.stepsOfRun run).all (·.status.isTerminal)) = true
    then Prog.ok () else _) db _
  split_ifs
  · exact Or.inl hend
  · by_cases hmem : run ∈ db.runIds
    · refine alone_readRun hmem ?_
      simp only [hend, if_true]
      exact Or.inl hend
    · intro w hw
      simp only [respond, hw, Query.eval, Db.runStatus, hmem, if_false]
      exact Or.inl hend

end settle

section stalled

variable {run : RunId} {db d : Db} {leader : LeaderTerm} {cfg : SchedulerConfig}

/-- Admission of the run by the leader, and the settlement that follows it. -/
def admitPass (cfg : SchedulerConfig) (leader : LeaderTerm) (run : RunId) : Eff Unit := do
  admitAsLeader cfg leader run
  advance run

/-- The step of the run needs the other one. -/
def Db.Needs (db : Db) (run : RunId) (n step : StepId) : Prop :=
  step ∈ db.stepIds run ∧ n ∈ (db.steps run step).needs

/-- A Running run with an acyclic graph in which nothing runs and no gate waits for a verdict,
with its leader. -/
structure Db.Stalled (db : Db) (leader : LeaderTerm) (run : RunId) : Prop where
  known : run ∈ db.runIds
  lease : db.lease = some leader
  running : db.runs run = .running
  noUses : db.NoUses run
  closed : ∀ n step, db.Needs run n step → n ∈ db.stepIds run
  acyclic : ∀ step, ¬Relation.TransGen (db.Needs run) step step
  idle : ∀ step ∈ db.stepIds run, (db.steps run step).status ≠ .ready ∧
    (db.steps run step).status ≠ .running
  unreached : NoneReached db run

/-- Some step of the run is in another status. -/
def Moved (run : RunId) (db d : Db) : Prop :=
  ∃ step ∈ db.stepIds run, (d.steps run step).status ≠ (db.steps run step).status

theorem not_moved : ¬Moved run db d ↔
    ∀ step ∈ db.stepIds run, (d.steps run step).status = (db.steps run step).status := by
  simp [Moved]

/-- In an acyclic graph some Pending step has no Pending need. -/
theorem Db.Stalled.exists_first (h : db.Stalled leader run)
    (hlive : ∃ step ∈ db.stepIds run, (db.steps run step).status.isTerminal = false) :
    ∃ step ∈ db.stepIds run, (db.steps run step).status = .pending ∧
      ∀ n ∈ (db.steps run step).needs, n ∈ db.stepIds run ∧
        (db.steps run n).status.isTerminal = true := by
  have hpending : ∀ step ∈ db.stepIds run, (db.steps run step).status.isTerminal = false →
      (db.steps run step).status = .pending := by
    intro step hstep hlive
    obtain ⟨hready, hrunning⟩ := h.idle step hstep
    cases hst : (db.steps run step).status with
    | pending => rfl
    | ready => exact absurd hst hready
    | running => exact absurd hst hrunning
    | _ => simp [hst, StepStatus.isTerminal] at hlive
  have : IsStrictOrder StepId (Relation.TransGen (db.Needs run)) :=
    { irrefl := h.acyclic
      trans := fun _ _ _ => Relation.TransGen.trans }
  have hwf := (List.finite_toSet (db.stepIds run)).wellFoundedOn
    (r := Relation.TransGen (db.Needs run))
  obtain ⟨step, hstep, hlive⟩ := hlive
  refine hwf.induction (P := fun step => (db.steps run step).status.isTerminal = false →
    ∃ step ∈ db.stepIds run, (db.steps run step).status = .pending ∧
      ∀ n ∈ (db.steps run step).needs, n ∈ db.stepIds run ∧
        (db.steps run n).status.isTerminal = true) hstep (fun step hstep ih hlive => ?_) hlive
  by_cases hall : ∀ n ∈ (db.steps run step).needs, (db.steps run n).status.isTerminal = true
  · exact ⟨step, hstep, hpending step hstep hlive, fun n hn =>
      ⟨h.closed n step ⟨hstep, hn⟩, hall n hn⟩⟩
  · push Not at hall
    obtain ⟨n, hn, hnlive⟩ := hall
    exact ih n (h.closed n step ⟨hstep, hn⟩) (.single ⟨hstep, hn⟩) (by simpa using hnlive)

/-- The gates settled: those no longer needed skipped, those needed again brought back. -/
structure Regated (run : RunId) (db d : Db) : Prop where
  steady : Steady run db d
  settled : ∀ s, GateSettled db d run s
  spared : ∀ s, ¬db.Unneeded run s → ¬db.Revived run s → Spares run s db d

section spared

variable {s : StepId}

theorem Steady.symm (h : Steady run db d) : Steady run d db :=
  ⟨h.runIds.symm, h.stepIds.symm, h.lease.symm, h.runs.symm, h.generations.symm,
    fun s => (h.needs s).symm, fun s => (h.gateKind s).symm, fun s => (h.spec s).symm⟩

theorem Spares.symm (h : Spares run s db d) : Spares run s d db :=
  ⟨h.status.symm, h.frontier.symm, fun bare => (h.skip bare).symm⟩

theorem Db.DependentsDone.steady (h : db.DependentsDone run s) (hs : Steady run db d)
    (hsame : ∀ step ∈ db.stepIds run,
      (d.steps run step).status = (db.steps run step).status) : d.DependentsDone run s := by
  intro x hx hneed
  obtain ⟨hmem, heq⟩ := of_mem_stepsOfRun hx
  rw [hs.stepIds] at hmem
  have hstatus : x.status = (db.steps run x.step).status := by
    rw [heq]
    exact hsame x.step hmem
  rw [hstatus]
  refine h (db.stepRun run x.step) (mem_stepsOfRun hmem) ?_
  rw [heq] at hneed
  show s ∈ (db.steps run x.step).needs
  rw [← hs.needs]
  exact hneed

theorem Db.Unneeded.steady (h : db.Unneeded run s) (hs : Steady run db d)
    (hsame : ∀ step, Spares run step db d) : d.Unneeded run s := by
  refine ⟨?_, ?_, (hsame s).status.trans h.pending, ?_,
    h.done.steady hs fun step _ => (hsame step).status⟩
  · rw [hs.stepIds]
    exact h.known
  · rw [hs.gateKind]
    exact h.gate
  · obtain ⟨x, hx, hneed⟩ := h.dependent
    obtain ⟨hmem, heq⟩ := of_mem_stepsOfRun hx
    refine ⟨d.stepRun run x.step, mem_stepsOfRun (hs.stepIds ▸ hmem), ?_⟩
    show s ∈ (d.steps run x.step).needs
    rw [hs.needs]
    rw [heq] at hneed
    exact hneed

theorem Db.Revived.steady (h : db.Revived run s) (hs : Steady run db d)
    (hsame : ∀ step, Spares run step db d) : d.Revived run s := by
  refine ⟨?_, ?_, (hsame s).status.trans h.skipped, fun hdone => h.live ?_,
    ((hsame s).skip false).trans h.unneeded⟩
  · rw [hs.stepIds]
    exact h.known
  · rw [hs.gateKind]
    exact h.gate
  · exact hdone.steady hs.symm fun step _ => (hsame step).status.symm

/-- What came before the gates were settled and moved no step does not matter. -/
theorem Regated.of_spares {d₁ : Db} (h : Regated run d₁ d) (hs : Steady run db d₁)
    (hsame : ∀ step, Spares run step db d₁) (hgrow : db.events <+: d₁.events) :
    Regated run db d := by
  refine ⟨hs.trans h.steady, fun s => ⟨fun hun => (h.settled s).skipped (hun.steady hs hsame),
    fun hrev => ?_⟩, fun s hun hrev => ?_⟩
  · obtain ⟨hpend, hdull, hgained⟩ := (h.settled s).revived (hrev.steady hs hsame)
    exact ⟨hpend, hdull, hgained.since hgrow⟩
  have hback : ∀ step, Spares run step d₁ db := fun step => (hsame step).symm
  exact (hsame s).trans (h.spared s (fun hu => hun (hu.steady hs.symm hback))
    fun hr => hrev (hr.steady hs.symm hback))

end spared

/-- The gate was skipped as unneeded and has a dead need, and the journal says that it was
brought back since and then skipped again. -/
structure BackAndSkipped (run : RunId) (s : StepId) (db d : Db) : Prop where
  revived : db.Revived run s
  dead : depDead (db.stepsOfRun run) (db.stepRun run s) = true
  moves : ∃ between, Gained run s .skipped .pending db.events between ∧
    Gained run s .pending .skipped between d.events

/-- A gate was brought back and skipped again, and no other is to be brought back. -/
structure Bounced (leader : LeaderTerm) (run : RunId) (db d : Db) : Prop where
  gate : ∃ s, BackAndSkipped run s db d
  stalled : d.Stalled leader run
  stepIds : d.stepIds = db.stepIds
  settled : ∀ s, ¬d.Revived run s

/-- A stalled run stays so while no step of it moves. -/
theorem Db.Stalled.steady (h : db.Stalled leader run) (hs : Steady run db d)
    (hsame : ¬Moved run db d) : d.Stalled leader run := by
  rw [not_moved] at hsame
  have hneeds : d.Needs run = db.Needs run := by
    funext n step
    simp only [Db.Needs, hs.stepIds, hs.needs]
  refine ⟨hs.runIds ▸ h.known, hs.lease.trans h.lease, by rw [hs.runs, h.running], ?_, ?_, ?_, ?_,
    fun step hw => h.unreached step ?_⟩
  · intro step hstep spec hspec
    rw [hs.spec] at hspec
    exact h.noUses step (hs.stepIds ▸ hstep) spec hspec
  · rw [hneeds, hs.stepIds]
    exact h.closed
  · rw [hneeds]
    exact h.acyclic
  · intro step hstep
    rw [hs.stepIds] at hstep
    rw [hsame step hstep]
    exact h.idle step hstep
  · have hknown := hw.known
    have hgate := hw.gate
    have hpending := hw.pending
    have hreached := hw.reached
    rw [hs.stepIds] at hknown
    rw [hs.gateKind] at hgate
    rw [hsame step hknown] at hpending
    refine ⟨hknown, hgate, hpending, fun n hn => ?_⟩
    obtain ⟨hmem, hsucc⟩ := hreached n (by rw [hs.needs]; exact hn)
    rw [hs.stepIds] at hmem
    rw [hsame n hmem] at hsucc
    exact ⟨hmem, hsucc⟩

section moves

variable {d₂ : Db}

/-- A gate brought back in a pass that moves no step had a dead need before the pass, and is
skipped again. -/
theorem Regated.backAndSkipped (hgates : Regated run db d₂) (hadm : Admitted run d₂ d)
    (hsame : ¬Moved run db d) {s : StepId} (hrev : db.Revived run s) :
    BackAndSkipped run s db d := by
  rw [not_moved] at hsame
  obtain ⟨hpending, -, hback⟩ := (hgates.settled s).revived hrev
  have hskipped := (hsame s hrev.known).trans hrev.skipped
  have hgate : (d₂.steps run s).gateKind.isSome = true := by
    rw [hgates.steady.gateKind]
    exact hrev.gate
  have hknown : s ∈ d₂.stepIds run := by
    rw [hgates.steady.stepIds]
    exact hrev.known
  cases hdead : depDead (d₂.stepsOfRun run) (d₂.stepRun run s) with
  | false =>
    have hstill := hadm.waiting s hknown hpending hgate hdead
    exact absurd (hstill.symm.trans hskipped) (by simp)
  | true =>
    refine ⟨hrev, ?_, d₂.events, hback, (hadm.dead s hknown hpending hgate hdead).2⟩
    obtain ⟨n, hn, hmem, hterm, hne⟩ := depDead_iff.mp hdead
    have hn : n ∈ (db.steps run s).needs := hgates.steady.needs s ▸ hn
    rw [hgates.steady.stepIds] at hmem
    have hnotback : ¬db.Revived run n := by
      intro hback
      rw [((hgates.settled n).revived hback).1] at hterm
      cases hterm
    have hnotskipped : ¬db.Unneeded run n := by
      intro hun
      have hskip := (hgates.settled n).skipped hun
      have hkept := (hadm.ended n (by rw [hskip]; rfl)).status
      have hmoved := hsame n hmem
      rw [hkept, hskip, hun.pending] at hmoved
      cases hmoved
    have hst := (hgates.spared n hnotskipped hnotback).status
    rw [hst] at hterm hne
    exact depDead_iff.mpr ⟨n, hn, hmem, hterm, hne⟩

/-- A pass that moves no step brings a gate back. -/
theorem Regated.exists_revived (hgates : Regated run db d₂) (hadm : Admitted run d₂ d)
    (h : db.Stalled leader run) (hsame : ¬Moved run db d)
    (hlive : ∃ step ∈ db.stepIds run, (db.steps run step).status.isTerminal = false) :
    ∃ s, db.Revived run s := by
  by_contra hnone
  push Not at hnone
  rw [not_moved] at hsame
  obtain ⟨step, hstep, hpending, hneeds⟩ := h.exists_first hlive
  have hknown : step ∈ d₂.stepIds run := by
    rw [hgates.steady.stepIds]
    exact hstep
  have hended : ∀ n, (db.steps run n).status.isTerminal = true → Spares run n db d₂ := by
    refine fun n hterm => hgates.spared n (fun hun => ?_) (hnone n)
    rw [hun.pending] at hterm
    cases hterm
  have hkept : ¬db.Unneeded run step := by
    intro hun
    have hskip := (hgates.settled step).skipped hun
    have hkept := (hadm.ended step (by rw [hskip]; rfl)).status
    have hmoved := hsame step hstep
    rw [hkept, hskip, hun.pending] at hmoved
    cases hmoved
  have hpending₂ : (d₂.steps run step).status = .pending :=
    (hgates.spared step hkept (hnone step)).status.trans hpending
  have hdead : (∃ n ∈ (db.steps run step).needs, (db.steps run n).status ≠ .succeeded) →
      depDead (d₂.stepsOfRun run) (d₂.stepRun run step) = true := by
    rintro ⟨n, hn, hne⟩
    obtain ⟨hmem, hterm⟩ := hneeds n hn
    have hst := (hended n hterm).status
    refine depDead_iff.mpr ⟨n, ?_, ?_, ?_, ?_⟩
    · show n ∈ (d₂.steps run step).needs
      rw [hgates.steady.needs]
      exact hn
    · rw [hgates.steady.stepIds]
      exact hmem
    · rw [hst]
      exact hterm
    · rw [hst]
      exact hne
  have hmoved : (d.steps run step).status ≠ .pending := by
    cases hgate : (db.steps run step).gateKind.isSome with
    | true =>
      -- no gate is reached, so a need of it is dead
      have hne : ∃ n ∈ (db.steps run step).needs, (db.steps run n).status ≠ .succeeded := by
        by_contra hall
        push Not at hall
        exact h.unreached step ⟨hstep, hgate, hpending, fun n hn => ⟨(hneeds n hn).1, hall n hn⟩⟩
      rw [(hadm.dead step hknown hpending₂ (by rw [hgates.steady.gateKind]; exact hgate)
        (hdead hne)).1]
      simp
    | false =>
      refine hadm.decided step hknown hpending₂ (by rw [hgates.steady.gateKind]; exact hgate) ?_
      by_cases hall : ∃ n ∈ (db.steps run step).needs, (db.steps run n).status ≠ .succeeded
      · exact .inr (hdead hall)
      · push Not at hall
        refine .inl (depsSatisfied_iff.mpr fun n hn => ?_)
        have hn : n ∈ (db.steps run step).needs := hgates.steady.needs step ▸ hn
        obtain ⟨hmem, hterm⟩ := hneeds n hn
        exact ⟨by rw [hgates.steady.stepIds]; exact hmem,
          (hended n hterm).status.trans (hall n hn)⟩
  exact hmoved ((hsame step hstep).trans hpending)

/-- After a pass that moves no step, no gate is to be brought back. -/
theorem Regated.none_revived (hgates : Regated run db d₂) (hadm : Admitted run d₂ d)
    (hsame : ¬Moved run db d) (s : StepId) : ¬d.Revived run s := by
  intro hrev
  rw [not_moved] at hsame
  have hsteady := hgates.steady.trans hadm.steady
  have hknown : s ∈ db.stepIds run := hsteady.stepIds ▸ hrev.known
  have hskipped : (db.steps run s).status = .skipped := (hsame s hknown).symm.trans hrev.skipped
  by_cases hback : db.Revived run s
  · have hdull := hadm.dull s ((hgates.settled s).revived hback).2.1 false
    exact absurd (hdull.symm.trans hrev.unneeded) (by simp)
  · have hspare : Spares run s db d₂ := by
      refine hgates.spared s (fun hun => ?_) hback
      exact absurd (hun.pending.symm.trans hskipped) (by simp)
    have hspare := hspare.trans (hadm.ended s (by rw [hspare.status, hskipped]; rfl))
    refine hback ⟨hknown, ?_, hskipped, fun hdone => hrev.live ?_, ?_⟩
    · rw [← hsteady.gateKind]
      exact hrev.gate
    · exact hdone.steady hsteady hsame
    · rw [← hspare.skip]
      exact hrev.unneeded

end moves

/-- The pass over a stalled run, alone on a store that does not fail: the run ends, a step is
moved, or a gate is brought back and skipped again. -/
theorem alone_admitPass (h : db.Stalled leader run) (hsteps : db.stepIds run ≠ []) :
    Alone (admitPass cfg leader run) db fun _ d => (d.runs run).isTerminal = true ∨
      Moved run db d ∨ Bounced leader run db d := by
  have hadmit : AloneOk (admitAsLeader cfg leader run) db fun _ d =>
      (d.runs run).isTerminal = true ∨ ∃ d₂ d₄, Regated run db d₂ ∧ Admitted run d₂ d₄ ∧
        (d = d₄ ∨ d₄.WaitsOnGates run ∧ d.steps = d₄.steps ∧ d.runIds = d₄.runIds ∧
          d.runs run = .suspended) := by
    refine alone_readRun h.known ?_
    simp only [h.running]
    refine Prog.solo_seq (aloneOk_grows (alone_evaluateWaitingGates leader h.unreached))
      fun _ d₁ h₁ => ?_
    obtain ⟨h₁, hgrow₁⟩ := h₁
    refine Prog.solo_seq alone_settleUnneededGates fun _ d₂ h₂ => ?_
    have hgates : Regated run db d₂ :=
      Regated.of_spares ⟨h₂.1, fun s => (h₂.2 s).1, fun s => (h₂.2 s).2⟩ h₁.1 h₁.2 hgrow₁
    have hlead : d₂.lease = some leader := hgates.steady.lease.trans h.lease
    have hknown : run ∈ d₂.runIds := by
      rw [hgates.steady.runIds]
      exact h.known
    have hrunning : d₂.runs run = .running := by rw [hgates.steady.runs, h.running]
    have hresume : resumeSuspended leader run .running = Prog.ok true := if_neg (by simp)
    rw [hresume]
    show Alone ((enforceRunBudget leader run).bind _) d₂ _
    refine Prog.solo_seq (alone_enforceRunBudget hlead hknown hrunning) fun spent d₃ h₃ => ?_
    split_ifs at h₃ ⊢
    · refine aloneOk_pure (.inl ?_)
      rw [h₃]
      rfl
    · subst h₃
      have huses : d₃.NoUses run := by
        intro step hstep spec hspec
        rw [hgates.steady.spec] at hspec
        exact h.noUses step (hgates.steady.stepIds ▸ hstep) spec hspec
      refine aloneOk_mono (alone_admitSteps hlead hknown hrunning huses) fun _ d hd => ?_
      obtain ⟨d₄, hadm, hd⟩ := hd
      exact .inr ⟨d₃, d₄, hgates, hadm, hd⟩
  refine Prog.solo_seq hadmit fun _ d hd => ?_
  rcases hd with hend | ⟨d₂, d₄, hgates, hadm, hd⟩
  · exact alone_advance_ended hend
  · have hsteady := hgates.steady.trans hadm.steady
    rcases hd with rfl | ⟨hwaits, hsteps', hids, hsusp⟩
    · have hknown : run ∈ d.runIds := by
        rw [hsteady.runIds]
        exact h.known
      have hrun : (d.runs run).isTerminal = false := by
        rw [hsteady.runs, h.running]
        rfl
      refine Prog.solo_mono (alone_advance hknown hrun) fun _ d' hd' => ?_
      rcases hd' with hend | ⟨rfl, hlive⟩
      · exact .inl hend
      · refine .inr (or_iff_not_imp_left.mpr fun hsame => ?_)
        have hlive : ∃ step ∈ db.stepIds run, (db.steps run step).status.isTerminal = false := by
          rw [hsteady.stepIds] at hlive
          obtain ⟨step, hstep, hlive⟩ := hlive.resolve_left hsteps
          exact ⟨step, hstep, not_moved.mp hsame step hstep ▸ hlive⟩
        obtain ⟨s, hrev⟩ := hgates.exists_revived hadm h hsame hlive
        exact ⟨⟨s, hgates.backAndSkipped hadm hsame hrev⟩, h.steady hsteady hsame,
          hsteady.stepIds, hgates.none_revived hadm hsame⟩
    · -- a gate has come to wait, so a step moved
      have hmoved : Moved run db d := by
        obtain ⟨g, hwait⟩ := hwaits.some_
        by_contra hsame
        have hst : ¬Moved run db d₄ := by
          intro hm
          obtain ⟨s, hs, hne⟩ := hm
          exact hsame ⟨s, hs, hsteps' ▸ hne⟩
        exact (h.steady hsteady hst).unreached g hwait
      have hknown : run ∈ d.runIds := by
        rw [hids, hsteady.runIds]
        exact h.known
      refine Prog.solo_mono (alone_advance hknown (by rw [hsusp]; rfl)) fun _ d' hd' => ?_
      rcases hd' with hend | ⟨rfl, -⟩
      · exact .inl hend
      · exact .inr (.inl hmoved)

/-- The store after the pass over the run, answered by `w`. -/
def afterPass (cfg : SchedulerConfig) (leader : LeaderTerm) (run : RunId) (w : ℕ → Answer)
    (db : Db) : Db :=
  ((admitPass cfg leader run).alone respond w 0 db).2

/-- Every pass on a store that does not fail ends the run or moves one of its steps. -/
def Progresses (cfg : SchedulerConfig) (leader : LeaderTerm) (run : RunId) (db : Db) : Prop :=
  ∀ w : ℕ → Answer, (∀ i, (w i).fault = none) →
    ((afterPass cfg leader run w db).runs run).isTerminal = true ∨
      Moved run db (afterPass cfg leader run w db)

/-- A pass over a stalled run ends it or moves a step, or it brings back a gate that has a dead
need and skips it again, and then the next pass does. A run is suspended on what the same call
has just read: steps that are done or wait on gates. -/
theorem admission_progresses (cfg : SchedulerConfig) :
    (∀ (db : Db) (leader : LeaderTerm) (run : RunId), db.Stalled leader run →
      db.stepIds run ≠ [] → ∀ w : ℕ → Answer, (∀ i, (w i).fault = none) →
        ((afterPass cfg leader run w db).runs run).isTerminal = true ∨
          Moved run db (afterPass cfg leader run w db) ∨
          (∃ s, BackAndSkipped run s db (afterPass cfg leader run w db)) ∧
            Progresses cfg leader run (afterPass cfg leader run w db)) ∧
    ∀ (db₀ : Db) (g g₁ : Config engine) (e : Entry engine) (t : RunTransition),
      Reach (fun _ _ => True) db₀ g → Step g e g₁ → e.Did (.commitRunTransition t) () →
        t.to_ = .suspended → ∃ mid r older, g.log = mid ++ r :: older ∧
          SuspendRead t.run e.pid mid r ∧ ((∀ x ∈ mid, x.pid = e.pid) → g.db = r.pre) := by
  have hpass : ∀ {db : Db} {leader : LeaderTerm} {run : RunId}, db.Stalled leader run →
      db.stepIds run ≠ [] → ∀ w : ℕ → Answer, (∀ i, (w i).fault = none) →
        ((afterPass cfg leader run w db).runs run).isTerminal = true ∨
          Moved run db (afterPass cfg leader run w db) ∨
          Bounced leader run db (afterPass cfg leader run w db) :=
    fun h hsteps w hw => Prog.alone_of_solo (alone_admitPass h hsteps) hw 0
  refine ⟨fun db leader run h hsteps w hw => ?_, fun db₀ g g₁ e t hr hs hd hto =>
    hr.suspended_waits hs hd hto⟩
  rcases hpass h hsteps w hw with hend | hmoved | hbounced
  · exact .inl hend
  · exact .inr (.inl hmoved)
  · refine .inr (.inr ⟨hbounced.gate, fun w' hw' => ?_⟩)
    rcases hpass hbounced.stalled (hbounced.stepIds ▸ hsteps) w' hw' with hend | hmoved | hagain
    · exact .inl hend
    · exact .inr hmoved
    · obtain ⟨s, hback⟩ := hagain.gate
      exact absurd hback.revived (hbounced.settled s)

/-- A graph whose steps are ranked above their needs, and what else a stalled run is. -/
theorem Db.Stalled.of_rank {rank : StepId → ℕ} (hlead : db.lease = some leader)
    (hrun : run ∈ db.runIds ∧ db.runs run = .running)
    (hsteps : ∀ step ∈ db.stepIds run, (db.steps run step).spec.all (·.uses = []) = true ∧
      (∀ n ∈ (db.steps run step).needs, n ∈ db.stepIds run ∧ rank n < rank step) ∧
      (db.steps run step).status ≠ .ready ∧ (db.steps run step).status ≠ .running ∧
      ((db.steps run step).gateKind.isSome = true → (db.steps run step).status = .pending →
        ∃ n ∈ (db.steps run step).needs, (db.steps run n).status ≠ .succeeded)) :
    db.Stalled leader run := by
  have hrank : ∀ n step, Relation.TransGen (db.Needs run) n step → rank n < rank step := by
    intro n step hpath
    induction hpath with
    | single hneed => exact ((hsteps _ hneed.1).2.1 _ hneed.2).2
    | tail _ hneed ih => exact ih.trans ((hsteps _ hneed.1).2.1 _ hneed.2).2
  refine ⟨hrun.1, hlead, hrun.2, fun step hstep spec hspec => ?_, fun n step hneed =>
    ((hsteps step hneed.1).2.1 n hneed.2).1, fun step hloop => lt_irrefl _ (hrank step step hloop),
    fun step hstep => ⟨(hsteps step hstep).2.2.1, (hsteps step hstep).2.2.2.1⟩, fun step hw => ?_⟩
  · have huses := (hsteps step hstep).1
    rw [hspec] at huses
    simpa using huses
  · obtain ⟨n, hn, hne⟩ := (hsteps step hw.known).2.2.2.2 hw.gate hw.pending
    exact hne (hw.reached n hn).2

/-- What `of_rank` asks of a store, as a test. -/
def stalledBy (rank : StepId → ℕ) (leader : LeaderTerm) (run : RunId) (db : Db) : Bool :=
  decide (db.lease = some leader ∧ (run ∈ db.runIds ∧ db.runs run = .running) ∧
    ∀ step ∈ db.stepIds run, (db.steps run step).spec.all (·.uses = []) = true ∧
      (∀ n ∈ (db.steps run step).needs, n ∈ db.stepIds run ∧ rank n < rank step) ∧
      (db.steps run step).status ≠ .ready ∧ (db.steps run step).status ≠ .running ∧
      ((db.steps run step).gateKind.isSome = true → (db.steps run step).status = .pending →
        ∃ n ∈ (db.steps run step).needs, (db.steps run n).status ≠ .succeeded))

theorem Db.Stalled.of_test (rank : StepId → ℕ) (h : stalledBy rank leader run db = true) :
    db.Stalled leader run := by
  obtain ⟨hlead, hrun, hsteps⟩ := of_decide_eq_true h
  exact .of_rank hlead hrun hsteps

/-- The pass answered by `w` neither ends the run nor moves a step. -/
def stuckBy (leader : LeaderTerm) (run : RunId) (w : Answer) (db : Db) : Bool :=
  decide (((afterPass plainConfig leader run (fun _ => w) db).runs run).isTerminal = false ∧
    ∀ step ∈ db.stepIds run, ((afterPass plainConfig leader run (fun _ => w) db).steps run
      step).status = (db.steps run step).status)

theorem not_progresses {w : Answer} (hw : w.fault = none) (h : stuckBy leader run w db = true) :
    ¬Progresses plainConfig leader run db := by
  intro hall
  obtain ⟨hlive, hsame⟩ := of_decide_eq_true h
  rcases hall (fun _ => w) (fun _ => hw) with hend | hmoved
  · exact absurd (hend.symm.trans hlive) (by simp)
  · exact not_moved.mpr hsame hmoved

end stalled

def stepN : StepId := ⟨"n".toList⟩
def stepX : StepId := ⟨"x".toList⟩
def stepG : StepId := ⟨"g".toList⟩
def stepD : StepId := ⟨"d".toList⟩

/-- A gate behind one step, and a step behind the gate and another step. -/
def gatedDb : Db :=
  createdDb [runR] [(stepN, [], none), (stepX, [], none), (stepG, [stepN], some .manual),
    (stepD, [stepG, stepX], none)] fun _ => none

/-- The environment in which the units are in the given states, any other Running, and every
claim on the outbox has lapsed. -/
def polled (states : List (Text × ExecState)) : Answer :=
  ⟨none, false, List.range 9, fun q => match q with
    | .poll unit => .ok (((states.find? (·.1 = unit)).map (·.2)).getD .running)
    | q => calmReply .running none q⟩

/-- The gate is skipped as unneeded when `x` has failed; a rerun of `x` re-arms `d` once `x` is
launched again, and then `n` fails. -/
def bounceMoves : List (Move engine) :=
  [.start (.admitRun plainConfig [] runR), .runOut 0 90 (polled []),
    .start (.reconcile plainConfig []),
    .runOut 1 90 (polled [(launchKey runR stepX ⟨1⟩, .failed .step none)]),
    .start (.admitRun plainConfig [] runR), .runOut 2 90 (polled []),
    .start (.admitRun plainConfig [] runR), .runOut 3 90 (polled []),
    .start (.rerunStep false runR stepX none), .acts 4 9 (polled []),
    .start (.admitRun plainConfig [] runR), .runOut 5 90 (polled []),
    .runOut 4 90 (polled []), .start (.reconcile plainConfig []),
    .runOut 6 200 (polled [(launchKey runR stepX ⟨2⟩, .succeeded),
      (launchKey runR stepN ⟨1⟩, .failed .step none)])]

def rankOf (step : StepId) : ℕ :=
  if step = stepG then 1 else if step = stepD then 2 else 0

/-- A step and a gate, neither of which needs the other. -/
def waitingDb : Db :=
  createdDb [runR] [(stepX, [], none), (stepG, [], some .manual)] fun _ => none

/-- `x` is rerun after the pass has read the steps and before it suspends the run. -/
def suspendMoves : List (Move engine) :=
  [.start (.admitRun plainConfig [] runR), .runOut 0 90 (polled []),
    .start (.reconcile plainConfig []),
    .runOut 1 90 (polled [(launchKey runR stepX ⟨1⟩, .succeeded)]),
    .start (.admitRun plainConfig [] runR), .acts 2 15 (polled []),
    .start (.rerunStep false runR stepX none), .runOut 3 90 (polled []),
    .runOut 2 90 (polled [])]

/-- The step suspended the run. -/
def suspends (run : RunId) (e : Entry engine) : Bool :=
  match e.what with
  | .did (.write (.commitRunTransition t)) (.ok _) => decide (t.to_ = .suspended ∧ t.run = run)
  | _ => false

theorem suspends_did {run : RunId} {e : Entry engine} (h : suspends run e = true) :
    ∃ t, e.Did (.commitRunTransition t) () ∧ t.to_ = .suspended ∧ t.run = run := by
  unfold suspends at h
  split at h
  · next t a hw => exact ⟨t, hw, of_decide_eq_true h⟩
  · cases h

/-- A run without steps never ends, a pass may undo the one move it makes, and a rerun may come
between the read that finds only waits and the suspension. -/
theorem admission_stuck :
    (¬∀ (db₀ : Db) (g : Config engine) (leader : LeaderTerm) (run : RunId), db₀.Fresh →
      Reach (fun _ _ => True) db₀ g → g.db.Stalled leader run →
        Progresses plainConfig leader run g.db) ∧
    (¬∀ (db₀ : Db) (g : Config engine) (leader : LeaderTerm) (run : RunId), db₀.Fresh →
      Reach (fun _ _ => True) db₀ g → g.db.Stalled leader run → g.db.stepIds run ≠ [] →
        Progresses plainConfig leader run g.db) ∧
    ¬∀ (db₀ : Db) (g g₁ : Config engine) (e : Entry engine) (t : RunTransition), db₀.Fresh →
      Reach (fun _ _ => True) db₀ g → Step g e g₁ → e.Did (.commitRunTransition t) () →
        t.to_ = .suspended → g.db.WaitsOnGates t.run := by
  refine ⟨?_, ?_, ?_⟩
  · intro hall
    obtain ⟨g, hg, htest⟩ := Reach.of_play (M := engine) (createdDb [runR] [] fun _ => none)
      [.start (.admitRun plainConfig [] runR), .runOut 0 60 (polled [])]
      (fun g => stalledBy rankOf ⟨[], 1⟩ runR g.db && stuckBy ⟨[], 1⟩ runR (polled []) g.db)
      (by decide +kernel)
    obtain ⟨hstalled, hstuck⟩ := Bool.and_eq_true_iff.mp htest
    exact not_progresses rfl hstuck
      (hall _ g ⟨[], 1⟩ runR (createdDb_fresh _ _ _) hg (.of_test rankOf hstalled))
  · intro hall
    obtain ⟨g, hg, htest⟩ := Reach.of_play (M := engine) gatedDb bounceMoves
      (fun g => (stalledBy rankOf ⟨[], 1⟩ runR g.db && decide (g.db.stepIds runR ≠ [])) &&
        stuckBy ⟨[], 1⟩ runR (polled []) g.db) (by decide +kernel)
    obtain ⟨hok, hstuck⟩ := Bool.and_eq_true_iff.mp htest
    obtain ⟨hstalled, hsteps⟩ := Bool.and_eq_true_iff.mp hok
    exact not_progresses rfl hstuck (hall _ g ⟨[], 1⟩ runR (createdDb_fresh _ _ _) hg
      (.of_test rankOf hstalled) (of_decide_eq_true hsteps))
  · intro hall
    obtain ⟨g, hg, htest⟩ := Reach.of_play (M := engine) waitingDb suspendMoves
      (fun g => g.log.any fun e => suspends runR e && decide (stepX ∈ e.pre.stepIds runR ∧
        (e.pre.steps runR stepX).status = .pending ∧
        (e.pre.steps runR stepX).gateKind = none ∧ (e.pre.steps runR stepX).needs = []))
      (by decide +kernel)
    obtain ⟨e, he, hboth⟩ := List.any_eq_true.mp htest
    obtain ⟨hsusp, hx⟩ := Bool.and_eq_true_iff.mp hboth
    obtain ⟨hmem, hpending, hplain, hneeds⟩ := of_decide_eq_true hx
    obtain ⟨t, hdid, hto, hrun⟩ := suspends_did hsusp
    obtain ⟨newer, older, hlog⟩ := List.append_of_mem he
    obtain ⟨g₀, g₁, hg₀, hs, -⟩ := hg.at_entry hlog
    have hpre : e.pre = g₀.db := hs.before_eq
    rw [hpre] at hmem hpending hplain hneeds
    have hwaits := hall _ g₀ g₁ e t (createdDb_fresh _ _ _) hg₀ hs hdid hto
    rw [hrun] at hwaits
    rcases hwaits.waits stepX hmem (by rw [hpending]; rfl) with hgate | hbehind
    · exact absurd hgate.gate (by simp [hplain])
    · cases hbehind with
      | next need => simp [hneeds] at need
      | further need => simp [hneeds] at need

/-- A started run of one Pending step, and one of a gate only. -/
theorem admission_progresses_first :
    (let db := { oneStepDb with
        runs := fun _ => .running
        lease := some ⟨[], 1⟩ }
      let d := afterPass plainConfig ⟨[], 1⟩ runR (fun _ => polled []) db
      (d.runs runR).isTerminal = true ∨ Moved runR db d ∨
        (∃ s, BackAndSkipped runR s db d) ∧ Progresses plainConfig ⟨[], 1⟩ runR d) ∧
    ∃ (g₀ g₁ : Config engine) (e : Entry engine) (t : RunTransition),
      Reach (fun _ _ => True) (createdDb [runR] [(stepG, [], some .manual)] fun _ => none) g₀ ∧
        Step g₀ e g₁ ∧ e.Did (.commitRunTransition t) () ∧ t.to_ = .suspended ∧
          ∃ mid r older, g₀.log = mid ++ r :: older ∧ SuspendRead t.run e.pid mid r ∧
            ((∀ x ∈ mid, x.pid = e.pid) → g₀.db = r.pre) := by
  refine ⟨(admission_progresses plainConfig).1 _ ⟨[], 1⟩ runR (.of_test rankOf (by decide))
    (by decide) _ fun _ => rfl, ?_⟩
  obtain ⟨g, hg, htest⟩ := Reach.of_play (M := engine)
    (createdDb [runR] [(stepG, [], some .manual)] fun _ => none)
    [.start (.admitRun plainConfig [] runR), .runOut 0 90 (polled [])]
    (fun g => g.log.any (suspends runR)) (by decide +kernel)
  obtain ⟨e, he, hsusp⟩ := List.any_eq_true.mp htest
  obtain ⟨t, hdid, hto, -⟩ := suspends_did hsusp
  obtain ⟨newer, older, hlog⟩ := List.append_of_mem he
  obtain ⟨g₀, g₁, hg₀, hs, -⟩ := hg.at_entry hlog
  exact ⟨g₀, g₁, e, t, hg₀, hs, hdid, hto,
    (admission_progresses plainConfig).2 _ g₀ g₁ e t hg₀ hs hdid hto⟩

end Scarab.Engine
