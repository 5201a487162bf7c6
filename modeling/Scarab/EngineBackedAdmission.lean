import Scarab.EngineBackedGates

/-!
# Backed: admission and settlement

A run is started under its group's slot, a step is promoted or skipped on the signature of
what was read, and a run is settled over steps that were read terminal.
-/
namespace Scarab.Engine

open Interleave

variable {l : Call} {h h' : Past} {run : RunId}

theorem leaderTerm_quiet (owner : Text) : Quiet (leaderTerm owner) := by
  refine Quiet.bind (quiet_commit ?_ ?_) fun _ => quiet_ok _
  · exact fun _ _ => trivial
  · exact fun _ => Past.still_write rfl

theorem leaderLeg_safe {leg : Eff Unit} (hleg : Safe leg) : Safe (leaderLeg leg) := by
  refine hleg.attempt.bind fun r => ?_
  rcases r with e | a
  · split
    · exact (quiet_ok _).safe
    · exact (quiet_ok _).safe
    · exact (quiet_ok _).safe
    · exact (quiet_err _).safe
  · exact (quiet_ok _).safe

theorem underProjectCap_quiet (cfg : SchedulerConfig) (run : RunId) :
    Quiet (underProjectCap cfg run) := by
  simp only [underProjectCap]
  split
  · exact quiet_ok _
  · refine (quiet_read _).bind fun project => ?_
    split
    · exact quiet_ok _
    · exact (quiet_read _).bind fun _ => quiet_ok _

theorem enterSlot_wp {leader : LeaderTerm} {status : RunStatus}
    (hs : h.Saw (.runStatus run) (some status)) :
    (enterSlot leader run).wp (Backed l) h fun (h' : Past) entered =>
      entered = true → h'.Entered leader run := by
  refine wp_read_bind fun c => ?_
  split
  · exact fun _ => ⟨none, List.mem_cons_self, fun _ _ h => by cases h⟩
  · next group policy =>
    refine wp_commit_bind ⟨status, List.mem_cons_of_mem _ hs⟩ fun holder => ?_
    split
    · refine fun _ => ⟨some (group, policy), by simp [Past.Saw], fun group' policy' he => ?_⟩
      obtain ⟨rfl, rfl⟩ := Prod.mk.inj (Option.some.inj he)
      exact List.mem_cons_self
    · split
      · exact (cancelRun_safe _ _).wp_bind fun _ _ _ h => by cases h
      · intro h
        cases h

theorem startPending_wp {cfg : SchedulerConfig} {leader : LeaderTerm}
    (hs : ∃ status, h.Saw (.runStatus run) (some status)) :
    (startPending cfg leader run).wp (Backed l) h fun _ _ => True := by
  obtain ⟨status, hs⟩ := hs
  refine wp_read_bind fun older => ?_
  refine (Safe.forEach fun r _ => cancelRun_safe (some leader) r).wp_bind fun h₁ _ hsuf => ?_
  refine wp_read_bind fun inFlight => ?_
  split
  · trivial
  · refine (underProjectCap_quiet cfg run).wp_bind fun h₂ under hn => ?_
    split
    · trivial
    · have hs₂ : Past.Saw h₂ (.runStatus run) (some status) := hs.mono
        ((List.suffix_cons _ _).trans (hsuf.trans ((List.suffix_cons _ _).trans hn.suffix)))
      refine Prog.wp_bind (enterSlot_wp hs₂) fun h₃ entered _ hent => ?_
      split
      · trivial
      · next hyes =>
        refine Prog.wp_bind (transitionRun_wp fun at_ generation => .start leader run at_ generation
          ((hent (by simpa using hyes)).mono ⟨[_, _], rfl⟩)) fun _ _ _ _ => trivial

theorem resumeSuspended_safe (leader : LeaderTerm) (run : RunId) (status : RunStatus) :
    Safe (resumeSuspended leader run status) := by
  intro l h
  simp only [resumeSuspended]
  split
  · refine wp_read_bind fun steps => ?_
    split
    · trivial
    · exact Prog.wp_bind (transitionRun_wp fun at_ generation =>
        .resume (some leader) run at_ true generation) fun _ _ _ _ => trivial
  · trivial

theorem enforceRunBudget_safe (leader : LeaderTerm) (run : RunId) :
    Safe (enforceRunBudget leader run) := by
  intro l h
  refine wp_read_bind fun status => ?_
  split
  · refine wp_read_bind fun ir => ?_
    split
    · trivial
    · refine wp_read_bind fun events => wp_now_bind fun at_ => ?_
      dsimp only
      split
      · trivial
      · refine Prog.wp_bind cancelLiveSteps_wp fun h₁ _ _ hset => ?_
        refine Prog.wp_bind (commitRunTransitionAfter_wp fun generation =>
          .overBudget leader run at_ _ _ generation (hset.cons_still Past.still_read))
          fun h₂ _ _ _ => ?_
        exact (freeSlot_quiet run).wp_bind fun _ _ _ => trivial
  · trivial

theorem transitionStepWith_wp {step : StepId} {from_ to_ : StepStatus}
    {preceding : List EventPayload}
    (hm : ∀ at_, StepMove l (⟨.ask .now, at_⟩ :: h) (plainMove run step from_ to_ preceding at_)) :
    (transitionStepWith run step from_ to_ preceding).wp (Backed l) h fun _ _ => True :=
  wp_now_bind fun at_ => wp_commitOrLose (hm at_) (fun _ => trivial) trivial

/-- The identities a pass read, one per step of its snapshot. -/
def IdentitiesRead (h : Past) (run : RunId) (steps : List StepRun)
    (identityOf : List (StepId × Option Text)) : Prop :=
  List.Forall₂ (fun x (y : StepId × Option Text) => y.1 = x.step ∧
    h.Saw (.stepOutputIdentity run y.1) y.2) steps identityOf

theorem IdentitiesRead.mono {steps : List StepRun} {identityOf : List (StepId × Option Text)}
    (hs : h <:+ h') (hi : IdentitiesRead h run steps identityOf) :
    IdentitiesRead h' run steps identityOf :=
  List.Forall₂.imp (fun _ _ hxy => ⟨hxy.1, hxy.2.mono hs⟩) hi

theorem IdentitiesRead.saw {steps : List StepRun} {identityOf : List (StepId × Option Text)}
    (hi : IdentitiesRead h run steps identityOf) {y : StepId × Option Text} (hy : y ∈ identityOf) :
    h.Saw (.stepOutputIdentity run y.1) y.2 := by
  induction hi with
  | nil => cases hy
  | cons hxy _ ih =>
    rcases List.mem_cons.mp hy with rfl | hy
    · exact hxy.2
    · exact ih hy

theorem promoteOrSkip_wp {leader : LeaderTerm} {steps : List StepRun} {s : StepRun}
    {identityOf : List (StepId × Option Text)} (hsaw : h.Saw (.stepsOfRun run) steps)
    (hs : s ∈ steps) (hstep : s.isGate = false) (hids : IdentitiesRead h run steps identityOf) :
    (promoteOrSkip leader run identityOf s).wp (Backed l) h fun _ _ => True := by
  refine wp_read_bind fun explicit => wp_read_bind fun prev => ?_
  split
  · next hsame =>
    refine transitionStepWith_wp fun at_ => .unchanged run s.step
      (inputSignature s.needs explicit identityOf) at_ ⟨⟨steps, s, explicit, identityOf, ?_, hs, rfl,
        by simp [Past.Saw], hids.mono ⟨[_, _, _], rfl⟩, rfl⟩, by simp [Past.Saw, hsame.2], ?_⟩
    · exact hsaw.mono ⟨[_, _, _], rfl⟩
    · obtain ⟨identity, hid⟩ := Option.isSome_iff_exists.mp hsame.1
      obtain ⟨y, hfind, hy⟩ := Option.bind_eq_some_iff.mp hid
      have hstep : y.1 = s.step := by simpa using List.find?_some hfind
      have hread := (hids.mono ⟨[⟨.ask .now, at_⟩, ⟨.read (.stepInput run s.step), .ok prev⟩,
        ⟨.read (.stepInputs run s.step), .ok explicit⟩], rfl⟩).saw (List.mem_of_find?_eq_some hfind)
      rw [hstep, hy] at hread
      exact ⟨identity, hread⟩
  · refine wp_now_bind fun at_ => wp_commitOrLose ⟨⟨s, ⟨steps, ?_, hs⟩, rfl, hstep⟩, at_, rfl⟩
      (fun _ => trivial) trivial
    exact hsaw.mono ⟨[_, _, _], rfl⟩

theorem admitStep_wp {leader : LeaderTerm} {steps : List StepRun} {s : StepRun}
    {identityOf : List (StepId × Option Text)} {rows : List RunService}
    (hsaw : h.Saw (.stepsOfRun run) steps) (hs : s ∈ steps) (hstep : s.isGate = false)
    (hids : IdentitiesRead h run steps identityOf) :
    (admitStep leader run steps identityOf rows s).wp (Backed l) h fun _ _ => True := by
  simp only [admitStep]
  split
  · refine wp_read_bind fun spec => ?_
    split
    · exact transitionStepWith_wp fun at_ => .unready run s.step _ at_
    · trivial
    · exact promoteOrSkip_wp (hsaw.mono (List.suffix_cons _ _)) hs hstep
        (hids.mono (List.suffix_cons _ _))
  · split
    · exact transitionStepWith_wp fun at_ => .skip run s.step at_
    · trivial

theorem suspendIfWaiting_safe (leader : LeaderTerm) (run : RunId) (steps : List StepRun) :
    Safe (suspendIfWaiting leader run steps) := by
  intro l h
  simp only [suspendIfWaiting]
  split
  · refine wp_read_bind fun live => ?_
    split
    · next hwaits =>
      exact transitionRun_wp fun at_ generation => .suspend leader run at_ generation
        ⟨live, generation, at_, h, rfl, hwaits⟩
    · trivial
  · trivial

theorem admitSteps_safe (cfg : SchedulerConfig) (leader : LeaderTerm) (run : RunId) :
    Safe (admitSteps cfg leader run) := by
  intro l h
  refine wp_read_bind fun steps => ?_
  refine Prog.wp_bind (Prog.wp_forEach_keeps (I := fun _ => True) trivial fun s _ h' _ _ =>
    transitionStepWith_wp fun at_ => .skip run s.step at_) fun h₁ _ hsuf₁ _ => ?_
  refine Prog.wp_bind (Prog.wp_collect (P := fun (x : StepRun) (y : StepId × Option Text)
    (h'' : Past) => y.1 = x.step ∧ h''.Saw (.stepOutputIdentity run y.1) y.2)
    (fun _ _ _ _ hs hp => ⟨hp.1, hp.2.mono hs⟩)
    fun s _ h' _ => wp_read_bind fun id => ⟨rfl, List.mem_cons_self⟩) fun h₂ ids hsuf₂ hids => ?_
  refine wp_read_bind fun rows => ?_
  refine Prog.wp_bind (Prog.wp_forEach_keeps (I := fun _ => True) trivial
    fun s hs h' hsuf _ => ?_) fun h₃ _ _ _ => ?_
  · have hs := List.mem_filter.mp hs
    have hnext := (List.suffix_cons _ _).trans hsuf
    have hsaw : Past.Saw h₂ (.stepsOfRun run) steps :=
      (hsuf₁.trans hsuf₂).subset List.mem_cons_self
    refine admitStep_wp (hsaw.mono hnext) hs.1 ?_ (IdentitiesRead.mono hnext hids)
    simpa using (of_decide_eq_true hs.2).2
  · refine wp_now_bind fun at_ => wp_commit_bind trivial fun _ => ?_
    exact suspendIfWaiting_safe leader run steps l _

theorem admitLive_safe (cfg : SchedulerConfig) (leader : LeaderTerm) (run : RunId)
    (status : RunStatus) : Safe (admitLive cfg leader run status) := by
  refine (evaluateWaitingGates_safe leader run).bind fun _ =>
    (settleUnneededGates_safe run).bind fun _ =>
      (resumeSuspended_safe leader run status).bind fun go => ?_
  split
  · refine (enforceRunBudget_safe leader run).bind fun spent => ?_
    split
    · exact (quiet_ok ()).safe
    · exact admitSteps_safe cfg leader run
  · exact (quiet_ok ()).safe

theorem admitAsLeader_safe (cfg : SchedulerConfig) (leader : LeaderTerm) (run : RunId) :
    Safe (admitAsLeader cfg leader run) := by
  intro l h
  refine wp_read_bind fun status => ?_
  split
  · trivial
  · next status =>
    split
    · trivial
    · split
      · refine Prog.wp_bind (startPending_wp ⟨status, List.mem_cons_self⟩)
          fun h₁ started _ _ => ?_
        split
        · exact admitLive_safe cfg leader run status l h₁
        · trivial
      · exact admitLive_safe cfg leader run status l _

theorem admit_safe (cfg : SchedulerConfig) (owner : Text) (run : RunId) :
    Safe (admitRun cfg owner run) := by
  refine (leaderTerm_quiet owner).safe.bind fun term => ?_
  split
  · exact (quiet_ok _).safe
  · exact leaderLeg_safe (admitAsLeader_safe cfg _ run)

theorem journalVerdictless_quiet (run : RunId) (steps : List StepRun) :
    Quiet (journalVerdictless run steps) := by
  simp only [journalVerdictless]
  split
  · exact quiet_now.bind fun _ => append_quiet (by simp)
  · exact quiet_ok ()

theorem advance_safe (run : RunId) : Safe (advance run) := by
  intro l h
  refine wp_read_bind fun steps => ?_
  split
  · trivial
  · next hall =>
    push Not at hall
    refine wp_read_bind fun status => ?_
    split
    · trivial
    · next current =>
      split
      · trivial
      · next hlive =>
        refine (journalVerdictless_quiet run steps).wp_bind fun h₁ _ hn => ?_
        obtain ⟨new, rfl, hnone⟩ := hn
        have hterm : Past.StepsTerminal (new ++ ⟨.read (.runStatus run), .ok (some current)⟩ ::
            ⟨.read (.stepsOfRun run), .ok steps⟩ :: h) run steps := by
          refine Past.StepsTerminal.append hnone.noRearm (Past.StepsTerminal.cons_still
            Past.still_read ⟨hall.1, ?_, [], h, rfl, Past.noRearm_nil⟩)
          simpa using hall.2
        refine Prog.wp_bind (transitionRun_wp fun at_ generation => .settle run current steps at_
          generation (by simpa using hlive) ((hterm.cons_still Past.still_ask).cons_still
            Past.still_read)) fun h₂ _ _ _ => ?_
        exact ((teardownServices_quiet none run).safe.bind fun _ => (freeSlot_quiet run).safe) l h₂

theorem tidyDeadRun_safe (run : RunId) (at_ : Timestamp) : Safe (tidyDeadRun run at_) :=
  fun l _ => Prog.wp_bind cancelLiveSteps_wp fun h₁ _ _ _ =>
    (teardownServices_quiet none run).safe l h₁

theorem deadLetterRun_safe (run : RunId) (reason : String) : Safe (deadLetterRun run reason) := by
  intro l h
  refine wp_read_bind fun status => ?_
  split
  · trivial
  · next current =>
    split
    · trivial
    · next hlive =>
      refine wp_now_bind fun at_ => (tidyDeadRun_safe run at_).attempt.wp_bind fun h₁ tidy _ => ?_
      refine (append_quiet (by simp)).wp_bind fun h₂ _ _ => ?_
      refine Prog.wp_bind (transitionRun_wp fun at_ generation =>
        .deadLetter run current at_ generation (by simpa using hlive)) fun h₃ _ _ _ => ?_
      exact (freeSlot_quiet run).safe l h₃

end Scarab.Engine
