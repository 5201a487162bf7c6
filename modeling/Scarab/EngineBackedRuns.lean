import Scarab.EngineBacked

/-!
# Backed: cancelling and re-arming

The calls that move many steps and then, or before, the run.
-/
namespace Scarab.Engine

open Interleave

variable {l : Call} {h h' : Past} {run : RunId}

theorem append_quiet {kind : EventPayload} {at_ : Timestamp}
    (hk : (∀ step by_, kind ≠ .gateApproved step by_) ∧ kind.isNote = true) :
    Quiet (append run kind at_) :=
  quiet_commit (fun _ _ => ⟨fun step by_ he => absurd he (hk.1 step by_), hk.2⟩)
    fun _ => Past.still_write rfl

theorem stopServiceUnit_quiet (r : RunService) : Quiet (stopServiceUnit r) := by
  simp only [stopServiceUnit]
  split
  · exact quiet_ok ()
  · exact (quiet_ask _).bind fun x => quiet_orExec x

theorem teardownServices_quiet (leader : Option LeaderTerm) (run : RunId) :
    Quiet (teardownServices leader run) := by
  refine (quiet_read _).bind fun rows => Quiet.forEach fun r _ => ?_
  exact (stopServiceUnit_quiet r).bind fun _ =>
    quiet_commit (fun _ _ => trivial) fun _ => Past.still_write rfl

theorem freeSlot_quiet (run : RunId) : Quiet (freeSlot run) := by
  refine (quiet_read _).bind fun c => ?_
  split
  · exact quiet_ok ()
  · exact quiet_commit (fun _ _ => trivial) fun _ => Past.still_write rfl

theorem askUnitToStop_quiet (run : RunId) (s : StepRun) : Quiet (askUnitToStop run s) := by
  simp only [askUnitToStop]
  split
  · exact quiet_ok ()
  · refine (quiet_read _).bind fun handle => ?_
    split
    · exact quiet_ok ()
    · exact (quiet_ask _).bind fun _ => quiet_ok ()

theorem commitRunTransitionAfter_wp {leader : Option LeaderTerm} {from_ to_ : RunStatus}
    {at_ : Timestamp} {notify : Bool} {intents : List OutboxMessage} {preceding : List EventPayload}
    (hm : ∀ generation, RunMove l (⟨.read (.runReopenGeneration run), .ok generation⟩ :: h)
      (runTransition leader run from_ to_ at_ notify intents preceding generation)) :
    (commitRunTransitionAfter leader run from_ to_ at_ notify intents preceding).wp (Backed l) h
      fun (h' : Past) _ => ∃ generation, ∃ r : Except DbError Unit,
        (r = .ok () ∨ r = .error .conflict) ∧
        h' = ⟨.write (.commitRunTransition (runTransition leader run from_ to_ at_ notify intents
          preceding generation)), r⟩ ::
            ⟨.read (.runReopenGeneration run), .ok generation⟩ :: h := by
  refine wp_read_bind fun generation => wp_commitOrLose ⟨hm generation, ?_⟩ (fun _ => ?_) ?_
  · exact List.mem_cons_self
  · exact ⟨generation, .ok (), .inl rfl, rfl⟩
  · exact ⟨generation, .error .conflict, .inr rfl, rfl⟩

theorem transitionRun_wp {leader : Option LeaderTerm} {from_ to_ : RunStatus}
    (hm : ∀ at_ generation, RunMove l
      (⟨.read (.runReopenGeneration run), .ok generation⟩ :: ⟨.ask .now, at_⟩ :: h)
      (runTransition leader run from_ to_ at_ true [] [] generation)) :
    (transitionRun leader run from_ to_).wp (Backed l) h fun _ _ => True :=
  wp_now_bind fun at_ => Prog.wp_mono (commitRunTransitionAfter_wp (hm at_)) fun _ _ _ _ => trivial

theorem cancelServicesIntent_wp (at_ : Timestamp) :
    (cancelServicesIntent run at_).wp (Backed l) h fun (h' : Past) m =>
      h.Since Past.MovesNone h' ∧ IsServicesIntent run m := by
  refine wp_read_bind fun rows => wp_ask_bind fun nonce => ?_
  refine ⟨⟨[⟨.ask .nonce, nonce⟩, ⟨.read (.runServices run), .ok rows⟩], rfl, ?_⟩, rfl, rfl,
    ⟨_, rfl⟩, nonce, rfl⟩
  exact Past.MovesNone.cons Past.still_ask.movesNone Past.still_read.movesNone

theorem cancelOpenGateAttempt_wp {s : StepRun} (hs : h.SawStep run s) :
    (cancelOpenGateAttempt run s).wp (Backed l) h fun (h' : Past) _ => h.Since Past.MovesNone h' := by
  simp only [cancelOpenGateAttempt]
  split
  · next hg =>
    refine wp_read_bind fun attempts => ?_
    split
    · exact ⟨[_], rfl, Past.still_read.movesNone⟩
    · next a _ =>
      refine wp_commit_bind ⟨rfl, ⟨s, hs.mono (List.suffix_cons _ _), rfl, hg⟩, by simp⟩ fun b => ?_
      exact ⟨[_, _], rfl, Past.MovesNone.cons (Past.still_write rfl).movesNone
        Past.still_read.movesNone⟩
  · exact .refl Past.movesNone_nil

/-- One more lost try: what the next tries came to, seen from before the loss. -/
theorem cancelTried_after_loss {new : Past} {s s' : StepRun} {live : List StepRun}
    {at_ : Timestamp} {tries : ℕ} (hmem : s' ∈ live) (hsame : s'.step = s.step)
    (hend : s'.status.isTerminal = true ∨ new.CancelTried run s'.step tries) :
    Past.CancelTried (new ++ [⟨.read (.stepsOfRun run), .ok live⟩,
      ⟨.write (.commitStepTransition (cancelCommit run s at_)), .error .conflict⟩])
      run s.step (tries + 1) := by
  rw [hsame] at hend
  rcases hend with hterm | hc
  · exact .finished s' ⟨live, by simp [Past.Saw], hmem⟩ hsame hterm
  · cases hc with
    | gaveUp lost =>
      refine .gaveUp ?_
      have hone : Past.isLostCancel run s.step
          ⟨.write (.commitStepTransition (cancelCommit run s at_)), .error .conflict⟩ = true := by
        simp [Past.isLostCancel, cancelCommit]
      simp only [Past.lostCancels, List.countP_append, List.countP_cons, hone, if_true] at lost ⊢
      omega
    | cancelled x at_ same did => exact .cancelled x at_ same (List.mem_append_left _ did)
    | finished x saw same ended =>
      exact .finished x (saw.subset (List.subset_append_left _ _)) same ended
    | missing steps saw none => exact .missing steps (List.mem_append_left _ saw) none

/-- A step's cancel ends with the step cancelled, seen terminal, or every try lost. -/
theorem cancelStep_wp {at_ : Timestamp} {tries : ℕ} {s : StepRun} (hs : h.SawStep run s) :
    (cancelStep run at_ tries s).wp (Backed l) h fun (h' : Past) _ => h.Since (fun new =>
      new.NoRearm run ∧ (s.status.isTerminal = true ∨ new.CancelTried run s.step tries)) h' := by
  induction tries generalizing s h with
  | zero => exact .refl ⟨Past.noRearm_nil, .inr (.gaveUp (Nat.zero_le _))⟩
  | succ tries ih =>
    simp only [cancelStep]
    split
    · next hterm => exact .refl ⟨Past.noRearm_nil, .inl hterm⟩
    · next hlive =>
      have hlive : s.status.isTerminal = false := by simpa using hlive
      refine wp_tryCommit_bind (.cancel run s at_ hs hlive) fun r => ?_
      have hnext : h <:+ (⟨.write (.commitStepTransition (cancelCommit run s at_)), r⟩ :: h) :=
        List.suffix_cons _ _
      rcases r with e | a
      · cases e with
        | conflict =>
          refine wp_read_bind fun live => ?_
          split
          · next s' hfind =>
            have hsame : s'.step = s.step := by simpa using List.find?_some hfind
            refine Prog.wp_mono (ih ⟨live, List.mem_cons_self, List.mem_of_find?_eq_some hfind⟩)
              fun h' _ _ hnew => ?_
            obtain ⟨new, rfl, hno, hend⟩ := hnew
            refine ⟨new ++ [⟨.read (.stepsOfRun run), .ok live⟩,
              ⟨.write (.commitStepTransition (cancelCommit run s at_)), .error .conflict⟩],
              by simp, ?_, .inr (cancelTried_after_loss (List.mem_of_find?_eq_some hfind) hsame hend)⟩
            exact Past.noRearm_append.mpr ⟨hno, Past.noRearm_cons.mpr
              ⟨Past.still_read.movesNone.noRearm, Past.still_error.movesNone.noRearm⟩⟩
          · next hfind =>
            refine ⟨[_, _], rfl, ?_, .inr (.missing live List.mem_cons_self fun x hx he => ?_)⟩
            · exact Past.noRearm_cons.mpr ⟨Past.still_read.movesNone.noRearm,
                Past.still_error.movesNone.noRearm⟩
            · exact absurd he (by simpa using List.find?_eq_none.mp hfind x hx)
        | unavailable | notLeader | fenceTimeout | other => trivial
      · refine Prog.wp_mono (cancelOpenGateAttempt_wp (hs.mono hnext)) fun h' _ _ hnew => ?_
        refine hnew.cons fun new hn => ⟨?_, .inr (.cancelled s at_ rfl (by simp [Past.Did]))⟩
        exact Past.noRearm_append.mpr ⟨hn.noRearm, Past.noRearm_move (by simp [cancelCommit])⟩

/-- A loop that sees each step that was not terminal through. -/
theorem stepsSettled_wp {steps xs : List StepRun} {body : StepRun → Eff Unit}
    (hxs : ∀ s ∈ steps, s.status.isTerminal = true ∨ s ∈ xs)
    (hbody : ∀ s ∈ xs, ∀ h' : Past, (⟨.read (.stepsOfRun run), .ok steps⟩ :: h) <:+ h' →
      (body s).wp (Backed l) h' fun h'' _ => h'.Since (fun new =>
        new.NoRearm run ∧ (s.status.isTerminal = true ∨ new.CancelTried run s.step 8)) h'') :
    (Prog.forEach xs body).wp (Backed l) (⟨.read (.stepsOfRun run), .ok steps⟩ :: h)
      fun (h' : Past) _ => h'.StepsSettled run := by
  refine Prog.wp_mono (Prog.wp_forEach
    (I := Past.Since (⟨.read (.stepsOfRun run), .ok steps⟩ :: h) fun new => new.NoRearm run)
    (P := fun s => Past.Since (⟨.read (.stepsOfRun run), .ok steps⟩ :: h) fun new =>
      s.status.isTerminal = true ∨ new.CancelTried run s.step 8)
    (.refl Past.noRearm_nil) ?_ ?_) fun h' _ _ hall => ?_
  rotate_left 2
  · obtain ⟨⟨new, rfl, hno⟩, hP⟩ := hall
    refine ⟨steps, new, h, rfl, hno, fun s hs => ?_⟩
    rcases hxs s hs with hterm | hs
    · exact .inl hterm
    · obtain ⟨new', he, hend⟩ := hP s hs
      rwa [List.append_cancel_right he]
  · rintro s h₁ _ ⟨t, rfl⟩ ⟨new, rfl, hend⟩
    exact ⟨t ++ new, by rw [List.append_assoc],
      hend.imp_right (Past.CancelTried.sublist (List.sublist_append_right _ _))⟩
  · intro s hs h' hsuf hI
    refine Prog.wp_mono (hbody s hs h' hsuf) fun h'' _ _ hnew => ⟨?_, ?_⟩
    · exact hI.trans hnew fun n n' hn hn' => Past.noRearm_append.mpr ⟨hn'.1, hn⟩
    · exact hI.trans hnew fun n n' _ hn' =>
        hn'.2.imp_right (Past.CancelTried.sublist (List.sublist_append_left _ _))

theorem cancelLiveSteps_wp {at_ : Timestamp} :
    (cancelLiveSteps run at_).wp (Backed l) h fun (h' : Past) _ => h'.StepsSettled run := by
  refine wp_read_bind fun steps => stepsSettled_wp (fun s hs => ?_) fun s hs h' hsuf => ?_
  · cases hterm : s.status.isTerminal with
    | true => exact .inl rfl
    | false => exact .inr (List.mem_filter.mpr ⟨hs, by simp [hterm]⟩)
  · have hsaw : Past.SawStep h' run s :=
      ⟨steps, hsuf.subset List.mem_cons_self, (List.mem_filter.mp hs).1⟩
    refine (askUnitToStop_quiet run s).wp_bind fun h₁ _ hnew => ?_
    refine Prog.wp_mono (cancelStep_wp (hsaw.mono hnew.suffix)) fun h₂ _ _ hnew' => ?_
    exact hnew.trans hnew' fun n n' hn hn' => ⟨Past.noRearm_append.mpr ⟨hn'.1, hn.noRearm⟩,
      hn'.2.imp_right (Past.CancelTried.sublist (List.sublist_append_left _ _))⟩

theorem cancelLiveRun_wp {leader : Option LeaderTerm} {at_ : Timestamp}
    (hs : h.StepsSettled run) :
    (cancelLiveRun leader run at_).wp (Backed l) h fun _ _ => True := by
  refine wp_read_bind fun status => ?_
  split
  · trivial
  · next current =>
    split
    · trivial
    · next hlive =>
      refine Prog.wp_bind (cancelServicesIntent_wp at_) fun h' intent _ hi => ?_
      refine Prog.wp_mono (commitRunTransitionAfter_wp fun generation => ?_) fun _ _ _ _ => trivial
      refine .cancel leader run current at_ intent generation (by simpa using hlive) ?_ hi.2
      obtain ⟨new, rfl, hn⟩ := hi.1
      exact ((hs.cons_still Past.still_read).append hn.noRearm).cons_still Past.still_read

theorem cancelRun_safe (leader : Option LeaderTerm) (run : RunId) : Safe (cancelRun leader run) := by
  intro l h
  refine wp_now_bind fun at_ => Prog.wp_bind cancelLiveSteps_wp fun h₁ _ _ hs => ?_
  refine Prog.wp_bind (cancelLiveRun_wp hs) fun h₂ _ _ _ => ?_
  exact ((teardownServices_quiet leader run).safe.bind fun _ => (freeSlot_quiet run).safe) l h₂

/-- An accepted cancel has tried to move the run from the status it first read. -/
theorem cancelRunRequest_wp {by_ : Option Text} :
    (cancelRunRequest run by_).wp (Backed l) h fun (h' : Past) accepted => accepted = true →
      h'.CancelMoved run := by
  refine wp_read_bind fun status => ?_
  split
  · exact nofun
  · next current =>
    split
    · exact nofun
    · next hlive =>
      refine wp_now_bind fun at_ => (append_quiet (by simp)).wp_bind fun h₁ _ hnew => ?_
      have hsaw : Past.Saw h₁ (.runStatus run) (some current) :=
        hnew.suffix.subset (by simp)
      refine wp_read_bind fun steps => Prog.wp_bind
        (stepsSettled_wp (fun s hs => .inr hs) fun s hs h' hsuf => cancelStep_wp
          ⟨steps, hsuf.subset List.mem_cons_self, hs⟩) fun h₂ _ hsuf hset => ?_
      refine Prog.wp_bind (cancelServicesIntent_wp at_) fun h₃ intent hsuf₃ hi => ?_
      refine Prog.wp_bind (commitRunTransitionAfter_wp fun generation => ?_) fun h₄ _ hsuf₄ hdone => ?_
      · refine .cancel none run current at_ intent generation (by simpa using hlive) ?_ hi.2
        obtain ⟨new, rfl, hn⟩ := hi.1
        exact (hset.append hn.noRearm).cons_still Past.still_read
      · refine (freeSlot_quiet run).wp_bind fun h₅ _ hnew₅ _ => ?_
        obtain ⟨generation, r, hr, rfl⟩ := hdone
        obtain ⟨new, rfl⟩ := hnew₅.suffix
        have hsaw₃ : Past.Saw h₃ (.runStatus run) (some current) :=
          ((hsaw.mono (List.suffix_cons _ _)).mono hsuf).mono hsuf₃
        exact ⟨current, at_, intent, generation, r, new, _, rfl, hr,
          hsaw₃.mono (List.suffix_cons _ _), by simpa using hlive⟩

theorem snapshotKnown_quiet (present : List (Text × Bool)) (root : Text) :
    Quiet (snapshotKnown present root) := by
  simp only [snapshotKnown]
  split
  · exact quiet_ok _
  · exact (quiet_ask _).bind fun ok => quiet_ok _

theorem probe_quiet (edges : List (StepId × StepId × Text)) (present : List (Text × Bool))
    (roots : List StepId) (expired : List ExpiredInput) :
    Quiet (probe edges present roots expired) := by
  induction edges generalizing present roots expired with
  | nil => exact quiet_ok _
  | cons edge rest ih =>
    obtain ⟨consumer, producer, root⟩ := edge
    refine (snapshotKnown_quiet present root).bind fun known => ?_
    obtain ⟨ok, present'⟩ := known
    dsimp only
    split
    · exact ih _ _ _
    · exact ih _ _ _

theorem widen_quiet (steps : List StepRun) (cs : List Consumption) (n : ℕ)
    (invalid : List StepId) (present : List (Text × Bool)) (expired : List ExpiredInput) :
    Quiet (widen steps cs n invalid present expired) := by
  induction n generalizing invalid present expired with
  | zero => exact quiet_ok _
  | succ n ih =>
    refine (probe_quiet _ _ _ _).bind fun probed => ?_
    obtain ⟨present', roots, expired'⟩ := probed
    dsimp only
    split
    · exact quiet_ok _
    · exact ih _ _ _

theorem planRerunOver_quiet (snapshots : Bool) (run : RunId) (target : StepId)
    (steps : List StepRun) : Quiet (planRerunOver snapshots run target steps) := by
  refine Quiet.bind ?_ fun widened => quiet_ok _
  simp only [widenedSet]
  split
  · refine (Quiet.collect fun s _ => ?_).bind fun cs => widen_quiet _ _ _ _ _ _
    exact (quiet_read _).bind fun _ => (quiet_read _).bind fun _ => quiet_ok _
  · exact quiet_ok _

theorem ensureCreationFinished_quiet (run : RunId) : Quiet (ensureCreationFinished run) := by
  refine (quiet_read _).bind fun unfinished => ?_
  split
  · exact quiet_err _
  · exact quiet_ok ()

theorem birthServices_quiet (run : RunId) (at_ : Timestamp) : Quiet (birthServices run at_) := by
  refine (quiet_read _).bind fun rows => ?_
  split
  · exact quiet_ok ()
  · exact Quiet.forEach fun name _ =>
      quiet_commit (fun _ _ => trivial) fun _ => Past.still_write rfl

section rearm

variable {target : StepId} {by_ : Option Text}

/-- A raced step is re-armed, seen Pending, or lost again each time. -/
theorem rearmRacedStep_wp (hl : l.Reruns run target) {s : StepRun} {tries : ℕ}
    (known : ∃ x, h.SawStep run x ∧ x.step = target) :
    (rearmRacedStep run target s.step by_ tries).wp (Backed l) h fun (h' : Past) _ =>
      h.Since (fun new => tries = 0 ∨ new.Rearmed run target s) h' := by
  induction tries generalizing h with
  | zero => exact .refl (.inl rfl)
  | succ tries ih =>
    refine wp_read_bind fun live => ?_
    split
    · next hfind =>
      refine ⟨[_], rfl, .inr (.missing live List.mem_cons_self fun x hx he => ?_)⟩
      exact absurd he (by simpa using List.find?_eq_none.mp hfind x hx)
    · next s' hfind =>
      have hsame : s'.step = s.step := by simpa using List.find?_some hfind
      have hmem := List.mem_of_find?_eq_some hfind
      split
      · next hpend =>
        exact ⟨[_], rfl, .inr (.seenPending s' ⟨live, List.mem_cons_self, hmem⟩ hsame hpend)⟩
      · next hlive =>
        refine wp_now_bind fun at_ => wp_tryCommit_bind (.rearm run target s' by_ at_ hl
          ⟨live, by simp [Past.Saw], hmem⟩ hlive ?_) fun r => ?_
        · obtain ⟨x, hx, he⟩ := known
          exact ⟨x, hx.mono ⟨[_, _], rfl⟩, he⟩
        · rcases r with e | a
          · cases e with
            | conflict =>
              refine Prog.wp_mono (ih ?_) fun h' _ _ hnew => ?_
              · obtain ⟨x, hx, he⟩ := known
                exact ⟨x, hx.mono ⟨[_, _, _], rfl⟩, he⟩
              · obtain ⟨new, rfl, hend⟩ := hnew
                refine ⟨new ++ [⟨.write (.commitStepTransition (rearmCommit run target s' by_ at_)),
                  .error .conflict⟩, ⟨.ask .now, at_⟩, ⟨.read (.stepsOfRun run), .ok live⟩],
                  by simp, .inr ?_⟩
                rcases hend with rfl | hend
                · exact .raced s' by_ at_ new _ hsame hlive rfl
                    (.inr ⟨live, by simp [Past.Saw], hmem⟩)
                · exact hend.grow [] _
            | unavailable | notLeader | fenceTimeout | other => trivial
          · exact ⟨[_, _, _], rfl, .inr (.rearmed s' by_ at_ hsame List.mem_cons_self)⟩

/-- Each step of the plan is seen to. -/
theorem rearmPlanned_wp (hl : l.Reruns run target) {s : StepRun} (hs : h.SawStep run s)
    (known : ∃ x, h.SawStep run x ∧ x.step = target) :
    (rearmPlanned run target by_ s).wp (Backed l) h fun (h' : Past) _ =>
      h.Since (fun new => new.Rearmed run target s) h' := by
  simp only [rearmPlanned]
  split
  · next hpend =>
    split
    · next hidle => exact .refl (.waiting hpend hidle)
    · next a hopen =>
      have hgate : s.isGate = true := by
        by_contra hg
        simp [openGateAttempt, hg] at hopen
      refine Prog.wp_bind (Q := fun (h' : Past) (b : Bool) => ∃ at_, h' =
        ⟨.write (.closeRunningAttempt run s.step a.id .superseded
          (some ⟨run, .attemptSuperseded s.step a.id by_, at_⟩)), .ok b⟩ :: ⟨.ask .now, at_⟩ :: h)
        ?_ fun h' b _ hb => ?_
      · refine wp_now_bind fun at_ => wp_commit ⟨rfl, ⟨s, hs.mono (List.suffix_cons _ _), rfl,
          hgate⟩, fun e he => ⟨by_, at_, (Option.some.inj he).symm⟩⟩ fun b => ⟨at_, rfl⟩
      · obtain ⟨at_, rfl⟩ := hb
        cases b with
        | true => exact ⟨[_, _], rfl, .superseded a by_ at_ hpend hopen List.mem_cons_self⟩
        | false =>
          refine Prog.wp_mono (rearmRacedStep_wp hl ?_) fun h' _ _ hnew => ?_
          · obtain ⟨x, hx, he⟩ := known
            exact ⟨x, hx.mono ⟨[_, _], rfl⟩, he⟩
          · obtain ⟨new, rfl, hend⟩ := hnew
            refine ⟨new ++ [_, _], by simp; exact ⟨rfl, rfl⟩, ?_⟩
            exact (hend.resolve_left (by simp)).grow [] _
  · next hlive =>
    refine wp_now_bind fun at_ => wp_tryCommit_bind (.rearm run target s by_ at_ hl
      (hs.mono (List.suffix_cons _ _)) hlive ?_) fun r => ?_
    · obtain ⟨x, hx, he⟩ := known
      exact ⟨x, hx.mono (List.suffix_cons _ _), he⟩
    · rcases r with e | a
      · cases e with
        | conflict =>
          refine Prog.wp_mono (rearmRacedStep_wp hl ?_) fun h' _ _ hnew => ?_
          · obtain ⟨x, hx, he⟩ := known
            exact ⟨x, hx.mono ⟨[_, _], rfl⟩, he⟩
          · obtain ⟨new, rfl, hend⟩ := hnew
            refine ⟨new ++ [_, _], by simp; exact ⟨rfl, rfl⟩, ?_⟩
            exact (hend.resolve_left (by simp)).grow [] _
        | unavailable | notLeader | fenceTimeout | other => trivial
      · exact ⟨[_, _], rfl, .rearmed s by_ at_ rfl List.mem_cons_self⟩

theorem reopen_safe (hl : l.Reruns run target) {from_ : RunStatus}
    (hterm : from_.isTerminal = true) :
    (reopen run from_ .running).wp (Backed l) h fun _ _ => True :=
  wp_now_bind fun at_ => Prog.wp_mono (commitRunTransitionAfter_wp fun generation =>
    .reopen run target from_ at_ generation hl hterm) fun _ _ _ _ => trivial

theorem reopenSettled_wp (hl : l.Reruns run target) :
    (reopenSettled run).wp (Backed l) h fun _ _ => True := by
  refine wp_read_bind fun status => ?_
  split
  · trivial
  · split
    · next hterm => exact reopen_safe hl hterm
    · trivial

theorem rearmInvalidationSet_wp (hl : l.Reruns run target) {plan : RerunPlan}
    {steps : List StepRun} (hs : h.Saw (.stepsOfRun run) steps)
    (known : ∃ x ∈ steps, x.step = target) :
    (rearmInvalidationSet run target plan steps by_).wp (Backed l) h fun (h' : Past) _ =>
      h.Since (fun new => ∀ s ∈ steps, s.step ∈ plan.invalidated → new.Rearmed run target s) h' := by
  obtain ⟨x, hx, hxt⟩ := known
  refine wp_commit_bind rfl fun _ => Prog.wp_bind (Prog.wp_forEach_keeps (I := fun _ => True) trivial
    fun w _ h' _ _ => wp_commit rfl fun _ => trivial) fun h₁ _ hsuf₁ _ => ?_
  refine Prog.wp_bind (reopenSettled_wp hl) fun h₂ _ hsuf₂ _ => ?_
  have hbase : h <:+ h₂ := (List.suffix_cons _ _).trans (hsuf₁.trans hsuf₂)
  refine Prog.wp_mono (Prog.wp_forEach (I := fun _ => True)
    (P := fun s => Past.Since h₂ fun new => new.Rearmed run target s) trivial ?_ ?_)
    fun h₃ _ hsuf₃ hall => ?_
  rotate_left 2
  · obtain ⟨t, rfl⟩ := hbase
    obtain ⟨t₃, rfl⟩ := hsuf₃
    refine ⟨t₃ ++ t, by rw [List.append_assoc], fun s hs hin => ?_⟩
    obtain ⟨new, he, hend⟩ := hall.2 s (List.mem_filter.mpr ⟨hs, by simpa using hin⟩)
    rw [List.append_cancel_right he]
    simpa using hend.grow [] t
  · rintro s h₁ _ ⟨t, rfl⟩ ⟨new, rfl, hend⟩
    exact ⟨t ++ new, by rw [List.append_assoc], by simpa using hend.grow t []⟩
  · intro s hs' h' hsuf _
    have hsaw : Past.Saw h' (.stepsOfRun run) steps := hs.mono (hbase.trans hsuf)
    refine Prog.wp_mono (rearmPlanned_wp hl ⟨steps, hsaw, (List.mem_filter.mp hs').1⟩
      ⟨x, ⟨steps, hsaw, hx⟩, hxt⟩) fun h'' _ _ hnew => ⟨trivial, ?_⟩
    obtain ⟨t, rfl⟩ := hsuf
    obtain ⟨new, rfl, hend⟩ := hnew
    exact ⟨new ++ t, by rw [List.append_assoc], by simpa using hend.grow [] t⟩

/-- The common tail of a rerun and a retry: journal the request, then re-arm. -/
theorem rearmed_wp (hl : l.Reruns run target) {steps : List StepRun} {s : StepRun}
    {snapshots : Bool} {kind : RerunPlan → EventPayload} (births : Timestamp → Eff Unit)
    (hs : s ∈ steps) (ht : s.step = target) (hk : ∀ plan, (∀ step by_, kind plan ≠ .gateApproved step by_) ∧ (kind plan).isNote = true)
    (hb : ∀ at_, Quiet (births at_)) :
    ((planRerunOver snapshots run target steps).bind fun plan => now.bind fun at_ =>
      (commit (.appendEvent ⟨run, kind plan, at_⟩)).bind fun _ => (births at_).bind fun _ =>
        (rearmInvalidationSet run target plan steps by_).bind fun _ => .ok plan).wp (Backed l)
      (⟨.read (.stepsOfRun run), .ok steps⟩ :: h)
      fun (h' : Past) plan => h'.PlanRearmed run target plan := by
  refine (planRerunOver_quiet snapshots run target steps).wp_bind fun h₁ plan hn₁ => ?_
  refine wp_now_bind fun at_ => wp_commit_bind
    ⟨fun step by_ he => absurd he ((hk plan).1 step by_), (hk plan).2⟩ fun _ => (hb at_).wp_bind fun h₂ _ hn₂ => ?_
  have hsuf : (⟨.read (.stepsOfRun run), .ok steps⟩ :: h : Past) <:+ h₂ :=
    hn₁.suffix.trans ((List.suffix_append [_, _] _).trans hn₂.suffix)
  refine Prog.wp_bind (rearmInvalidationSet_wp hl (hsuf.subset List.mem_cons_self) ⟨s, hs, ht⟩)
    fun h₃ _ _ hnew => ?_
  obtain ⟨t, rfl⟩ := hsuf
  obtain ⟨new, rfl, hend⟩ := hnew
  refine ⟨steps, new ++ t, h, by rw [List.append_assoc], fun x hx hin => ?_⟩
  simpa using (hend x hx hin).grow [] t

theorem rerunStepWidened_wp (hl : l.Reruns run target) {snapshots : Bool} :
    (rerunStepWidened snapshots run target by_).wp (Backed l) h
      fun (h' : Past) plan => h'.PlanRearmed run target plan := by
  refine (ensureCreationFinished_quiet run).wp_bind fun h₁ _ _ => wp_read_bind fun steps => ?_
  split
  · trivial
  · next s hfind =>
    split
    · trivial
    · exact rearmed_wp hl _ (List.mem_of_find?_eq_some hfind)
        (by simpa using List.find?_some hfind) (by simp) (birthServices_quiet run)

theorem retryStepWidened_wp (hl : l.Reruns run target) {snapshots : Bool} :
    (retryStepWidened snapshots run target by_).wp (Backed l) h
      fun (h' : Past) plan => h'.PlanRearmed run target plan := by
  refine (ensureCreationFinished_quiet run).wp_bind fun h₁ _ _ => wp_read_bind fun steps => ?_
  split
  · trivial
  · next s hfind =>
    split
    · trivial
    · split
      · trivial
      · exact rearmed_wp hl (fun _ => .ok ()) (List.mem_of_find?_eq_some hfind)
          (by simpa using List.find?_some hfind) (by simp) fun _ => quiet_ok ()

end rearm
end Scarab.Engine
