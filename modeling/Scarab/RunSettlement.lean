import Scarab.EngineEvolution

/-!
# A settled run's steps are settled

Settling a run reads its steps and moves the run in a later commit that is guarded on the
run alone. This holds as long as no step is re-armed in between, and no step of a terminal
run is.
-/
namespace Scarab.Engine

open Interleave

variable {run : RunId} {step : StepId} {db₀ : Db}

/-- A Succeeded run has only Succeeded and Skipped steps; between calls, a run that ended has
no step left to do. -/
structure Settled (run : RunId) (g : Config engine) : Prop where
  succeeded : g.db.runs run = .succeeded → ∀ step ∈ g.db.stepIds run,
    (g.db.steps run step).status = .succeeded ∨ (g.db.steps run step).status = .skipped
  idle : g.Idle → g.db.runs run = .succeeded ∨ g.db.runs run = .failed ∨
      g.db.runs run = .cancelled → ∀ step ∈ g.db.stepIds run,
    (g.db.steps run step).status ≠ .pending ∧ (g.db.steps run step).status ≠ .ready ∧
      (g.db.steps run step).status ≠ .running

/-- The step took one of the run's steps out of a terminal status. -/
def Rearms (run : RunId) (step : StepId) (e : Entry engine) : Prop :=
  (e.pre.steps run step).status.isTerminal = true ∧
    (e.post.steps run step).status.isTerminal = false

/-- The call read the run's steps, or moved this one, and the step is terminal. -/
def SeesTerminal (run : RunId) (step : StepId) (e : Entry engine) : Prop :=
  (e.post.steps run step).status.isTerminal = true ∧
    ((∃ steps, e.what = .did (.read (.stepsOfRun run)) (.ok steps)) ∨
      ∃ t, e.Did (.commitStepTransition t) () ∧ t.run = run ∧ t.step = step)

/-- The steps under which a settled run stays settled. -/
structure KeepsSettled (run : RunId) (g : Config engine) (e : Entry engine) : Prop where
  terminal : (g.db.runs run).isTerminal = true → ∀ step, ¬Rearms run step e
  window : ∀ t, e.Did (.commitRunTransition t) () → t.run = run → t.to_.isTerminal = true →
    ∀ newer seen older, g.log = newer ++ seen :: older → seen.pid = e.pid →
      ∀ step, SeesTerminal run step seen → ∀ x ∈ newer, x.pid ≠ e.pid → ¬Rearms run step x
  tries : ∀ step, Past.lostCancels (ownOf (e :: g.log) e.pid) run step < 8

theorem Rewrites.of_terminal {l : Call} {h : Past} {db : Db} {t : Tx} {r : StepRec}
    (hb : Backed l h (.write t)) (hr : Rewrites db t run step r)
    (hterm : (db.steps run step).status.isTerminal = true) :
    r.status = (db.steps run step).status ∨
      ∃ m, t = .commitStepTransition m ∧ m.run = run ∧ m.to_ = .pending ∧ r.status = .pending := by
  obtain ⟨-, heff⟩ := hr
  cases heff with
  | moved m hrun hstep from_ frontier =>
    rw [from_] at hterm
    have hto := StepMove.to_pending_of_terminal hb hterm
    exact .inr ⟨m, rfl, hrun, hto, hto⟩
  | promoted leader signature events pending | waitOpened leader startedAt at_ pending
  | resolved res attempt minted attempts pending =>
    simp [pending, StepStatus.isTerminal] at hterm
  | claimed leader limit now ready => simp [ready, StepStatus.isTerminal] at hterm
  | closed | signed | output | results | ingested | failed => exact .inl rfl

section kept

variable {cond : Config engine → Entry engine → Prop} {g g₀ g₁ : Config engine} {e : Entry engine}

/-- A step that re-arms nothing keeps a terminal status as it is. -/
theorem step_status_kept (hr : Reach cond db₀ g) (hs : Step g e g₁)
    (hterm : (g.db.steps run step).status.isTerminal = true) (hno : ¬Rearms run step e) :
    (g₁.db.steps run step).status = (g.db.steps run step).status := by
  rcases hr.step_row hs run step with hsame | ⟨t, a, l, -, -, hb, hrw⟩
  · rw [hsame]
  · rcases hrw.of_terminal hb hterm with hsame | ⟨-, -, -, -, hpend⟩
    · exact hsame
    · refine absurd ⟨?_, ?_⟩ hno
      · rw [Entry.pre, hs.before_eq]
        exact hterm
      · rw [Entry.post, hs.after_eq]
        exact hpend ▸ rfl

theorem status_kept (hr : Reach cond db₀ g₀) (hrun : Runs cond g₀ g)
    (hterm : (g₀.db.steps run step).status.isTerminal = true) {newer : List (Entry engine)}
    (hlog : g.log = newer ++ g₀.log) (hno : ∀ x ∈ newer, ¬Rearms run step x) :
    (g.db.steps run step).status = (g₀.db.steps run step).status := by
  induction hrun generalizing newer with
  | refl => rfl
  | @tail g₁ g₂ e init hs meets ih =>
    obtain ⟨mid, hmid⟩ := init.log_eq
    have hnewer : newer = e :: mid := by
      rw [hs.log_eq, hmid, ← List.cons_append] at hlog
      exact (List.append_cancel_right hlog).symm
    have hsame := ih hmid fun x hx => hno x (by simp [hnewer, hx])
    rw [← hsame] at hterm
    rw [← hsame]
    exact step_status_kept (hr.extend init) hs hterm (hno e (by simp [hnewer]))

/-- A call's own re-arm is one of its moves back to Pending. -/
theorem not_rearms_of_noRearm (hr : Reach cond db₀ g) (hs : Step g e g₁) {h : Past}
    (hno : h.NoRearm run) (hown : ownOf [e] e.pid ⊆ h) : ¬Rearms run step e := by
  rintro ⟨hpre, hpost⟩
  rw [Entry.pre, hs.before_eq] at hpre
  rw [Entry.post, hs.after_eq] at hpost
  rcases hr.step_row hs run step with hsame | ⟨t, a, l, hdid, -, hb, hrw⟩
  · rw [hsame] at hpost
    exact absurd (hpre.symm.trans hpost) (by simp)
  · rcases hrw.of_terminal hb hpre with hsame | ⟨m, rfl, hm, hto, -⟩
    · rw [hsame] at hpost
      exact absurd (hpre.symm.trans hpost) (by simp)
    · exact hno m (hown (mem_ownOf.mpr ⟨e, by simp, rfl, hdid⟩)) hm hto

end kept

/-- The call saw this step terminal at some point of its past, and has re-armed no step of
the run since. -/
def SawTerminal (g : Config engine) (pid : ℕ) (run : RunId) (step : StepId)
    (status : StepStatus) : Prop :=
  ∃ newer seen older, g.log = newer ++ seen :: older ∧ seen.pid = pid ∧
    SeesTerminal run step seen ∧ (seen.post.steps run step).status = status ∧
    (ownOf newer pid : Past).NoRearm run

section settle

variable {g g₁ : Config engine} {e : Entry engine}

/-- What a settling call saw terminal is as it saw it when it settles the run. -/
theorem SawTerminal.status (hr : Reach (KeepsSettled run) db₀ g) (hk : KeepsSettled run g e)
    {t : RunTransition} (hd : e.Did (.commitRunTransition t) ()) (ht : t.run = run)
    (hto : t.to_.isTerminal = true) {status : StepStatus}
    (hsaw : SawTerminal g e.pid run step status) :
    (g.db.steps run step).status = status ∧ status.isTerminal = true := by
  obtain ⟨newer, seen, older, hlog, hpid, hsees, rfl, hno⟩ := hsaw
  obtain ⟨g₀, g₂, hr₀, hs₀, hk₀, hrun, rfl⟩ := hr.at_entry hlog
  have hterm := hsees.1
  rw [Entry.post, hs₀.after_eq] at hterm ⊢
  refine ⟨status_kept (hr₀.next hs₀ hk₀) hrun hterm (by rw [hlog, hs₀.log_eq]) fun x hx => ?_, hterm⟩
  by_cases hx' : x.pid = e.pid
  · obtain ⟨n₁, n₂, rfl⟩ := List.append_of_mem hx
    have hsplit : g.log = n₁ ++ x :: (n₂ ++ seen :: g₀.log) := by rw [hlog]; simp
    obtain ⟨gx, gx', hrx, hsx, -, -, -⟩ := hr.at_entry hsplit
    refine not_rearms_of_noRearm hrx hsx hno ?_
    rw [hx']
    exact ownOf_subset (by simp)
  · exact hk.window t hd ht hto newer seen _ hlog hpid step hsees x hx hx'

/-- A snapshot the call read, seen as a step of the run. -/
theorem sawTerminal_of_read {cond : Config engine → Entry engine → Prop} {pid : ℕ}
    (hr : Reach cond db₀ g) {steps : List StepRun} {newer older : Past}
    (hpast : ownOf g.log pid = newer ++
      (⟨.read (.stepsOfRun run), .ok steps⟩ : Exchange Cmd Resp) :: older)
    (hno : newer.NoRearm run) {s : StepRun} (hs : s ∈ steps) (hterm : s.status.isTerminal = true) :
    SawTerminal g pid run s.step s.status := by
  obtain ⟨g₀, e₀, g₁, newer', hr₀, hs₀, hc₀, hrun, hlog, hp, hw, hn, ho⟩ := hr.moment_split hpast
  obtain ⟨rfl, hsame⟩ := hs₀.read_eq hw
  have hrow := (of_mem_stepsOfRun hs).2
  have hstatus : (e₀.post.steps run s.step).status = s.status := by
    rw [Entry.post, hs₀.after_eq]
    rw [show (g₁.state : Db) = g₀.db from hsame]
    exact (congrArg StepRun.status hrow).symm
  exact ⟨newer', e₀, g₀.log, hlog, hp, ⟨hstatus ▸ hterm, .inl ⟨_, hw⟩⟩, hstatus, by rwa [hn]⟩

theorem sawTerminal_of_cancel {cond : Config engine → Entry engine → Prop} {pid : ℕ}
    (hr : Reach cond db₀ g) {s : StepRun} {at_ : Timestamp} {newer older : Past}
    (hpast : ownOf g.log pid = newer ++ (⟨.write (.commitStepTransition (cancelCommit run s at_)),
      .ok ()⟩ : Exchange Cmd Resp) :: older)
    (hno : newer.NoRearm run) : SawTerminal g pid run s.step .cancelled := by
  obtain ⟨g₀, e₀, g₁, newer', hr₀, hs₀, hc₀, hrun, hlog, hp, hw, hn, ho⟩ := hr.moment_split hpast
  obtain ⟨w, hexec⟩ := hs₀.write_eq hw
  obtain ⟨-, -, -, hpost⟩ := Db.commitStepTransition_ok (Tx.done_eq_ok hexec)
  have hstatus : (e₀.post.steps run s.step).status = .cancelled := by
    rw [Entry.post, hs₀.after_eq]
    rw [show (g₁.state : Db) = _ from hpost]
    simp [Db.journal, cancelCommit]
  exact ⟨newer', e₀, g₀.log, hlog, hp, ⟨hstatus ▸ rfl, .inr ⟨_, hw, rfl, rfl⟩⟩, hstatus,
    by rwa [hn]⟩

/-- Every step a cancelling call has seen through it saw terminal. -/
theorem sawTerminal_of_settled {cond : Config engine → Entry engine → Prop} {pid : ℕ}
    (hr : Reach cond db₀ g) (hset : Past.StepsSettled (ownOf g.log pid) run)
    (htries : Past.lostCancels (ownOf g.log pid) run step < 8)
    (hstep : step ∈ db₀.stepIds run) : ∃ status, SawTerminal g pid run step status := by
  obtain ⟨steps, newer, older, hpast, hno, hall⟩ := hset
  have hread : ∀ xs, Past.Saw (ownOf g.log pid) (.stepsOfRun run) xs → ∃ s ∈ xs, s.step = step := by
    intro xs hxs
    obtain ⟨g₀, -, -, hr₀, rfl, -⟩ := hr.saw hxs
    exact ⟨_, mem_stepsOfRun (by rwa [hr₀.shape.2.1]), rfl⟩
  obtain ⟨s, hs, rfl⟩ := hread steps (by rw [hpast]; exact List.mem_append_right _ (by simp))
  rcases hall s hs with hterm | hc
  · exact ⟨_, sawTerminal_of_read hr hpast hno hs hterm⟩
  · have hnewer : newer ⊆ ownOf g.log pid := fun x hx => hpast ▸ List.mem_append_left _ hx
    -- an exchange since that read, with what the call did after it
    have hsplit : ∀ x ∈ newer, ∃ n₁ n₂ : Past, ownOf g.log pid = n₁ ++ x :: n₂ ∧ n₁.NoRearm run := by
      intro x hx
      obtain ⟨n₁, n₂, rfl⟩ := List.append_of_mem hx
      exact ⟨n₁, _, by rw [hpast, List.append_assoc]; rfl, (Past.noRearm_append.mp hno).1⟩
    cases hc with
    | cancelled s' at_ same did =>
      obtain ⟨n₁, n₂, hp, hn⟩ := hsplit _ did
      exact ⟨_, same ▸ sawTerminal_of_cancel hr hp hn⟩
    | finished s' saw same ended =>
      obtain ⟨xs, hxs, hs'⟩ := saw
      obtain ⟨n₁, n₂, hp, hn⟩ := hsplit _ hxs
      exact ⟨_, same ▸ sawTerminal_of_read hr hp hn hs' ended⟩
    | missing xs saw none =>
      obtain ⟨s', hs', he⟩ := hread xs (hnewer saw)
      exact absurd he (none s' hs')
    | gaveUp lost =>
      have hle : newer.lostCancels run s.step ≤ Past.lostCancels (ownOf g.log pid) run s.step := by
        rw [hpast]
        exact (List.sublist_append_left _ _).countP_le
      omega

/-- The settled status of steps that are all terminal. -/
theorem of_settledAs_succeeded {steps : List StepRun} (hs : settledAs steps = .succeeded)
    {s : StepRun} (hmem : s ∈ steps) (hterm : s.status.isTerminal = true) :
    s.status = .succeeded ∨ s.status = .skipped := by
  simp only [settledAs] at hs
  split_ifs at hs with hdead hany
  simp only [List.any_eq_true, decide_eq_true_eq, not_exists, not_and, not_or] at hany
  obtain ⟨hf, hc⟩ := hany s hmem
  cases hst : s.status <;> simp_all [StepStatus.isTerminal]

/-- A run that ended has only terminal steps, and a Succeeded one only good ones. -/
def AllTerminal (run : RunId) (db : Db) : Prop :=
  (db.runs run = .succeeded ∨ db.runs run = .failed ∨ db.runs run = .cancelled →
    ∀ step ∈ db.stepIds run, (db.steps run step).status.isTerminal = true) ∧
  (db.runs run = .succeeded → ∀ step ∈ db.stepIds run,
    (db.steps run step).status = .succeeded ∨ (db.steps run step).status = .skipped)

/-- Steps seen terminal by the settling call make the settled run's steps terminal. -/
theorem allTerminal_of_saw (hr : Reach (KeepsSettled run) db₀ g) (hk : KeepsSettled run g e)
    (hs : Step g e g₁) {t : RunTransition} (hd : e.Did (.commitRunTransition t) ())
    (ht : t.run = run) (hto : t.to_.isTerminal = true) (hruns : g₁.db.runs run = t.to_)
    (hsteps : g₁.db.steps = g.db.steps)
    (hsaw : ∀ step ∈ db₀.stepIds run, ∃ status, SawTerminal g e.pid run step status ∧
      (t.to_ = .succeeded → status = .succeeded ∨ status = .skipped)) :
    AllTerminal run g₁.db := by
  have hids : g₁.db.stepIds = db₀.stepIds := (hr.next hs hk).shape.2.1
  refine ⟨fun _ step hstep => ?_, fun hsucc step hstep => ?_⟩
  · obtain ⟨status, hst, -⟩ := hsaw step (hids ▸ hstep)
    obtain ⟨h1, h2⟩ := hst.status hr hk hd ht hto
    rw [hsteps, h1]
    exact h2
  · obtain ⟨status, hst, hgood⟩ := hsaw step (hids ▸ hstep)
    rw [hsteps, (hst.status hr hk hd ht hto).1]
    exact hgood (hruns ▸ hsucc)

theorem step_allTerminal (hcre : db₀.creating run = false) (hr : Reach (KeepsSettled run) db₀ g)
    (hs : Step g e g₁) (hk : KeepsSettled run g e) (hinv : AllTerminal run g.db) :
    AllTerminal run g₁.db := by
  have hids : g₁.db.stepIds = g.db.stepIds := (hr.step_shape hs).2.1
  rcases hr.step_run hs run with ⟨hrun, -⟩ | ⟨t, l, hd, ht, -, hm, hfrom, hto, hsteps, -⟩
  · -- the run's status stays: a step that was terminal is not re-armed
    have hkept : ∀ step, (g.db.runs run).isTerminal = true →
        (g.db.steps run step).status.isTerminal = true →
        (g₁.db.steps run step).status = (g.db.steps run step).status := fun step hrt ht =>
      step_status_kept hr hs ht (hk.terminal hrt step)
    rw [AllTerminal, hrun, hids]
    refine ⟨fun hend step hstep => ?_, fun hsucc step hstep => ?_⟩
    · have hterm := hinv.1 hend step hstep
      rwa [hkept step (by rcases hend with h | h | h <;> simp [h, RunStatus.isTerminal]) hterm]
    · have hterm := hinv.1 (.inl hsucc) step hstep
      rw [hkept step (by simp [hsucc, RunStatus.isTerminal]) hterm]
      exact hinv.2 hsucc step hstep
  · have hall := fun htt hsaw =>
      allTerminal_of_saw hr hk hs hd ht htt hto hsteps hsaw
    have htries : ∀ step, Past.lostCancels (ownOf g.log e.pid) run step < 8 := fun step =>
      lt_of_le_of_lt (List.Sublist.countP_le (ownOf_sublist (List.sublist_cons_self _ _)))
        (hk.tries step)
    cases hm with
    | start | resume | suspend | reopen | deadLetter =>
      simp only [runTransition] at hto
      simp [AllTerminal, hto]
    | settle run' from_ steps at_ generation live terminal =>
      obtain rfl : run' = run := ht
      obtain ⟨-, hterm, newer, older, hpast, hno⟩ := terminal
      have hread : Past.Saw (ownOf g.log e.pid) (.stepsOfRun run') steps := by
        rw [Past.Saw, hpast]
        simp
      obtain ⟨g₀, -, -, hr₀, hx, -⟩ := hr.saw hread
      have hsaw : ∀ step ∈ db₀.stepIds run', ∃ s ∈ steps, s.step = step := by
        intro step hstep
        rw [hx]
        exact ⟨_, mem_stepsOfRun (by rwa [hr₀.shape.2.1]), rfl⟩
      by_cases htt : (settledAs steps).isTerminal = true
      · refine hall htt fun step hstep => ?_
        obtain ⟨s, hs', rfl⟩ := hsaw step hstep
        exact ⟨s.status, sawTerminal_of_read hr hpast hno hs' (hterm s hs'),
          fun hsucc => of_settledAs_succeeded hsucc hs' (hterm s hs')⟩
      · exact absurd (by simp only [settledAs]; split_ifs <;> rfl) htt
    | cancel leader run' from_ at_ intent generation live steps services =>
      obtain rfl : run' = run := ht
      refine hall rfl fun step hstep => ?_
      obtain ⟨status, hst⟩ := sawTerminal_of_settled hr steps (htries step) hstep
      exact ⟨status, hst, fun h => by cases h⟩
    | overBudget leader run' at_ active budget generation steps =>
      obtain rfl : run' = run := ht
      refine hall rfl fun step hstep => ?_
      obtain ⟨status, hst⟩ := sawTerminal_of_settled hr steps (htries step) hstep
      exact ⟨status, hst, fun h => by cases h⟩
    | uncreated leader run' cutoff runs reason at_ generation saw stale =>
      obtain rfl : run' = run := ht
      obtain ⟨g₀, -, -, hr₀, rfl, -⟩ := hr.saw saw
      have hin := (List.mem_filter.mp stale).2
      simp [hr₀.shape.2.2.1, hcre] at hin

/-- In every run whose steps re-arm no step of a terminal run, and none between a settling
call's look at it and its settling of the run, a settled run's steps are settled. -/
theorem settled_of_keepsSettled (hfresh : db₀.Fresh) (hcre : db₀.creating run = false)
    (hr : Reach (KeepsSettled run) db₀ g) : Settled run g := by
  have hinv : AllTerminal run g.db := by
    refine Runs.keeps (P := fun g' => AllTerminal run g'.db)
      (fun _ _ _ hpre hs hk hinv => step_allTerminal hcre hpre hs hk hinv) hr ?_
    show AllTerminal run db₀
    simp [AllTerminal, hfresh.runs run]
  refine ⟨hinv.2, fun _ hend step hstep => ?_⟩
  have hterm := hinv.1 hend step hstep
  refine ⟨?_, ?_, ?_⟩ <;> · intro hst; rw [hst] at hterm; cases hterm

end settle

/-- The step moved no step row to Pending, and lost no compare-and-set. -/
def movesOn (e : Entry engine) : Bool :=
  match e.what with
  | .did (.write (.commitStepTransition t)) (.ok _) => t.to_ ≠ .pending
  | .did (.write _) (.error _) => false
  | _ => true

theorem noRearm_of_movesOn {e : Entry engine} (he : movesOn e = true) :
    Past.NoRearm (ownOf [e] e.pid) run := by
  intro t ht _ hto
  obtain ⟨e', he', -, hw⟩ := mem_ownOf.mp ht
  obtain rfl := List.mem_singleton.mp he'
  simp [movesOn, hw, hto] at he

theorem not_lostCancel_of_movesOn {log : List (Entry engine)} {pid : ℕ}
    (he : ∀ e ∈ log, movesOn e = true) : Past.lostCancels (ownOf log pid) run step = 0 := by
  refine List.countP_eq_zero.mpr fun x hx hlost => ?_
  obtain ⟨e, hmem, -, hw⟩ := mem_ownOf.mp hx
  obtain ⟨c, r⟩ := x
  simp only [Past.isLostCancel] at hlost
  split at hlost
  · next heq =>
    obtain ⟨rfl, hr⟩ := Sigma.mk.inj heq
    obtain rfl := eq_of_heq hr
    simpa [movesOn, hw] using he e hmem
  · cases hlost

/-- A run that never moves a step back to Pending keeps settled runs settled. -/
theorem keepsSettled_of_movesOn (run : RunId) {g : Config engine} (hr : Reach (fun _ _ => True) db₀ g)
    (hlog : ∀ e ∈ g.log, movesOn e = true) : Reach (KeepsSettled run) db₀ g := by
  refine hr.of_log hlog fun g e g₁ hg hs hold he => ⟨fun _ step => ?_, ?_, fun step => ?_⟩
  · exact not_rearms_of_noRearm hg hs (noRearm_of_movesOn he) (fun x hx => hx)
  · intro t _ _ _ newer seen older hl _ step _ x hx _
    obtain ⟨n₁, n₂, rfl⟩ := List.append_of_mem hx
    have hsplit : g.log = n₁ ++ x :: (n₂ ++ seen :: older) := by rw [hl]; simp
    obtain ⟨gx, gx', hrx, hsx, -, -, -⟩ := hg.at_entry hsplit
    exact not_rearms_of_noRearm hrx hsx
      (noRearm_of_movesOn (hold x (by rw [hsplit]; simp))) (fun x hx => hx)
  · rw [not_lostCancel_of_movesOn]
    · simp
    · simpa using ⟨he, hold⟩

/-- Admit the step, drive it to success, settle the run. -/
theorem settled_of_keepsSettled_once : ∃ g, Reach (KeepsSettled runR) oneStepDb g ∧
    g.db.runs runR = .succeeded ∧ Settled runR g := by
  obtain ⟨g, hg, htest⟩ := Reach.of_play (M := engine) oneStepDb
    [.start (.admitRun plainConfig [] runR), .runOut 0 60 (calm .succeeded none),
      .start (.reconcile plainConfig []), .runOut 1 60 (calm .succeeded none),
      .start (.advance runR), .runOut 2 60 (calm .succeeded none)]
    (fun g => g.log.all movesOn && decide (g.db.runs runR = .succeeded)) (by decide +kernel)
  simp only [Bool.and_eq_true, List.all_eq_true, decide_eq_true_eq] at htest
  have hr := keepsSettled_of_movesOn runR hg htest.1
  exact ⟨g, hr, htest.2, settled_of_keepsSettled (createdDb_fresh _ _ _) rfl hr⟩

/-- The calls of ticks, cancels, reruns and retries on one run. -/
def tickOrRerun (run : RunId) : Call → Bool
  | .admitRun _ _ r | .advance r | .cancelRunRequest r _ | .rerunStep _ r _ _ | .retryStep _ r _ _ =>
      r = run
  | .reconcile _ _ => true
  | _ => false

/-- A rerun between the settling call's look at the steps and its settling of the run: the
run ends Succeeded over a Pending step. -/
theorem not_settled_under_rerun :
    ¬∀ (db₀ : Db) (run : RunId) (g : Config engine), db₀.Fresh → db₀.creating run = false →
      Reach (fun _ e => Faultless e = true ∧ StartsOnly (tickOrRerun run) e = true) db₀ g →
      Settled run g := by
  intro hall
  obtain ⟨g, hg, htest⟩ := Reach.of_play (M := engine) oneStepDb
    [.start (.admitRun plainConfig [] runR), .runOut 0 60 (calm .succeeded none),
      .start (.reconcile plainConfig []), .runOut 1 60 (calm .succeeded none),
      .start (.advance runR), .acts 2 2 (calm .succeeded none),
      .start (.rerunStep false runR stepA none), .runOut 3 60 (calm .succeeded none),
      .runOut 2 60 (calm .succeeded none)]
    (fun g => g.log.all (fun e => Faultless e && StartsOnly (tickOrRerun runR) e) &&
      decide (g.db.runs runR = .succeeded ∧ (g.db.steps runR stepA).status = .pending ∧
        stepA ∈ g.db.stepIds runR)) (by decide +kernel)
  simp only [Bool.and_eq_true, List.all_eq_true, decide_eq_true_eq] at htest
  have hr : Reach (fun _ e => Faultless e = true ∧ StartsOnly (tickOrRerun runR) e = true)
      oneStepDb g := hg.of_log htest.1 fun _ _ _ _ _ _ he => he
  have hbad := (hall oneStepDb runR g (createdDb_fresh _ _ _) rfl hr).succeeded htest.2.1 stepA
    htest.2.2.2
  simp [htest.2.2.1] at hbad

end Scarab.Engine
