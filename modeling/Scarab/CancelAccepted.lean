import Scarab.RunSettlement

/-!
# An accepted cancel cancels

A cancel on request reads the run's status, cancels the steps and only then moves the run,
from the status it read. It returns true even when that move loses its compare-and-set, so
its answer can be relied on while the run's status holds still meanwhile.
-/
namespace Scarab.Engine

open Interleave

variable {run : RunId} {db₀ : Db} {g g₁ : Config engine} {e : Entry engine}

/-- The step is the call's own move of the run, made or lost. -/
def MovesRun (pid : ℕ) (e : Entry engine) : Prop :=
  e.pid = pid ∧ ∃ t r, e.what = .did (.write (.commitRunTransition t)) r

/-- Once a cancel of the run has returned true the run is terminal; unless it had ended before
the cancel's own move, it is Cancelled and never Failed or Succeeded afterwards. -/
def CancelHonoured (run : RunId) (g : Config engine) : Prop :=
  ∀ (newer older : List (Entry engine)) (ret : Entry engine) by_, g.log = newer ++ ret :: older →
    ret.what = .returned (.ok (.flag true)) →
    StartedAs older ret.pid (.cancelRunRequest run by_) →
    (ret.post.runs run).isTerminal = true ∧
      ((∃ own ∈ older, MovesRun ret.pid own ∧ (own.pre.runs run).isTerminal = true) ∨
        ret.post.runs run = .cancelled ∧ g.db.runs run ≠ .failed ∧ g.db.runs run ≠ .succeeded)

/-- No rerun or retry of the run is started; and just before a cancel of it moves it, the
run's status is the one the cancel read, or terminal. -/
structure KeepsStatus (run : RunId) (g : Config engine) (e : Entry engine) : Prop where
  noRerun : ∀ l, e.what = .started l → ∀ target, ¬l.Reruns run target
  steady : ∀ by_, StartedAs g.log e.pid (.cancelRunRequest run by_) → MovesRun e.pid e →
    ∀ status, Past.Saw (ownOf g.log e.pid) (.runStatus run) (some status) →
      g.db.runs run = status ∨ (g.db.runs run).isTerminal = true

theorem not_reruns_of_started (hr : Reach (KeepsStatus run) db₀ g) {pid : ℕ} {l : Call}
    (hl : StartedAs g.log pid l) (target : StepId) : ¬l.Reruns run target := by
  obtain ⟨e, he, -, hw⟩ := hl
  obtain ⟨newer, older, hlog⟩ := List.append_of_mem he
  obtain ⟨g₀, g₁, -, -, hm, -, -⟩ := hr.at_entry hlog
  exact hm.noRerun l hw target

/-- Without a rerun a run that has ended keeps its status, and no new generation opens. -/
theorem step_ended (hr : Reach (KeepsStatus run) db₀ g) (hs : Step g e g₁) :
    ((g.db.runs run).isTerminal = true → g₁.db.runs run = g.db.runs run) ∧
      g₁.db.generations run = g.db.generations run := by
  rcases hr.step_run hs run with ⟨hsame, hgen⟩ | ⟨t, l, -, rfl, hl, hmove, hfrom, -, -, -, hgen⟩
  · exact ⟨fun _ => hsame, hgen⟩
  · have hlive : t.from_.isTerminal = false := by
      by_contra hterm
      obtain ⟨-, target, hrer⟩ := hmove.of_terminal (by simpa using hterm)
      exact not_reruns_of_started hr hl target hrer
    refine ⟨fun hterm => ?_, by simpa [hlive] using hgen⟩
    rw [hfrom, hlive] at hterm
    cases hterm

theorem ended_kept (hr : Reach (KeepsStatus run) db₀ g) (hrun : Runs (KeepsStatus run) g g₁)
    (hterm : (g.db.runs run).isTerminal = true) : g₁.db.runs run = g.db.runs run := by
  refine hrun.keeps (P := fun g' => g'.db.runs run = g.db.runs run)
    (fun g' e g'' hpre hs _ ih => ?_) rfl
  rw [← ih]
  exact (step_ended (hr.extend hpre) hs).1 (by rw [ih, hterm])

theorem generation_kept (hr : Reach (KeepsStatus run) db₀ g) (hrun : Runs (KeepsStatus run) g g₁) :
    g₁.db.generations run = g.db.generations run :=
  hrun.keeps (P := fun g' => g'.db.generations run = g.db.generations run)
    (fun _ _ _ hpre hs _ ih => ((step_ended (hr.extend hpre) hs).2).trans ih) rfl

/-- A cancel's move that was lost found the run ended. -/
theorem ended_of_lost {t : RunTransition} {by_ : Option Text} {status : RunStatus}
    (hr : Reach (KeepsStatus run) db₀ g) (hk : KeepsStatus run g e) (hs : Step g e g₁)
    (hl : StartedAs g.log e.pid (.cancelRunRequest run by_)) (ht : t.run = run)
    (hfrom : t.from_ = status)
    (hsaw : Past.Saw (ownOf g.log e.pid) (.runStatus run) (some status))
    (hw : e.what = .did (.write (.commitRunTransition t)) (.error .conflict)) :
    (g.db.runs run).isTerminal = true := by
  subst ht
  obtain ⟨⟨w, hexec⟩, -⟩ := hs.lost_eq hw
  obtain ⟨l, -, -, hgen⟩ := hs.justified hr.backed hw
  rcases Db.commitRunTransition_conflict (Tx.done_eq_error hexec) with hno | hno | hno
  · obtain ⟨g₀, -, -, hr₀, hx, -⟩ := hr.saw hsaw
    rw [hr.shape.1, ← hr₀.shape.1] at hno
    simp [Query.eval, Db.runStatus, hno] at hx
  · rcases hk.steady by_ hl ⟨rfl, t, _, hw⟩ status hsaw with hsame | hterm
    · exact absurd (hsame.trans hfrom.symm) hno
    · exact hterm
  · obtain ⟨g₀, -, -, hr₀, hx, -, -, -, g₂, hdb, -, hr₂, hrun⟩ := hr.saw hgen
    refine absurd ?_ hno
    rw [generation_kept hr₂ hrun, hdb]
    exact hx.symm

/-- While nothing else moves the run under a cancel but to end it, an accepted cancel cancels. -/
theorem cancelHonoured_of_keepsStatus (hr : Reach (KeepsStatus run) db₀ g) :
    CancelHonoured run g := by
  intro newer older ret by_ hlog hret hstarted
  obtain ⟨g₀, g₁, hr₀, hs, hm, hrun, rfl⟩ := hr.at_entry hlog
  obtain ⟨l, hl, hful⟩ := hs.returned hr₀.backed hret
  obtain rfl := hr₀.backed.once _ _ _ hl hstarted
  obtain ⟨from_, at_, intent, generation, r, h₁, h₂, hpast, hr, hsaw, -⟩ := hful
  obtain ⟨g₂, e, g₃, newer₂, hr₂, hs₂, hm₂, hrun₂, hlog₂, hpid, hw, -, hown⟩ :=
    hr₀.moment_split hpast
  have hr₃ : Reach (KeepsStatus run) db₀ g₃ := hr₂.next hs₂ hm₂
  have hnow : Runs (KeepsStatus run) g₃ g₁ := hrun₂.tail hs hm
  have hpost : ret.post = g₁.db := hs.after_eq
  rw [hpost]
  rcases hr with rfl | rfl
  · -- the move landed: the run is Cancelled from there on
    obtain ⟨w, hexec⟩ := hs₂.write_eq hw
    obtain ⟨-, -, -, hdb⟩ := Db.commitRunTransition_ok (Tx.done_eq_ok hexec)
    have hcancelled : g₃.db.runs run = .cancelled := by
      rw [hdb]
      simp [runTransition, Db.journal]
    have hkept := ended_kept hr₃ hnow (by rw [hcancelled]; rfl)
    have hlater := ended_kept hr₃ (hnow.trans hrun) (by rw [hcancelled]; rfl)
    rw [hkept, hlater, hcancelled]
    exact ⟨rfl, .inr ⟨rfl, by simp, by simp⟩⟩
  · -- the move was lost: the run had ended before it
    have hl₂ : StartedAs g₂.log e.pid (.cancelRunRequest run by_) := by
      obtain ⟨l, hl, -⟩ := hs₂.justified hr₂.backed hw
      have hl₀ : StartedAs g₀.log ret.pid l := by
        obtain ⟨x, hx, hxp, hxw⟩ := hl
        exact ⟨x, by rw [hlog₂]; simp [hx], hxp.trans hpid, hxw⟩
      rwa [hr₀.backed.once _ _ _ hl₀ hstarted] at hl
    have hsaw₂ : Past.Saw (ownOf g₂.log e.pid) (.runStatus run) (some from_) := by
      rw [hpid, hown]
      exact hsaw
    have hterm := ended_of_lost hr₂ hm₂ hs₂ hl₂ rfl rfl hsaw₂ hw
    obtain ⟨-, hsame⟩ := hs₂.lost_eq hw
    have hkept := ended_kept hr₃ hnow (by rw [hsame, hterm])
    refine ⟨by rw [hkept, hsame, hterm], .inl ⟨e, by rw [hlog₂]; simp, ⟨hpid, _, _, hw⟩, ?_⟩⟩
    rw [Entry.pre, hs₂.before_eq]
    exact hterm

/-- The step starts a cancel as the second call, and the second call meets the run Running. -/
def cancelsSecond (e : Entry engine) : Bool :=
  match e.what with
  | .started (.cancelRunRequest _ _) => e.pid = 1
  | .started (.rerunStep _ _ _ _) | .started (.retryStep _ _ _ _) => false
  | .did (.read (.runStatus r)) _ => e.pid ≠ 1 ∨ r = runR ∧ e.pre.runs runR = .running
  | .did (.write (.commitRunTransition _)) _ => e.pid ≠ 1 ∨ e.pre.runs runR = .running
  | _ => true

theorem keepsStatus_of_cancelsSecond (hr : Reach (fun _ _ => True) db₀ g)
    (hlog : ∀ e ∈ g.log, cancelsSecond e = true) : Reach (KeepsStatus runR) db₀ g := by
  refine hr.of_log hlog fun g e g₁ hg hs hold he => ⟨fun l hw target hrer => ?_, ?_⟩
  · cases l with
    | rerunStep | retryStep => simp [cancelsSecond, hw] at he
    | _ => exact hrer
  · rintro by_ ⟨x, hx, hpid, hxw⟩ ⟨-, t, r, hw⟩ status hsaw
    have hone : e.pid = 1 := by simpa [cancelsSecond, hxw, hpid] using hold x hx
    obtain ⟨g₀, e₀, newer, hr₀, hst, hlog₀, hp₀, hw₀, g₂, hsame, hs₀, -⟩ := hg.saw hsaw
    have h₀ := hold e₀ (by rw [hlog₀]; simp)
    simp only [cancelsSecond, hw₀, hp₀, hone, ne_eq, not_true_eq_false, false_or,
      decide_eq_true_eq, true_and, Entry.pre, hs₀.before_eq] at h₀
    simp only [cancelsSecond, hw, hone, ne_eq, not_true_eq_false, false_or, decide_eq_true_eq,
      Entry.pre, hs.before_eq] at he
    left
    rw [he]
    simp only [Query.eval, Db.runStatus] at hst
    split_ifs at hst
    exact (Option.some.inj hst).symm ▸ h₀.symm

/-- The call returned true. -/
def accepts (e : Entry engine) : Bool :=
  match e.what with
  | .returned (.ok (.flag true)) => true
  | _ => false

/-- A cancel of a Running run. -/
theorem cancelHonoured_of_keepsStatus_running : ∃ g, Reach (KeepsStatus runR) oneStepDb g ∧
    g.log.any accepts = true ∧ CancelHonoured runR g := by
  obtain ⟨g, hg, htest⟩ := Reach.of_play (M := engine) oneStepDb
    [.start (.admitRun plainConfig [] runR), .runOut 0 60 (calm .running none),
      .start (.cancelRunRequest runR none), .runOut 1 60 (calm .running none)]
    (fun g => g.log.all cancelsSecond && g.log.any accepts) (by decide +kernel)
  simp only [Bool.and_eq_true, List.all_eq_true] at htest
  have hr := keepsStatus_of_cancelsSecond hg htest.1
  exact ⟨g, hr, htest.2, cancelHonoured_of_keepsStatus hr⟩

/-- The calls of ticks, gate releases and cancels on one run. -/
def tickOrCancel (run : RunId) : Call → Bool
  | .admitRun _ _ r | .advance r | .cancelRunRequest r _ | .releaseGate r _ => r = run
  | .reconcile _ _ => true
  | _ => false

def startsCancel (run : RunId) (e : Entry engine) : Bool :=
  match e.what with
  | .started (.cancelRunRequest r _) => r = run
  | _ => false

/-- The last step returned true from a cancel of the run, over a Running run. -/
def misleads (run : RunId) : List (Entry engine) → Bool
  | [] => false
  | ret :: older => accepts ret && decide (ret.post.runs run = .running) &&
      older.any fun e => decide (e.pid = ret.pid) && startsCancel run e

theorem not_cancelHonoured_of_misleads (h : misleads run g.log = true) :
    ¬CancelHonoured run g := by
  intro hhon
  cases hlog : g.log with
  | nil => simp [hlog, misleads] at h
  | cons ret older =>
    simp only [hlog, misleads, Bool.and_eq_true, decide_eq_true_eq, List.any_eq_true] at h
    obtain ⟨⟨hacc, hrun⟩, e, he, hpid, hstart⟩ := h
    have hret : ret.what = .returned (.ok (.flag true)) := by
      simp only [accepts] at hacc
      split at hacc
      · assumption
      · cases hacc
    simp only [startsCancel] at hstart
    split at hstart
    · next r by_ hw =>
      obtain rfl := of_decide_eq_true hstart
      obtain ⟨hterm, -⟩ := hhon [] older ret by_ hlog hret ⟨e, he, hpid, hw⟩
      simp [hrun, RunStatus.isTerminal] at hterm
    · cases hstart

/-- A tick starts the run after the cancel has read it Pending: the cancel's move is lost, it
returns true, and the run is Running. -/
theorem not_cancelHonoured_under_tick :
    ¬∀ (db₀ : Db) (run : RunId) (g : Config engine), db₀.Fresh →
      Reach (fun _ e => Faultless e = true ∧ StartsOnly (tickOrCancel run) e = true) db₀ g →
      g.log.countP (startsCancel run) = 1 → CancelHonoured run g := by
  intro hall
  obtain ⟨g, hg, htest⟩ := Reach.of_play (M := engine) oneStepDb
    [.start (.cancelRunRequest runR none), .acts 0 8 (calm .running none),
      .start (.admitRun plainConfig [] runR), .runOut 1 60 (calm .running none),
      .runOut 0 60 (calm .running none)]
    (fun g => g.log.all (fun e => Faultless e && StartsOnly (tickOrCancel runR) e) &&
      decide (g.log.countP (startsCancel runR) = 1) && misleads runR g.log) (by decide +kernel)
  simp only [Bool.and_eq_true, List.all_eq_true, decide_eq_true_eq] at htest
  obtain ⟨⟨hdom, hone⟩, hmis⟩ := htest
  have hr : Reach (fun _ e => Faultless e = true ∧ StartsOnly (tickOrCancel runR) e = true)
      oneStepDb g := hg.of_log hdom fun _ _ _ _ _ _ he => he
  exact not_cancelHonoured_of_misleads hmis (hall oneStepDb runR g (createdDb_fresh _ _ _) hr hone)

end Scarab.Engine
