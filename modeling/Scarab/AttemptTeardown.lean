import Scarab.RunSupervision

/-!
# A teardown spares live Attempts

A teardown intent is queued by the commit that abandons its Attempt, or by a delivery that
saw it abandoned, so what it names is never in flight again in a live run. Intents are
dropped only as repeats, as long as no two pairs of a target and a step spell one text.
-/
namespace Scarab.Engine

open Interleave

variable {cond : Config engine → Entry engine → Prop} {g g₁ : Config engine} {e : Entry engine}
  {db₀ : Db} {run : RunId} {step : StepId} {attempt : AttemptId}

/-- The two messages tear one Attempt's unit down for one cause. -/
def SameTeardown (m m' : OutboxMessage) : Prop :=
  ∃ step attempt cause at_ at_', m = teardownMessage m.run step attempt at_ cause ∧
    m' = teardownMessage m.run step attempt at_' cause

/-- No message names an Attempt in flight in a live run, and none was dropped but as a repeat. -/
structure TeardownsSound (g : Config engine) : Prop where
  spared : ∀ x ∈ g.db.outbox.entries, x.msg.kind.isTeardown = true → ∀ items,
    x.msg.payload = .teardown items → ∀ item ∈ items,
      ¬(g.db.InFlight x.msg.run item.step item.attempt ∧
        (g.db.runs x.msg.run).isTerminal = false)
  kept : ∀ e ∈ g.log, ∀ t a, e.Did t a → ∀ m ∈ t.newMessages e.pre, m.kind.isTeardown = true →
    ∀ x ∈ e.pre.outbox.entries, x.msg.key = m.key → SameTeardown m x.msg

/-- No two pairs of a target and a step give one text `{target}:{step}`. -/
def Unambiguous (ids : List StepId) : Prop :=
  ∀ target ∈ ids, ∀ step ∈ ids, ∀ target' ∈ ids, ∀ step' ∈ ids,
    target.text ++ ':' :: step.text = target'.text ++ ':' :: step'.text →
      target = target' ∧ step = step'

/-- A teardown message names one Attempt; a rerun's target and step are steps of the run. -/
def NamesOne (ids : RunId → List StepId) (m : OutboxMessage) : Prop :=
  ∃ step attempt cause at_, m = teardownMessage m.run step attempt at_ cause ∧
    ∀ target, cause = .rerun target → target ∈ ids m.run ∧ step ∈ ids m.run

theorem sawStep_mem (hr : Reach cond db₀ g) {pid : ℕ} {s : StepRun}
    (hs : Past.SawStep (ownOf g.log pid) run s) : s.step ∈ db₀.stepIds run := by
  obtain ⟨steps, hsaw, hmem⟩ := hs
  obtain ⟨g₀, -, -, hr₀, rfl, -⟩ := hr.saw hsaw
  rw [← hr₀.shape.2.1]
  exact (of_mem_stepsOfRun hmem).1

theorem Sends.namesOne {l : Call} {t : Tx} {m : OutboxMessage} {pid : ℕ} (hr : Reach cond db₀ g)
    (hsend : Sends l (ownOf g.log pid) g.db t m) (hk : m.kind.isTeardown = true) :
    NamesOne db₀.stepIds m := by
  cases hsend with
  | launch => cases hk
  | cancel run s at_ a saw running latest => exact ⟨s.step, a.id, .cancelled, at_, rfl, by simp⟩
  | late id msg intent at_ => exact ⟨intent.step, intent.attempt, .lateLaunch, at_, rfl, by simp⟩
  | supersede run target s by_ at_ a saw known running latest =>
    refine ⟨s.step, a.id, .rerun target, at_, rfl, fun target' ht => ?_⟩
    obtain rfl := TeardownCause.rerun.inj ht
    obtain ⟨x, hx, rfl⟩ := known
    exact ⟨sawStep_mem hr hx, sawStep_mem hr saw⟩
  | services t m intent => simp [intent.2.1, OutboxKind.isTeardown] at hk
  | post t m post => rcases post with ⟨h, -⟩ | ⟨h, -⟩ <;> simp [h, OutboxKind.isTeardown] at hk

/-- Messages whose key could meet a teardown's: those of one label. -/
theorem Sends.key_cases {l : Call} {t : Tx} {m : OutboxMessage} {pid : ℕ} (hr : Reach cond db₀ g)
    (hsend : Sends l (ownOf g.log pid) g.db t m) :
    NamesOne db₀.stepIds m ∨ (∃ run nonce, m.key = cancelServicesKey run nonce) ∨
      label m.key = "launch".toList ∨ label m.key = "status".toList ∨
        label m.key = "finished".toList := by
  cases hk : m.kind.isTeardown with
  | true => exact .inl (hsend.namesOne hr hk)
  | false =>
    cases hsend with
    | launch => exact .inr (.inr (.inl (by simp)))
    | cancel | supersede | late => cases hk
    | services t m intent =>
      obtain ⟨-, -, -, nonce, hkey⟩ := intent
      exact .inr (.inl ⟨_, nonce, hkey⟩)
    | post t m post =>
      rcases post with ⟨-, hkey⟩ | ⟨-, hkey⟩
      · exact .inr (.inr (.inr (.inl (by simp [hkey]))))
      · exact .inr (.inr (.inr (.inr (by simp [hkey]))))

/-- Two teardown messages under one key are repeats of each other. -/
theorem NamesOne.sameTeardown {m m' : OutboxMessage} (hids : ∀ run, Unambiguous (db₀.stepIds run))
    (hm : NamesOne db₀.stepIds m) (hm' : NamesOne db₀.stepIds m') (hkey : m'.key = m.key) :
    SameTeardown m m' := by
  obtain ⟨step, attempt, cause, at_, he, hin⟩ := hm
  obtain ⟨step', attempt', cause', at_', he', hin'⟩ := hm'
  suffices m'.run = m.run ∧ step' = step ∧ attempt' = attempt ∧ cause' = cause by
    obtain ⟨hrun, rfl, rfl, rfl⟩ := this
    exact ⟨step', attempt', cause', at_, at_', he, by rw [← hrun]; exact he'⟩
  rw [he, he'] at hkey
  have hlabel := congrArg label hkey
  cases cause with
  | cancelled =>
    cases cause' with
    | cancelled =>
      obtain ⟨h1, h2, h3⟩ := cancelAttemptKey_inj hkey
      exact ⟨h1, h2, h3, rfl⟩
    | lateLaunch => exact absurd hkey.symm cancelAttemptKey_ne_lateLaunchKey
    | rerun target => simp [teardownMessage, cancelAttemptIntent, supersedeTeardownIntent] at hlabel
  | lateLaunch =>
    cases cause' with
    | cancelled => exact absurd hkey cancelAttemptKey_ne_lateLaunchKey
    | lateLaunch =>
      obtain ⟨h1, h2, h3⟩ := lateLaunchKey_inj hkey
      exact ⟨h1, h2, h3, rfl⟩
    | rerun target => simp [teardownMessage, lateLaunchTeardown, supersedeTeardownIntent] at hlabel
  | rerun target =>
    cases cause' with
    | cancelled => simp [teardownMessage, cancelAttemptIntent, supersedeTeardownIntent] at hlabel
    | lateLaunch => simp [teardownMessage, lateLaunchTeardown, supersedeTeardownIntent] at hlabel
    | rerun target' =>
      obtain ⟨hrun, htext, h3⟩ := supersedeKey_inj hkey
      obtain ⟨ht, hs⟩ := hin target rfl
      obtain ⟨ht', hs'⟩ := hin' target' rfl
      rw [hrun] at ht' hs'
      obtain ⟨rfl, h2⟩ := hids m.run target' ht' step' hs' target ht step hs htext
      exact ⟨hrun, h2, h3, rfl⟩

theorem slash_mem_of_namesOne {ids : RunId → List StepId} {m : OutboxMessage}
    (hm : NamesOne ids m) : '/' ∈ m.key := by
  obtain ⟨step, attempt, cause, at_, he, -⟩ := hm
  rw [he]
  cases cause with
  | cancelled => exact slash_mem_cancelAttemptKey
  | lateLaunch => exact List.mem_append_left _ slash_mem_cancelAttemptKey
  | rerun target => exact List.mem_append_right _ List.mem_cons_self

/-- A teardown message meets only repeats of itself in the outbox. -/
theorem sameTeardown_of_key (hfresh : db₀.Fresh) (hids : ∀ run, Unambiguous (db₀.stepIds run))
    (hr : Reach cond db₀ g) {m : OutboxMessage} (hm : NamesOne db₀.stepIds m) {x : OutboxEntry}
    (hx : x ∈ g.db.outbox.entries) (hkey : x.msg.key = m.key) : SameTeardown m x.msg := by
  have hcases := Reach.of_sent (P := fun m' => NamesOne db₀.stepIds m' ∨
    (∃ run nonce, m'.key = cancelServicesKey run nonce) ∨ label m'.key = "launch".toList ∨
      label m'.key = "status".toList ∨ label m'.key = "finished".toList)
    hfresh (fun _ _ _ _ _ hr hsend => hsend.key_cases hr) hr hx
  have hlabel : label m.key = "cancel".toList ∨ label m.key = "supersede".toList := by
    obtain ⟨step, attempt, cause, at_, he, -⟩ := hm
    rw [he]
    cases cause with
    | cancelled | lateLaunch => exact .inl rfl
    | rerun target => exact .inr rfl
  rcases hcases with hone | ⟨run, nonce, hs⟩ | hother
  · exact hm.sameTeardown hids hone hkey
  · have := slash_mem_of_namesOne hm
    rw [← hkey, hs] at this
    exact absurd this (slash_not_mem_cancelServicesKey run nonce)
  · rw [hkey] at hother
    rcases hlabel with hl | hl <;> simp [hl] at hother

/-- The commit of a cancel or of a rerun leaves the Attempt it stamps abandoned. -/
theorem abandoned_of_move {t : StepTransition} {s : StepRun} {a : Attempt} {db db' : Db}
    (h : db.commitStepTransition t = .ok db') (hrun : t.run = run) (hs : t.step = s.step)
    (hto : t.to_ ≠ .running) (hf : t.frontier = .is (s.attempts.getLast?.map (·.id)))
    (ha : inFlightAttempt s = some a) : db'.Abandoned run s.step a.id := by
  subst hrun
  rw [← hs]
  obtain ⟨-, -, hfront, rfl⟩ := Db.commitStepTransition_ok h
  obtain ⟨hlast, -⟩ := Option.filter_eq_some_iff.mp ha
  have hlatest : (db.steps t.run t.step).attempts.frontier = some a.id := by
    rw [hfront _ hf, hlast]
    rfl
  refine ⟨?_, .inl fun hfl => hto ?_⟩
  · have hafter : ((db.steps t.run t.step).attempts.stamp? t.stamp).frontier = some a.id := by
      rw [Attempts.frontier_stamp?, hlatest]
    obtain ⟨b, hb, hid⟩ := Attempts.frontier_eq_some.mp hafter
    refine ⟨b, ?_, hid⟩
    simpa [Db.journal] using Attempts.last?_mem hb
  · have hst := hfl.1
    simpa [Db.journal] using hst

theorem abandoned_of_sends {t : Tx} {a : t.Ans} {l : Call} {m : OutboxMessage} (hfresh : db₀.Fresh)
    (hcond : ∀ g e, cond g e → ∀ run, ¬ReopensInFlight run g e) (hr : Reach cond db₀ g)
    (hs : Step g e g₁) (hc : cond g e) (hexec : ∃ w, t.exec w g.db = .ok (a, g₁.db))
    (hsend : Sends l (ownOf g.log e.pid) g.db t m) (hk : m.kind.isTeardown = true) :
    ∃ step attempt, m.payload = .teardown [⟨step, attempt⟩] ∧
      g₁.db.Abandoned m.run step attempt := by
  obtain ⟨w, hexec⟩ := hexec
  cases hsend with
  | launch => cases hk
  | cancel run s at_ b saw running latest =>
    refine ⟨s.step, b.id, rfl, ?_⟩
    exact abandoned_of_move (Tx.done_eq_ok hexec) rfl rfl (by simp [cancelCommit])
      (by simp [cancelCommit, running]) latest
  | supersede run target s by_ at_ b saw known running latest =>
    refine ⟨s.step, b.id, rfl, ?_⟩
    exact abandoned_of_move (Tx.done_eq_ok hexec) rfl rfl (by simp [rearmCommit])
      (by simp [rearmCommit, running]) latest
  | late id msg intent at_ claimed payload no =>
    refine ⟨intent.step, intent.attempt, rfl, ?_⟩
    obtain ⟨g₀, hr₀, hrun, hab⟩ :=
      hr.unwanted hfresh claimed (hr.claimed_launch hfresh claimed payload) no
    exact hr₀.abandoned (fun g e hg => hcond g e hg _) (hrun.tail hs hc) hab
  | services t m intent => simp [intent.2.1, OutboxKind.isTeardown] at hk
  | post t m post => rcases post with ⟨h, -⟩ | ⟨h, -⟩ <;> simp [h, OutboxKind.isTeardown] at hk

/-- What a teardown message names stays abandoned. -/
theorem abandoned_of_teardown (hfresh : db₀.Fresh)
    (hcond : ∀ g e, cond g e → ∀ run, ¬ReopensInFlight run g e) (hr : Reach cond db₀ g)
    {x : OutboxEntry} (hx : x ∈ g.db.outbox.entries) (hk : x.msg.kind.isTeardown = true) :
    ∃ step attempt, x.msg.payload = .teardown [⟨step, attempt⟩] ∧
      g.db.Abandoned x.msg.run step attempt := by
  induction hr generalizing x with
  | refl =>
    rw [show (Config.init db₀).db.outbox.entries = [] from hfresh.outbox] at hx
    cases hx
  | @tail g₁ g₂ e init hs hm ih =>
    have hr : Reach cond db₀ g₁ := init
    rcases hr.row_cases hs hx with ⟨y, hy, hkeep⟩ | ⟨-, -, t, a, l, hd, -, hexec, hsend⟩
    · rw [hkeep.msg] at hk ⊢
      obtain ⟨step, attempt, hp, hab⟩ := ih hy hk
      exact ⟨step, attempt, hp, hr.abandoned (fun g e hg => hcond g e hg _)
        (Runs.refl.tail hs hm) hab⟩
    · exact abandoned_of_sends hfresh hcond hr hs hm hexec hsend hk

/-- While no run is brought back over an in-flight Attempt, and the step ids spell their
pairs apart, teardowns are sound. -/
theorem teardownsSound_of_keepsAbandoned (hfresh : db₀.Fresh)
    (hids : ∀ run, Unambiguous (db₀.stepIds run))
    (hr : Reach (fun g e => ∀ run, ¬ReopensInFlight run g e) db₀ g) : TeardownsSound g := by
  refine ⟨fun x hx hk items hp item hitem hlive => ?_, fun e he t a hd m hm hk x hx hkey => ?_⟩
  · obtain ⟨step, attempt, hp', -, hab⟩ := abandoned_of_teardown hfresh (fun _ _ hg => hg) hr hx hk
    obtain rfl := Payload.teardown.inj (hp.symm.trans hp')
    obtain rfl := List.mem_singleton.mp hitem
    rcases hab with hno | hterm
    · exact hno hlive.1
    · simp [hlive.2] at hterm
  · obtain ⟨newer, older, hlog⟩ := List.append_of_mem he
    obtain ⟨g₀, g₁, hr₀, hs, -, -, -⟩ := hr.at_entry hlog
    rw [Entry.pre, hs.before_eq] at hm hx
    obtain ⟨l, -, hb⟩ := hs.justified hr₀.backed hd
    exact sameTeardown_of_key hfresh hids hr₀ ((Backed.sends hb hm).namesOne hr₀ hk) hx hkey

/-- A rerun of a Running step: its first Attempt is superseded and named in a teardown. -/
theorem teardownsSound_of_keepsAbandoned_rerun :
    ∃ g, Reach (fun g e => ∀ run, ¬ReopensInFlight run g e) oneStepDb g ∧
      (g.db.outbox.entries.any fun x => x.msg.kind.isTeardown) = true ∧ TeardownsSound g := by
  obtain ⟨g, hg, htest⟩ := Reach.of_play (M := engine) oneStepDb
    [.start (.admitRun plainConfig [] runR), .runOut 0 60 (calm .running none),
      .start (.reconcile plainConfig []), .runOut 1 60 (calm .running none),
      .start (.rerunStep false runR stepA none), .runOut 2 60 (calm .running none)]
    (fun g => g.log.all steady && g.db.outbox.entries.any fun x => x.msg.kind.isTeardown)
    (by decide +kernel)
  simp only [Bool.and_eq_true, List.all_eq_true] at htest
  have hr : Reach (fun g e => ∀ run, ¬ReopensInFlight run g e) oneStepDb g :=
    hg.of_log htest.1 fun g e g₁ hg hs _ he run => not_reopens_of_steady hg hs he run
  exact ⟨g, hr, htest.2, teardownsSound_of_keepsAbandoned (createdDb_fresh _ _ _)
    (fun _ => by simp [Unambiguous, createdDb]) hr⟩

theorem SameTeardown.payload_eq {m m' : OutboxMessage} (h : SameTeardown m m') :
    m'.payload = m.payload := by
  obtain ⟨step, attempt, cause, at_, at_', hm, hm'⟩ := h
  rw [hm, hm']
  cases cause <;> rfl

/-- The commit queued a teardown under the key of another Attempt's. -/
def dropsTeardown (e : Entry engine) : Bool :=
  match e.what with
  | .did (.write (.commitStepTransition t)) (.ok _) => t.outbox.any fun m =>
      m.kind.isTeardown && e.pre.outbox.entries.any fun x =>
        decide (x.msg.key = m.key ∧ x.msg.payload ≠ m.payload)
  | _ => false

/-- Steps `a`, `a:b`, `b:c` and `c`, the last two after the first two in turn. -/
def pairedDb : Db :=
  createdDb [runR] [(stepA, [], none), (⟨"a:b".toList⟩, [], none), (⟨"b:c".toList⟩, [stepA], none),
    (⟨"c".toList⟩, [⟨"a:b".toList⟩], none)] fun _ => none

/-- Reruns of `a` and of `a:b` supersede the running `b:c` and `c` under one key. -/
theorem not_teardownsSound_of_pairs :
    ¬∀ (db₀ : Db) (g : Config engine), db₀.Fresh → Reach (fun _ e => Faultless e = true) db₀ g →
      TeardownsSound g := by
  intro hall
  obtain ⟨g, hg, htest⟩ := Reach.of_play (M := engine) pairedDb
    [.start (.admitRun plainConfig [] runR), .runOut 0 60 (calm .succeeded none),
      .start (.reconcile plainConfig []), .runOut 1 60 (calm .succeeded none),
      .start (.admitRun plainConfig [] runR), .runOut 2 60 (calm .running none),
      .start (.rerunStep false runR stepA none), .runOut 3 60 (calm .running none),
      .start (.rerunStep false runR ⟨"a:b".toList⟩ none), .runOut 4 60 (calm .running none)]
    (fun g => g.log.all Faultless && g.log.any dropsTeardown) (by decide +kernel)
  simp only [Bool.and_eq_true, List.all_eq_true, List.any_eq_true] at htest
  obtain ⟨hcalm, e, he, hdrop⟩ := htest
  have hr : Reach (fun _ e => Faultless e = true) pairedDb g :=
    hg.of_log hcalm fun _ _ _ _ _ _ he => he
  simp only [dropsTeardown] at hdrop
  split at hdrop
  · next t a hw =>
    simp only [List.any_eq_true, Bool.and_eq_true, decide_eq_true_eq] at hdrop
    obtain ⟨m, hm, hk, x, hx, hkey, hne⟩ := hdrop
    exact hne ((hall pairedDb g (createdDb_fresh _ _ _) hr).kept e he _ a hw m hm hk x hx
      hkey).payload_eq
  · cases hdrop

end Scarab.Engine
