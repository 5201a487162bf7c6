import Scarab.RunBudget
import Mathlib.Data.List.DropRight

/-!
# How often a step is retried

A failed Attempt weighs its place in the Take against what its failure allows. The place is
read back from the journal, where a rerun's boundary may stand before the rerun has stopped
the Attempt it ends.
-/
namespace Scarab.Engine

open Interleave

/-- The Attempt of the step that the event starts. -/
def Event.startOf (step : StepId) (e : Event) : Option AttemptId :=
  match e.kind with
  | .attemptStarted s a => if s = step then some a else none
  | _ => none

/-- The event is a rerun that re-arms the step. -/
def Event.reruns (step : StepId) (e : Event) : Bool :=
  match e.kind with
  | .runRerunRequested _ invalidated _ _ => decide (step ∈ invalidated)
  | _ => false

/-- The journal up to the Attempt's start, and after it. -/
def throughStart (events : List Event) (step : StepId) (attempt : AttemptId) : List Event :=
  events.rdropWhile fun e => e.startOf step ≠ some attempt

def sinceStart (events : List Event) (step : StepId) (attempt : AttemptId) : List Event :=
  events.rtakeWhile fun e => e.startOf step ≠ some attempt

/-- Which Attempt of its Take this one is, counted from 1. -/
def takeOrdinal (events : List Event) (step : StepId) (attempt : AttemptId) : ℕ :=
  attemptsUsed (throughStart events step attempt) step

/-- No rerun of the step was requested since the Attempt started. -/
def SameTake (events : List Event) (step : StepId) (attempt : AttemptId) : Prop :=
  ∀ e ∈ sinceStart events step attempt, e.reruns step = false

/-- What the author asserts about retrying a step. -/
def Db.retryMax (db : Db) (run : RunId) (step : StepId) : Option ℕ :=
  ((db.irs run).bind (·.step? step)).bind (·.retryMax)

/-- A failure of this kind may be retried after the `k`-th Attempt of a Take. -/
def RetryAllowed (retry : Option ℕ) (kind : FailureKind) (k : ℕ) : Prop :=
  kind ∉ [.config, .missingInputs, .gate] ∧
    ((∃ max, retry = some max ∧ k < 1 + max) ∨
      kind = .infra true ∧ k < max neverStartedAutoAttempts (1 + retry.getD 0))

/-- The commit settles the Attempt: its step is re-armed, or finalized. -/
def Settles (run : RunId) (step : StepId) (attempt : AttemptId) (t : StepTransition) : Prop :=
  (∃ kind cause at_, t = rearmStepCommit run step attempt kind cause at_) ∨
    ∃ to_ failure cause at_, t = finalizeCommit run step attempt to_ failure cause at_

/-- A call that has just recorded an Attempt's failure reads the journal before the step's next
rerun is in it. -/
def WeighsInTake (g : Config engine) (e : Entry engine) : Prop :=
  ∀ run events step attempt kind cause, e.what = .did (.read (.events run)) (.ok events) →
    (ownOf g.log e.pid).head? = some ⟨.write (.setAttemptFailure run step attempt kind cause),
      .ok ()⟩ → SameTake (g.db.eventsOf run) step attempt

section counting

variable {events later : List Event} {step : StepId} {attempt : AttemptId}

theorem attemptsUsed_append (hstart : ∀ e ∈ later, e.startOf step = none)
    (hrerun : ∀ e ∈ later, e.reruns step = false) :
    attemptsUsed (events ++ later) step = attemptsUsed events step := by
  induction later using List.reverseRecOn with
  | nil => rw [List.append_nil]
  | append_singleton later e ih =>
    have hs := hstart e (by simp)
    have hr := hrerun e (by simp)
    have ih := ih (fun x hx => hstart x (by simp [hx])) fun x hx => hrerun x (by simp [hx])
    rw [← ih, ← List.append_assoc, attemptsUsed, List.foldl_append]
    unfold Event.startOf at hs
    unfold Event.reruns at hr
    cases hk : e.kind <;> simp_all [attemptsUsed]

theorem throughStart_append (h : ∀ e ∈ later, e.startOf step ≠ some attempt) :
    throughStart (events ++ later) step attempt = throughStart events step attempt := by
  simp only [throughStart, List.rdropWhile, List.reverse_append]
  rw [List.dropWhile_append_of_pos]
  intro e he
  simpa using h e (List.mem_reverse.mp he)

theorem throughStart_append_sinceStart (events : List Event) (step : StepId)
    (attempt : AttemptId) : throughStart events step attempt ++ sinceStart events step attempt = events := by
  simp only [throughStart, sinceStart, List.rdropWhile, List.rtakeWhile]
  rw [← List.reverse_append, List.takeWhile_append_dropWhile, List.reverse_reverse]

/-- Nothing of the step was started after its latest start. -/
theorem sinceStart_quiet (h : (events.filterMap (·.startOf step)).getLast? = some attempt) :
    ∀ e ∈ sinceStart events step attempt, e.startOf step = none := by
  rw [← throughStart_append_sinceStart events step attempt, List.filterMap_append,
    List.getLast?_append] at h
  cases hlast : ((sinceStart events step attempt).filterMap (·.startOf step)).getLast? with
  | none =>
    rw [List.getLast?_eq_none_iff, List.filterMap_eq_nil_iff] at hlast
    exact hlast
  | some a =>
    rw [hlast] at h
    obtain rfl := Option.some.inj h
    obtain ⟨e, he, hstart⟩ := List.mem_filterMap.mp (List.mem_of_getLast? hlast)
    have hne := List.mem_rtakeWhile_imp he
    simp [hstart] at hne

/-- A started Attempt has a place in its Take. -/
theorem takeOrdinal_pos (h : (events.filterMap (·.startOf step)).getLast? = some attempt) :
    0 < takeOrdinal events step attempt := by
  obtain ⟨e, he, hstart⟩ := List.mem_filterMap.mp (List.mem_of_getLast? h)
  have hne : throughStart events step attempt ≠ [] := by
    rw [throughStart, Ne, List.rdropWhile_eq_nil_iff]
    intro hall
    simpa [hstart] using hall e he
  obtain ⟨front, last, heq⟩ := (List.eq_nil_or_concat' _).resolve_left hne
  have hlast : (throughStart events step attempt).getLast hne = last := by simp [heq]
  have hlaststart : last.startOf step = some attempt := by
    have hstop := List.rdropWhile_last_not (fun e : Event => e.startOf step ≠ some attempt) events
      hne
    rw [← hlast]
    exact not_not.mp fun hother => hstop (decide_eq_true hother)
  rw [takeOrdinal, heq, attemptsUsed, List.foldl_append]
  unfold Event.startOf at hlaststart
  split at hlaststart
  · next s a hk =>
    split_ifs at hlaststart with hs
    simp [hk, hs]
  · cases hlaststart

/-- Within one Take, the count over the whole journal is the latest Attempt's place. -/
theorem attemptsUsed_eq_takeOrdinal
    (h : (events.filterMap (·.startOf step)).getLast? = some attempt)
    (htake : SameTake events step attempt) :
    attemptsUsed events step = takeOrdinal events step attempt := by
  conv_lhs => rw [← throughStart_append_sinceStart events step attempt]
  exact attemptsUsed_append (sinceStart_quiet h) htake

end counting

theorem latest_of_not_stale {attempts : List Attempt} {attempt : AttemptId}
    (h : staleObservation attempts attempt = false) :
    attempts.getLast?.map (·.id) = some attempt := by
  have hnot := of_decide_eq_false h
  push Not at hnot
  exact hnot.1

/-- What the scheduler compares is what the policy allows. -/
theorem retryAllowed_of_lt {retry : Option ℕ} {kind : FailureKind} {k : ℕ} (hk : 0 < k)
    (h : k < attemptsAllowed kind (retry.map (1 + ·))) : RetryAllowed retry kind k := by
  cases retry with
  | none =>
    cases kind with
    | infra neverStarted =>
      cases neverStarted with
      | true =>
        have hlt : k < neverStartedAutoAttempts := by simpa [attemptsAllowed] using h
        exact ⟨by simp, .inr ⟨rfl, hlt.trans_le (le_max_left _ _)⟩⟩
      | false => simp [attemptsAllowed] at h; omega
    | _ => simp [attemptsAllowed] at h; omega
  | some m =>
    cases kind with
    | infra neverStarted =>
      refine ⟨by simp, ?_⟩
      cases neverStarted with
      | true =>
        right
        refine ⟨rfl, ?_⟩
        simpa [attemptsAllowed, max_comm, or_comm] using h
      | false => exact .inl ⟨m, rfl, by simpa [attemptsAllowed] using h⟩
    | config | missingInputs | gate => simp [attemptsAllowed] at h; omega
    | step | timeout | lost => exact ⟨by simp, .inl ⟨m, rfl, by simpa [attemptsAllowed] using h⟩⟩

section starts

variable {db db' : Db} {t : Tx} {w : Answer} {a : t.Ans} {l : Call} {h : Past} {run : RunId}
  {step : StepId} {attempt : AttemptId}

/-- A verdict closes the Attempt it is for, or mints the next one. -/
theorem closeWait_minted {attempts attempts' : Attempts} {res : GateResolution} {minted : Bool}
    (hw : Db.closeWait attempts res = some (attempt, minted, attempts')) :
    if minted then attempt = attempts.next ∧ ∃ a, attempts' = attempts.record a ∧
        a.id = attempts.next
      else attempts'.frontier = attempts.frontier := by
  simp only [Db.closeWait] at hw
  split at hw
  · split at hw
    · obtain ⟨-, rfl, rfl⟩ := by simpa using hw
      exact Attempts.frontier_update
    · cases hw
  · split at hw
    · obtain ⟨-, rfl, rfl⟩ := by simpa using hw
      exact Attempts.frontier_update
    · obtain ⟨rfl, rfl, rfl⟩ := by simpa using hw
      exact ⟨rfl, _, rfl, rfl⟩

theorem Attempts.frontier_record_next {attempts : Attempts} {a : Attempt}
    (ha : a.id = attempts.next) : (attempts.record a).frontier = some a.id := by
  rw [Attempts.frontier, Attempts.last?_record_next ha]
  rfl

theorem Starts.num (hs : Starts db t run step attempt) :
    attempt = (db.steps run step).attempts.next := by
  cases hs with
  | claimed leader limit now s listed =>
    rw [(Db.mem_claimable listed).1]
    rfl
  | waitOpened => rfl
  | resolved run step res attempt attempts known pending wait => exact (closeWait_minted wait).1

/-- A commit that starts an Attempt makes it the latest. -/
theorem Starts.frontier (hs : Starts db t run step attempt)
    (hexec : t.exec w db = .ok (a, db')) :
    (db'.steps run step).attempts.frontier = some attempt := by
  cases hs with
  | claimed leader limit now s listed =>
    obtain ⟨-, rfl⟩ := Db.claimReadySteps_ok hexec
    have hentries : ∀ x ∈ db.claimable limit,
        x.attempts = (db.steps x.run x.step).attempts.entries := by
      intro x hx
      rw [(Db.mem_claimable hx).1]
      rfl
    have hsame : ∀ run step, db.steps run step = db.steps run step ∨
        db.steps run step = Db.claimedRec now (db.steps run step) := fun _ _ => .inl rfl
    have hrow := Db.foldl_launchClaimed_steps hentries hsame s.run s.step
    rcases hrow with ⟨-, hnone⟩ | ⟨hrow, -⟩
    · exact absurd ⟨rfl, rfl⟩ (hnone s listed)
    · rw [hrow, Db.claimedRec, Attempts.frontier_record_next rfl, hentries s listed]
      rfl
  | waitOpened leader run step startedAt at_ known pending closed =>
    rcases Db.openGateWait_ok hexec with ⟨-, -, hno⟩ | ⟨-, -, -, x, -, rfl, rfl⟩
    · exact absurd ⟨known, pending, closed⟩ hno
    · simp [Db.journal, Attempts.frontier_record_next]
  | resolved run step res attempt attempts known pending wait =>
    have h := Except.ok.inj hexec
    obtain ⟨rfl, x, rfl, hx⟩ := closeWait_minted wait
    rcases db.resolveGateWait_cases run step res with h' | ⟨x', m, xs, -, -, hw, h'⟩
    · simp [Db.resolveGateWait, known, pending, wait] at h'
    · obtain ⟨-, rfl⟩ := Prod.mk.inj (h'.symm.trans h)
      rw [wait] at hw
      obtain ⟨-, -, rfl⟩ := by simpa using hw
      simp [Db.journal, Db.resolvedRec, Attempts.frontier_record_next hx, hx]

/-- A commit that changes which Attempt is the latest journals its start. -/
theorem Rewrites.frontier {r : StepRec} (hr : Rewrites db t run step r) :
    r.attempts.frontier = (db.steps run step).attempts.frontier ∨
      ∃ e ∈ t.newEvents db, e.run = run ∧ e.startOf step ≠ none := by
  obtain ⟨hmem, heff⟩ := hr
  cases heff with
  | claimed leader limit now ready listed =>
    right
    exact ⟨_, List.mem_flatMap.mpr ⟨_, listed, List.mem_singleton_self _⟩, rfl,
      by simp [Event.startOf, Db.stepRun]⟩
  | waitOpened leader startedAt at_ pending closed =>
    right
    refine ⟨⟨run, .attemptStarted step (db.steps run step).attempts.next, at_⟩, ?_, rfl,
      by simp [Event.startOf]⟩
    simp [Tx.newEvents, hmem, pending, closed]
  | resolved res attempt minted attempts pending wait =>
    have hclose := closeWait_minted wait
    cases minted with
    | false => exact .inl hclose
    | true =>
      right
      refine ⟨⟨run, .attemptStarted step attempt, res.at_⟩, ?_, rfl, by simp [Event.startOf]⟩
      simp [Tx.newEvents, hmem, pending, wait, gateResolutionEvents]
  | moved => exact .inl Attempts.frontier_stamp?
  | closed => exact .inl Attempts.frontier_update
  | failed => exact .inl Attempts.frontier_stamp
  | promoted | signed | output | results | ingested => exact .inl rfl

/-- What a backed commit journals as a start is one. -/
theorem Backed.starts (hb : Backed l h (.write t)) {e : Event} (he : e ∈ t.newEvents db)
    (hstart : e.startOf step = some attempt) : Starts db t e.run step attempt := by
  unfold Event.startOf at hstart
  split at hstart
  · next s a hk =>
    split_ifs at hstart with hs
    obtain rfl := Option.some.inj hstart
    subst hs
    rcases hb.journals he with hminor | ⟨_, _, hmove, -⟩ | ⟨_, _, hkind, hs⟩ | ⟨_, _, _, _, _, hrr⟩
    · simp [hk] at hminor
    · simp [hk] at hmove
    · obtain ⟨rfl, rfl⟩ := EventPayload.attemptStarted.inj (hk.symm.trans hkind)
      exact hs
    · simp [hk] at hrr
  · cases hstart

/-- A re-arm of a failed Attempt has weighed the failure. -/
theorem StepMove.weighed {kind : FailureKind} {cause : Option String} {at_ : Timestamp}
    (hm : StepMove l h (rearmStepCommit run step attempt kind cause at_)) :
    h.Weighed run step attempt kind cause := by
  generalize ht : rearmStepCommit run step attempt kind cause at_ = t at hm
  have hto : t.to_ = .ready := by rw [← ht]; rfl
  cases hm with
  | retry run' step' attempt' kind' cause' at' failed weighed =>
    simp only [rearmStepCommit, eventsAt, StepTransition.mk.injEq, List.map_cons, List.map_nil,
      List.cons.injEq, Event.mk.injEq, EventPayload.attemptFinished.injEq,
      AttemptFrontier.is.injEq, Option.some.injEq] at ht
    obtain ⟨rfl, rfl, -, -, rfl, -, ⟨⟨-, ⟨-, -, rfl, rfl⟩, -⟩, -⟩, -⟩ := ht
    exact weighed
  | succeed | fail =>
    simp [finalizeCommit] at hto
  | _ => simp [rearmCommit, cancelCommit, unneededCommit, plainMove] at hto

/-- An Attempt that a commit leaves the latest of a Running step was so before, unless the
commit minted it. -/
theorem Rewrites.onAttempt {r : StepRec} (hb : Backed l h (.write t))
    (hr : Rewrites db t run step r) (hm : db.Minted run step attempt) (hst : r.status = .running)
    (hf : r.attempts.frontier = some attempt) :
    (db.steps run step).status = .running ∧
      (db.steps run step).attempts.frontier = some attempt := by
  obtain ⟨-, heff⟩ := hr
  cases heff with
  | moved t hrun hstep from_ frontier => exact absurd hst (StepMove.to_ne_running hb)
  | promoted => simp at hst
  | resolved res attempt minted attempts pending wait =>
    simp only [Db.resolvedRec] at hst
    split_ifs at hst
  | waitOpened leader startedAt at_ pending closed => simp [pending] at hst
  | claimed leader limit now ready listed =>
    rw [Db.claimedRec, Attempts.frontier_record_next rfl] at hf
    obtain ⟨b, hb', hbid⟩ := hm
    have hnum := (Attempts.num_bounds hb').2
    rw [hbid, ← Option.some.inj hf] at hnum
    simp [Attempts.next] at hnum
  | signed | output | results | ingested => exact ⟨hst, hf⟩
  | closed => exact ⟨hst, by rwa [Attempts.frontier_update] at hf⟩
  | failed => exact ⟨hst, by rwa [Attempts.frontier_stamp] at hf⟩

theorem Attempts.frontier_of_length {attempts : Attempts} {id : AttemptId} (hpos : 0 < id.num)
    (hlen : attempts.entries.length = id.num) : attempts.frontier = some id := by
  cases hf : attempts.frontier with
  | none =>
    rw [Attempts.frontier_eq_none] at hf
    rw [hf] at hlen
    simp at hlen
    omega
  | some id' =>
    have hnum := Attempts.frontier_num hf
    cases id
    cases id'
    simp_all

end starts
end Scarab.Engine

namespace Scarab.Interleave

open Engine

variable {cond : Config engine → Entry engine → Prop} {g g₁ g₂ : Config engine} {e : Entry engine}
  {db₀ : Db} {run : RunId} {step : StepId} {attempt : AttemptId}

theorem Reach.irs (hr : Reach cond db₀ g) : g.db.irs = db₀.irs := by
  refine Runs.keeps (P := fun g' : Config engine => g'.db.irs = db₀.irs)
    (fun g₁ e g₂ hpre hs _ ih => ?_) hr rfl
  rcases Reach.step_cases hpre hs with hsame | ⟨t, a, hc⟩
  · rw [hsame, ih]
  · obtain ⟨w, hexec⟩ := hc.exec
    rw [(Tx.exec_frame hexec).irs, ih]

/-- The latest Attempt a step's journal starts is the step's latest Attempt. -/
theorem Reach.latest_started (hfresh : db₀.Fresh) (hr : Reach cond db₀ g) (run : RunId)
    (step : StepId) : ((g.db.eventsOf run).filterMap (·.startOf step)).getLast? =
      (g.db.steps run step).attempts.frontier := by
  refine Runs.keeps (P := fun g' : Config engine =>
    ((g'.db.eventsOf run).filterMap (·.startOf step)).getLast? =
      (g'.db.steps run step).attempts.frontier) (fun g₁ e g₂ hpre hs _ ih => ?_) hr ?_
  · have hpre : Reach cond db₀ g₁ := hpre
    rcases hpre.step_events hs with hsame | ⟨t, a, l, hd, hl, hb, ⟨w, hexec⟩, hevents⟩
    · rwa [hsame]
    have hsplit : g₂.db.eventsOf run =
        g₁.db.eventsOf run ++ (t.newEvents g₁.db).filter (·.run = run) := by
      rw [Db.eventsOf, hevents, List.filter_append]
      rfl
    rw [hsplit, List.filterMap_append, List.getLast?_append, ih]
    cases hnew : (((t.newEvents g₁.db).filter (·.run = run)).filterMap
        (·.startOf step)).getLast? with
    | none =>
      rw [List.getLast?_eq_none_iff, List.filterMap_eq_nil_iff] at hnew
      rcases Tx.exec_steps hexec run step with hrow | hrow
      · rw [hrow, Option.none_or]
      · rcases hrow.frontier with hfront | ⟨x, hx, hxrun, hxstart⟩
        · rw [hfront, Option.none_or]
        · exact absurd (hnew x (List.mem_filter.mpr ⟨hx, by simpa using hxrun⟩)) hxstart
    | some a =>
      obtain ⟨x, hx, hxstart⟩ := List.mem_filterMap.mp (List.mem_of_getLast? hnew)
      obtain ⟨hx, hxrun⟩ := List.mem_filter.mp hx
      have hs := (hb.starts hx hxstart).frontier hexec
      rw [of_decide_eq_true hxrun] at hs
      rw [hs, Option.some_or]
  · have hnone : ((Config.init db₀ : Config engine).db.steps run step).attempts.frontier = none :=
      Attempts.frontier_eq_none.mpr (hfresh.steps run step).2.1
    rw [hnone, Db.eventsOf, show (Config.init db₀ : Config engine).db.events = [] from
      hfresh.events]
    rfl

/-- No later commit starts an Attempt the step already has. -/
theorem Reach.events_since (hr : Reach cond db₀ g) (hrun : Runs cond g g₁)
    (hm : g.db.Minted run step attempt) : ∃ more, g₁.db.eventsOf run = g.db.eventsOf run ++ more ∧
      ∀ x ∈ more, x.startOf step ≠ some attempt := by
  refine hrun.keeps (P := fun g' : Config engine => ∃ more,
    g'.db.eventsOf run = g.db.eventsOf run ++ more ∧ ∀ x ∈ more, x.startOf step ≠ some attempt)
    (fun g₂ e g₃ hpre hs _ ih => ?_) ⟨[], by simp⟩
  obtain ⟨more, hmore, hnot⟩ := ih
  have hr₂ : Reach cond db₀ g₂ := hr.extend hpre
  rcases hr₂.step_events hs with hsame | ⟨t, a, l, -, -, hb, -, hevents⟩
  · exact ⟨more, by rw [hsame, hmore], hnot⟩
  refine ⟨more ++ (t.newEvents g₂.db).filter (·.run = run), ?_, fun x hx hstart => ?_⟩
  · rw [← List.append_assoc, ← hmore, Db.eventsOf, hevents, List.filter_append]
    rfl
  · rcases List.mem_append.mp hx with hx | hx
    · exact hnot x hx hstart
    · obtain ⟨hx, hxrun⟩ := List.mem_filter.mp hx
      have hnum := (hb.starts hx hstart).num
      rw [of_decide_eq_true hxrun] at hnum
      obtain ⟨b, hb', hbid⟩ := hr.minted hpre hm
      have hle := (Attempts.num_bounds hb').2
      rw [hbid, hnum] at hle
      simp [Attempts.next] at hle

/-- An Attempt that is the latest at both ends of a run is so all along. -/
theorem Reach.frontier_between (hr : Reach cond db₀ g) (hrun : Runs cond g g₁)
    (hrun₁ : Runs cond g₁ g₂) (hf : (g.db.steps run step).attempts.frontier = some attempt)
    (hf₂ : (g₂.db.steps run step).attempts.frontier = some attempt) :
    (g₁.db.steps run step).attempts.frontier = some attempt := by
  have hle := (hr.leads hrun run step).attempts.length_le
  have hle₁ := ((hr.extend hrun).leads hrun₁ run step).attempts.length_le
  have hnum := Attempts.frontier_num hf
  have hnum₂ := Attempts.frontier_num hf₂
  obtain ⟨a, hlast, rfl⟩ := Attempts.frontier_eq_some.mp hf
  exact Attempts.frontier_of_length (Attempts.num_bounds (Attempts.last?_mem hlast)).1 (by omega)

/-- A commit that re-arms a step after a failed Attempt found it the latest of a Running step,
and had weighed its place in the Take. -/
theorem Reach.rearm_weighed (hfresh : db₀.Fresh) (hr : Reach WeighsInTake db₀ g)
    (hs : Step g e g₁) {kind : FailureKind} {cause : Option String} {at_ : Timestamp}
    (hd : e.Did (.commitStepTransition (rearmStepCommit run step attempt kind cause at_)) ()) :
    RetryAllowed (db₀.retryMax run step) kind
      (takeOrdinal (g.db.eventsOf run) step attempt) := by
  obtain ⟨l, -, hb⟩ := hs.justified hr.backed hd
  obtain ⟨attempts, events, ir, newer, older, hpast, hstale, hsawIr, hused⟩ := StepMove.weighed hb
  obtain ⟨w, hexec⟩ := hs.write_eq hd
  have hfront := (Db.commitStepTransition_ok (Tx.done_eq_ok hexec)).2.2.1 _ rfl
  -- what the call read of the journal and, before, of the Attempts
  obtain ⟨gb, eb, gb₁, -, hrb, hsb, hcb, hrunb, -, hpidb, hwb, -, hownb⟩ := hr.moment_split hpast
  have hsplit : ownOf gb.log e.pid = [⟨.write (.setAttemptFailure run step attempt kind cause),
      .ok ()⟩] ++ ⟨.read (.attemptsOfStep run step), .ok attempts⟩ :: older := hownb
  obtain ⟨ga, ea, ga₁, -, hra, hsa, -, hruna, -, -, hwa, -, -⟩ := hrb.moment_split hsplit
  obtain ⟨rfl, hsameb⟩ := hsb.read_eq hwb
  obtain ⟨rfl, hsamea⟩ := hsa.read_eq hwa
  have htake : SameTake (gb.db.eventsOf run) step attempt :=
    hcb run _ step attempt kind cause hwb (by rw [hpidb, hownb]; rfl)
  have hfronta : (ga₁.db.steps run step).attempts.frontier = some attempt := by
    have hlatest := latest_of_not_stale hstale
    rw [hsamea]
    simp only [Query.eval, Db.attemptsOfStep] at hlatest
    split_ifs at hlatest
    · exact hlatest
    · cases hlatest
  have hra₁ : Reach WeighsInTake db₀ ga₁ := hra.next hsa (by
    intro run' events' step' attempt' kind' cause' hw
    exact absurd (hwa.symm.trans hw) (by simp))
  have hrungb : Runs WeighsInTake gb g := (Runs.refl.tail hsb hcb).trans hrunb
  have hfrontb := hra₁.frontier_between hruna hrungb hfronta hfront
  have hstarted := (hrb.latest_started hfresh run step).trans hfrontb
  -- nothing of the step was started in between, and no rerun reset the count
  obtain ⟨a, hlast, hid⟩ := Attempts.frontier_eq_some.mp hfrontb
  obtain ⟨more, hmore, hnot⟩ := hrb.events_since hrungb ⟨a, Attempts.last?_mem hlast, hid⟩
  have hordinal : takeOrdinal (g.db.eventsOf run) step attempt =
      takeOrdinal (gb.db.eventsOf run) step attempt := by
    rw [takeOrdinal, hmore, throughStart_append hnot, takeOrdinal]
  have hir : (ir.bind (·.step? step)).bind (·.retryMax) = db₀.retryMax run step := by
    obtain ⟨gi, -, -, hri, rfl, -⟩ := hr.saw hsawIr
    rw [Db.retryMax, ← hri.irs]
    rfl
  rw [hir, Query.eval, attemptsUsed_eq_takeOrdinal hstarted htake] at hused
  rw [hordinal]
  exact retryAllowed_of_lt (takeOrdinal_pos hstarted) hused

/-- An Attempt is settled by at most one commit. -/
theorem Reach.settles_once (hr : Reach cond db₀ g) {newer older : List (Entry engine)}
    {e e' : Entry engine} (hlog : g.log = newer ++ e :: older) (he' : e' ∈ older)
    {t t' : StepTransition} (hd : e.Did (.commitStepTransition t) ())
    (hd' : e'.Did (.commitStepTransition t') ()) (ht : Settles run step attempt t)
    (ht' : Settles run step attempt t') : False := by
  obtain ⟨g₀, g₀', hr₀, hs, -, -, rfl⟩ := hr.at_entry hlog
  obtain ⟨newer', older', hlog'⟩ := List.append_of_mem he'
  obtain ⟨g₁, g₁', hr₁, hs', hc', hrun, -⟩ := hr₀.at_entry hlog'
  have hsettles : ∀ t, Settles run step attempt t → t.run = run ∧ t.step = step ∧
      t.from_ = .running ∧ t.frontier = .is (some attempt) := by
    rintro t (⟨kind, cause, at_, rfl⟩ | ⟨to_, failure, cause, at_, rfl⟩) <;>
      exact ⟨rfl, rfl, rfl, rfl⟩
  obtain ⟨w, hexec⟩ := hs.write_eq hd
  obtain ⟨rfl, rfl, hfrom, hfrontier⟩ := hsettles t ht
  obtain ⟨-, hstatus, hfront, -⟩ := Db.commitStepTransition_ok (Tx.done_eq_ok hexec)
  rw [hfrom] at hstatus
  have hfront := hfront _ hfrontier
  -- the earlier commit found the Attempt the latest, and left the step not Running
  obtain ⟨w', hexec'⟩ := hs'.write_eq hd'
  obtain ⟨hrun', hstep', -, hfrontier'⟩ := hsettles t' ht'
  obtain ⟨-, -, hfront', hpost⟩ := Db.commitStepTransition_ok (Tx.done_eq_ok hexec')
  obtain ⟨l, -, hb⟩ := hs'.justified hr₁.backed hd'
  have hleft : (g₁'.db.steps t.run t.step).status ≠ .running := by
    rw [hpost, Db.enqueueAll_steps, hrun', hstep']
    simpa [Db.journal] using StepMove.to_ne_running hb
  obtain ⟨a, hlast, hid⟩ := Attempts.frontier_eq_some.mp (hfront' _ hfrontier')
  have hminted : g₁'.db.Minted t.run t.step attempt := by
    rw [← hrun', ← hstep']
    exact hr₁.minted (Runs.refl.tail hs' hc') ⟨a, Attempts.last?_mem hlast, hid⟩
  have hr₁' := hr₁.next hs' hc'
  have hgone : ¬((g₀.db.steps t.run t.step).status = .running ∧
      (g₀.db.steps t.run t.step).attempts.frontier = some attempt) := by
    refine hrun.keeps (P := fun g' : Config engine =>
      ¬((g'.db.steps t.run t.step).status = .running ∧
        (g'.db.steps t.run t.step).attempts.frontier = some attempt))
      (fun g₂ e₂ g₃ hpre hs₂ _ hno hon => ?_) fun hon => hleft hon.1
    rcases (hr₁'.extend hpre).step_row hs₂ t.run t.step with hsame | ⟨t₂, a₂, l₂, -, -, hb₂, hrw⟩
    · rw [hsame] at hon
      exact hno hon
    · exact hno (hrw.onAttempt hb₂ (hr₁'.minted hpre hminted) hon.1 hon.2)
  exact hgone ⟨hstatus, hfront⟩

end Scarab.Interleave

namespace Scarab.Engine

open Interleave

/-- A step is retried only within its policy's budget for the Take, as long as no failure is
weighed after the next Take's boundary is in the journal; and no Attempt is settled twice. -/
theorem retries_bounded {db₀ : Db} (hfresh : db₀.Fresh) :
    (∀ g : Config engine, Reach WeighsInTake db₀ g → ∀ e ∈ g.log,
      ∀ run step attempt kind cause at_,
        e.Did (.commitStepTransition (rearmStepCommit run step attempt kind cause at_)) () →
        RetryAllowed (db₀.retryMax run step) kind
          (takeOrdinal (e.pre.eventsOf run) step attempt)) ∧
      ∀ g : Config engine, Reach (fun _ _ => True) db₀ g → ∀ newer e older,
        g.log = newer ++ e :: older → ∀ e' ∈ older, ∀ run step attempt t t',
          e.Did (.commitStepTransition t) () → e'.Did (.commitStepTransition t') () →
          ¬(Settles run step attempt t ∧ Settles run step attempt t') := by
  constructor
  · intro g hr e he run step attempt kind cause at_ hd
    obtain ⟨newer, older, hlog⟩ := List.append_of_mem he
    obtain ⟨g₀, g₁, hr₀, hs, -, -, -⟩ := hr.at_entry hlog
    have hpre : e.pre = g₀.db := hs.before_eq
    rw [hpre]
    exact hr₀.rearm_weighed hfresh hs hd
  · rintro g hr newer e older hlog e' he' run step attempt t t' hd hd' ⟨ht, ht'⟩
    exact hr.settles_once hlog he' hd hd' ht ht'

/-- The step committed this transition. -/
def committed (t : StepTransition) (e : Entry engine) : Bool :=
  match e.what with
  | .did (.write (.commitStepTransition t')) (.ok _) => decide (t' = t)
  | _ => false

theorem committed_did {t : StepTransition} {e : Entry engine} (h : committed t e = true) :
    e.Did (.commitStepTransition t) () := by
  unfold committed at h
  split at h
  · next t' a hw =>
    obtain rfl := of_decide_eq_true h
    exact hw
  · cases h

/-- A rerun of the Running step is asked for between the record of its configuration failure and
the count of its Attempts: the first Attempt of the first Take is retried. -/
theorem config_failure_retried : ¬∀ (db₀ : Db) (g : Config engine), db₀.Fresh →
    Reach (fun _ _ => True) db₀ g → ∀ e ∈ g.log, ∀ run step attempt kind cause at_,
      e.Did (.commitStepTransition (rearmStepCommit run step attempt kind cause at_)) () →
      RetryAllowed (db₀.retryMax run step) kind
        (takeOrdinal (e.pre.eventsOf run) step attempt) := by
  intro hall
  obtain ⟨g, hg, htest⟩ := Reach.of_play (M := engine) oneStepDb
    [.start (.admitRun plainConfig [] runR), .runOut 0 60 (calm .running none),
      .start (.reconcile plainConfig []), .acts 1 18 (calm (.failed .config none) none),
      .start (.rerunStep false runR stepA none), .acts 2 4 (calm .running none),
      .runOut 1 60 (calm (.failed .config none) none)]
    (fun g => g.log.any (committed (rearmStepCommit runR stepA ⟨1⟩ .config none 0)))
    (by decide +kernel)
  obtain ⟨e, he, hdid⟩ := List.any_eq_true.mp htest
  have hallowed := hall oneStepDb g (createdDb_fresh _ _ _) hg e he runR stepA ⟨1⟩ .config none 0
    (committed_did hdid)
  exact absurd hallowed.1 (by decide)

/-- The unit of the first Attempt never starts: the step is retried. -/
theorem retries_bounded_first : ∃ g : Config engine, Reach WeighsInTake oneStepDb g ∧
    RetryAllowed none (.infra true) 1 := by
  obtain ⟨g, hg, htest⟩ := Reach.of_play (M := engine) oneStepDb
    [.start (.admitRun plainConfig [] runR), .runOut 0 60 (calm .running none),
      .start (.reconcile plainConfig []),
      .runOut 1 60 (calm (.failed (.infra true) none) none)]
    (fun g => g.log.all (fun e => e.pre.events.all (!·.isRerun)) && g.log.any fun e =>
      committed (rearmStepCommit runR stepA ⟨1⟩ (.infra true) none 0) e &&
        decide (takeOrdinal (e.pre.eventsOf runR) stepA ⟨1⟩ = 1)) (by decide +kernel)
  simp only [Bool.and_eq_true, List.all_eq_true, List.any_eq_true, decide_eq_true_eq] at htest
  obtain ⟨hquiet, e, he, hdid, hk⟩ := htest
  have hr : Reach WeighsInTake oneStepDb g := by
    refine hg.of_log hquiet fun g' e' g'' _ hs _ hdom => ?_
    intro run events step attempt kind cause _ _ x hx
    have hx : x ∈ g'.db.eventsOf run := List.rtakeWhile_suffix _ _ |>.subset hx
    have hmem : x ∈ e'.pre.events := by
      rw [show e'.pre = g'.db from hs.before_eq]
      exact List.mem_of_mem_filter hx
    have hno := hdom x hmem
    unfold Event.isRerun at hno
    unfold Event.reruns
    cases hkind : x.kind <;> simp_all
  refine ⟨g, hr, ?_⟩
  rw [← hk]
  exact (retries_bounded (createdDb_fresh _ _ _)).1 g hr e he runR stepA ⟨1⟩ (.infra true) none 0
    (committed_did hdid)

end Scarab.Engine
