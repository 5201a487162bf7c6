import Scarab.EngineJournal

/-!
# The active time a budget bills

A run's journal says when it was Running. The budget bills the Running time of the current
Take, read back from that journal.
-/
namespace Scarab.Engine

open Interleave

def Event.isRerun (e : Event) : Bool :=
  match e.kind with
  | .runRerunRequested _ _ _ _ => true
  | _ => false

/-- The status a run's journal leaves it in. -/
def statusAfter (s : RunStatus) (events : List Event) : RunStatus :=
  events.foldl (fun s e => match e.kind with
    | .runTransitioned _ to_ => to_
    | _ => s) s

/-- The time spent Running until `at_`, by a run in status `s` since `since`. -/
def timeRunning (s : RunStatus) (since : Timestamp) : List Event → Timestamp → ℤ
  | [], at_ => if s = .running then at_ - since else 0
  | e :: es, at_ =>
      match e.kind with
      | .runTransitioned _ to_ =>
          (if s = .running then e.at_ - since else 0) + timeRunning to_ e.at_ es at_
      | _ => timeRunning s since es at_

/-- The latest rerun request of a journal, with what is before and after it. -/
def latestRerun : List Event → Option (List Event × Event × List Event)
  | [] => none
  | e :: es =>
      match latestRerun es with
      | some (before, r, after) => some (e :: before, r, after)
      | none => if e.isRerun then some ([], e, es) else none

/-- The time a run has spent Running since its latest rerun was requested, or since it was
created. -/
def takeActiveTime (events : List Event) (at_ : Timestamp) : ℤ :=
  match latestRerun events with
  | none => timeRunning .pending 0 events at_
  | some (before, r, after) => timeRunning (statusAfter .pending before) r.at_ after at_

/-- When the status a run is in ends: at its next transition, or not before `at_`. -/
def statusUntil : List Event → Timestamp → Timestamp
  | [], at_ => at_
  | e :: es, at_ =>
      match e.kind with
      | .runTransitioned _ _ => e.at_
      | _ => statusUntil es at_

/-- The latest rerun found the run not Running, or in no more than the last instant of a
Running interval. -/
def RerunWhileIdle (events : List Event) (at_ : Timestamp) : Prop :=
  ∀ before r after, latestRerun events = some (before, r, after) →
    statusAfter .pending before = .running → statusUntil after at_ = r.at_

theorem latestRerun_eq_none {events : List Event} :
    latestRerun events = none ↔ ∀ e ∈ events, e.isRerun = false := by
  induction events with
  | nil => simp [latestRerun]
  | cons e es ih =>
    simp only [latestRerun, List.mem_cons, forall_eq_or_imp]
    cases hes : latestRerun es with
    | none =>
      have htail := ih.mp hes
      cases he : e.isRerun <;> simp
      exact htail
    | some x =>
      have hne : ¬ ∀ e ∈ es, e.isRerun = false := fun h => by simp [ih.mpr h] at hes
      simp [hne]

theorem latestRerun_spec {events before after : List Event} {r : Event}
    (h : latestRerun events = some (before, r, after)) :
    events = before ++ r :: after ∧ r.isRerun = true ∧ ∀ e ∈ after, e.isRerun = false := by
  induction events generalizing before with
  | nil => cases h
  | cons e es ih =>
    simp only [latestRerun] at h
    cases hes : latestRerun es with
    | some x =>
      obtain ⟨b, r', a⟩ := x
      simp only [hes, Option.some.injEq, Prod.mk.injEq] at h
      obtain ⟨rfl, rfl, rfl⟩ := h
      obtain ⟨heq, hr, ha⟩ := ih hes
      exact ⟨by rw [heq, List.cons_append], hr, ha⟩
    | none =>
      simp only [hes] at h
      split_ifs at h with he
      simp only [Option.some.injEq, Prod.mk.injEq] at h
      obtain ⟨rfl, rfl, rfl⟩ := h
      exact ⟨rfl, he, latestRerun_eq_none.mp hes⟩

/-- What a bill comes to at `at_`. -/
def billAt (bill : ℤ × Option Timestamp) (at_ : Timestamp) : ℤ :=
  bill.1 + match bill.2 with
    | none => 0
    | some start => at_ - start

/-- The status a run is in counts until it ends, when it is Running. -/
theorem timeRunning_running (since since' : Timestamp) (events : List Event) (at_ : Timestamp) :
    timeRunning .running since events at_ =
      statusUntil events at_ - since + timeRunning .pending since' events at_ := by
  induction events with
  | nil => simp [timeRunning, statusUntil]
  | cons e es ih =>
    cases hk : e.kind with
    | runTransitioned from_ to_ => simp [timeRunning, statusUntil, hk]
    | _ => simpa only [timeRunning, statusUntil, hk] using ih

theorem timeRunning_of_ne {s : RunStatus} (hs : s ≠ .running) (since since' : Timestamp)
    (events : List Event) (at_ : Timestamp) :
    timeRunning s since events at_ = timeRunning .pending since' events at_ := by
  induction events with
  | nil => simp [timeRunning, hs]
  | cons e es ih =>
    cases hk : e.kind with
    | runTransitioned from_ to_ => simp [timeRunning, hk, hs]
    | _ => simpa only [timeRunning, hk] using ih

/-- Without a rerun, the fold adds the Running time to what it has. -/
theorem foldl_billEvent {events : List Event} (h : ∀ e ∈ events, e.isRerun = false)
    (s : RunStatus) (since : Timestamp) (total : ℤ) (at_ : Timestamp) :
    billAt (events.foldl billEvent (total, if s = .running then some since else none)) at_ =
      total + timeRunning s since events at_ := by
  induction events generalizing s since total with
  | nil =>
    simp only [List.foldl_nil, billAt, timeRunning]
    split_ifs <;> simp
  | cons e es ih =>
    have htail := ih fun x hx => h x (List.mem_cons_of_mem _ hx)
    have hhead := h e List.mem_cons_self
    rw [List.foldl_cons]
    cases hk : e.kind with
    | runRerunRequested => simp [Event.isRerun, hk] at hhead
    | runTransitioned from_ to_ =>
      by_cases hto : to_ = .running
      · -- entering Running opens an interval, unless one is open
        have hbill : billEvent (total, if s = .running then some since else none) e =
            (total, if to_ = .running then some (if s = .running then since else e.at_)
              else none) := by
          subst hto
          by_cases hs : s = .running <;> simp [billEvent, hk, hs]
        rw [hbill, htail, timeRunning, hk]
        subst hto
        have hopen := timeRunning_running (if s = .running then since else e.at_) 0 es at_
        have hfresh := timeRunning_running e.at_ 0 es at_
        dsimp only
        rw [hopen, hfresh]
        split_ifs <;> omega
      · -- leaving it closes the open one
        have hbill : billEvent (total, if s = .running then some since else none) e =
            (total + (if s = .running then e.at_ - since else 0),
              if to_ = .running then some e.at_ else none) := by
          by_cases hs : s = .running <;> cases to_ <;> simp_all [billEvent]
        rw [hbill, htail, timeRunning, hk]
        dsimp only
        omega
    | _ =>
      simp only [billEvent, hk, timeRunning]
      exact htail s since total

/-- The bill of a journal is the Running time since its latest rerun, counted as though the
rerun had found the run not Running. -/
theorem activeMs_eq (events : List Event) (at_ : Timestamp) :
    activeMs events at_ =
      match latestRerun events with
      | none => timeRunning .pending 0 events at_
      | some (_, r, after) => timeRunning .pending r.at_ after at_ := by
  have hbill : activeMs events at_ = billAt (events.foldl billEvent (0, none)) at_ := rfl
  rw [hbill]
  cases hl : latestRerun events with
  | none =>
    have hsum := foldl_billEvent (latestRerun_eq_none.mp hl) .pending 0 0 at_
    simpa using hsum
  | some x =>
    obtain ⟨before, r, after⟩ := x
    obtain ⟨rfl, hr, hafter⟩ := latestRerun_spec hl
    have hreset : billEvent (before.foldl billEvent (0, none)) r = (0, none) := by
      unfold Event.isRerun at hr
      split at hr
      · next hk => simp [billEvent, hk]
      · cases hr
    rw [List.foldl_append, List.foldl_cons, hreset]
    have hsum := foldl_billEvent hafter .pending r.at_ 0 at_
    simpa using hsum

/-- The bill is right unless the latest rerun cut a Running interval in two: then what the
interval has left is not billed. -/
theorem activeMs_eq_takeActiveTime_iff (events : List Event) (at_ : Timestamp) :
    activeMs events at_ = takeActiveTime events at_ ↔ RerunWhileIdle events at_ := by
  rw [activeMs_eq, takeActiveTime, RerunWhileIdle]
  cases hl : latestRerun events with
  | none => simp
  | some x =>
    obtain ⟨before, r, after⟩ := x
    simp only [Option.some.injEq, Prod.mk.injEq, and_imp]
    by_cases hs : statusAfter .pending before = .running
    · have hsplit := timeRunning_running r.at_ r.at_ after at_
      rw [hs, hsplit]
      constructor
      · rintro heq before' r' after' rfl rfl rfl -
        have hzero : (statusUntil after at_ : ℤ) - r.at_ = 0 := by linarith
        exact sub_eq_zero.mp hzero
      · intro h
        have hend : (statusUntil after at_ : ℤ) = r.at_ := h before r after rfl rfl rfl hs
        linarith
    · rw [timeRunning_of_ne hs r.at_ r.at_]
      constructor
      · rintro - before' r' after' rfl rfl rfl hrun
        exact absurd hrun hs
      · exact fun _ => rfl

/-- Events that move no run leave the status a journal says. -/
theorem statusAfter_of_quiet {s : RunStatus} {events : List Event}
    (h : ∀ e ∈ events, ∀ from_ to_, e.kind ≠ .runTransitioned from_ to_) :
    statusAfter s events = s := by
  induction events with
  | nil => rfl
  | cons e es ih =>
    have htail : statusAfter s es = s := ih fun x hx => h x (List.mem_cons_of_mem _ hx)
    have hhead := h e List.mem_cons_self
    rw [statusAfter, List.foldl_cons]
    cases hk : e.kind with
    | runTransitioned from_ to_ => exact absurd hk (hhead from_ to_)
    | _ => exact htail

theorem statusAfter_append (s : RunStatus) (es es' : List Event) :
    statusAfter s (es ++ es') = statusAfter (statusAfter s es) es' := List.foldl_append

end Scarab.Engine

namespace Scarab.Interleave

open Engine

variable {cond : Config engine → Entry engine → Prop} {g : Config engine} {db₀ : Db}

/-- The journal of a run says what status the run is in. -/
theorem Reach.statusAfter_events (hfresh : db₀.Fresh) (hr : Reach cond db₀ g) (run : RunId) :
    statusAfter .pending (g.db.eventsOf run) = g.db.runs run := by
  refine Runs.keeps (P := fun g' : Config engine =>
    statusAfter .pending (g'.db.eventsOf run) = g'.db.runs run) (fun g₁ e g₂ hpre hs _ ih => ?_) hr ?_
  · have hpre : Reach cond db₀ g₁ := hpre
    rcases hpre.step_events hs with hsame | ⟨t, a, l, hd, hl, hb, ⟨w, hexec⟩, hevents⟩
    · rwa [hsame]
    have hsplit : g₂.db.eventsOf run =
        g₁.db.eventsOf run ++ (t.newEvents g₁.db).filter (·.run = run) := by
      rw [Db.eventsOf, hevents, List.filter_append]
      rfl
    rw [hsplit, statusAfter_append, ih]
    have hmoves := fun e (he : e ∈ t.newEvents g₁.db) => hb.journals he
    cases ht : t.isRunMove with
    | false =>
      rw [((Tx.exec_frame hexec).runs ht).1]
      refine statusAfter_of_quiet fun x hx from_ to_ hk => ?_
      rcases hmoves x (List.mem_filter.mp hx).1 with hminor | ⟨t', rfl, -⟩ | ⟨_, _, hstart, -⟩ |
        ⟨-, _, _, _, _, hrerun⟩
      · simp [hk] at hminor
      · simp [Tx.isRunMove] at ht
      · simp [hk] at hstart
      · simp [hk] at hrerun
    | true =>
      cases t with
      | commitRunTransition t =>
        obtain ⟨-, hfrom, -, hpost⟩ := Db.commitRunTransition_ok (Tx.done_eq_ok hexec)
        obtain ⟨at_, preceding, htevents, hminor⟩ := hb.1.events_eq
        have hruns : g₂.db.runs = Function.update g₁.db.runs t.run t.to_ := by
          rw [hpost, Db.enqueueAll_eq]
          rfl
        by_cases hrun : t.run = run
        · subst hrun
          have hall : (Tx.newEvents g₁.db (.commitRunTransition t)).filter (·.run = t.run) =
              eventsAt t.run at_ preceding ++ eventsAt t.run at_ [.runTransitioned t.from_ t.to_] := by
            rw [Tx.newEvents, htevents, eventsAt, List.map_append, List.filter_eq_self.mpr]
            · rfl
            · intro x hx
              simp only [List.mem_append, List.mem_map] at hx
              rcases hx with ⟨k, -, rfl⟩ | ⟨k, -, rfl⟩ <;> simp
          have hquiet : statusAfter (g₁.db.runs t.run) (eventsAt t.run at_ preceding) =
              g₁.db.runs t.run := by
            refine statusAfter_of_quiet fun x hx from_ to_ hk => ?_
            have hx := eventsAt_minor hminor x hx
            simp [hk] at hx
          rw [hall, statusAfter_append, hquiet, hruns]
          simp [statusAfter, eventsAt]
        · have hnone : (Tx.newEvents g₁.db (.commitRunTransition t)).filter (·.run = run) = [] := by
            refine List.filter_eq_nil_iff.mpr fun x hx => ?_
            rw [Tx.newEvents, htevents] at hx
            obtain ⟨k, -, rfl⟩ := List.mem_map.mp hx
            simpa using hrun
          rw [hnone, hruns, Function.update_of_ne (Ne.symm hrun)]
          rfl
      | _ => simp [Tx.isRunMove] at ht
  · rw [Db.eventsOf, show (Config.init db₀ : Config engine).db.events = [] from hfresh.events]
    exact (hfresh.runs run).symm

end Scarab.Interleave

namespace Scarab.Engine

open Interleave

/-- While a run is Running, the budget bills exactly the time it has been Running since its
latest rerun, as long as that rerun did not find it Running. -/
theorem budget_bills_take {db₀ : Db} {g : Config engine} (hfresh : db₀.Fresh)
    (hr : Reach (fun _ _ => True) db₀ g) {run : RunId} (hrun : g.db.runs run = .running)
    (at_ : Timestamp) :
    statusAfter .pending (g.db.eventsOf run) = .running ∧
      (activeMs (g.db.eventsOf run) at_ = takeActiveTime (g.db.eventsOf run) at_ ↔
        RerunWhileIdle (g.db.eventsOf run) at_) :=
  ⟨(hr.statusAfter_events hfresh run).trans hrun, activeMs_eq_takeActiveTime_iff _ _⟩

/-- The calm environment at an instant, with the executor reporting one state of every job. -/
def calmAt (job : ExecState) (at_ : Timestamp) : Answer :=
  ⟨none, false, [], fun q => match q with
    | .now => at_
    | q => calmReply job none q⟩

/-- The run starts at 1000 and goes on after a rerun of its Running step at 2000: at 5000 it has
been Running for 3000 ms of the Take, and none is billed. -/
theorem running_rerun_unbilled : ¬∀ (db₀ : Db) (run : RunId) (g : Config engine) (at_ : Timestamp),
    db₀.Fresh → Reach (fun _ _ => True) db₀ g → g.db.runs run = .running →
      activeMs (g.db.eventsOf run) at_ = takeActiveTime (g.db.eventsOf run) at_ := by
  intro hall
  obtain ⟨g, hg, htest⟩ := Reach.of_play (M := engine) oneStepDb
    [.start (.admitRun plainConfig [] runR), .runOut 0 60 (calmAt .running 1000),
      .start (.rerunStep false runR stepA none), .runOut 1 60 (calmAt .running 2000)]
    (fun g => decide (g.db.runs runR = .running ∧ activeMs (g.db.eventsOf runR) 5000 = 0 ∧
      takeActiveTime (g.db.eventsOf runR) 5000 = 3000)) (by decide +kernel)
  obtain ⟨hrun, hbilled, htruth⟩ := of_decide_eq_true htest
  have heq := hall oneStepDb runR g 5000 (createdDb_fresh _ _ _) hg hrun
  rw [hbilled, htruth] at heq
  exact absurd heq (by decide)

/-- The run starts at 1000 and succeeds at 2000. A rerun of its step at 3000 brings it back: at 5000
the new Take has been Running for 2000 ms. -/
theorem budget_bills_take_first : ∃ g : Config engine, Reach (fun _ _ => True) oneStepDb g ∧
    (latestRerun (g.db.eventsOf runR)).isSome = true ∧
    activeMs (g.db.eventsOf runR) 5000 = takeActiveTime (g.db.eventsOf runR) 5000 ∧
    takeActiveTime (g.db.eventsOf runR) 5000 = 2000 := by
  obtain ⟨g, hg, htest⟩ := Reach.of_play (M := engine) oneStepDb
    [.start (.admitRun plainConfig [] runR), .runOut 0 60 (calmAt .succeeded 1000),
      .start (.reconcile plainConfig []), .runOut 1 60 (calmAt .succeeded 2000),
      .start (.advance runR), .runOut 2 60 (calmAt .succeeded 2000),
      .start (.rerunStep false runR stepA none), .runOut 3 60 (calmAt .succeeded 3000),
      .start (.admitRun plainConfig [] runR), .runOut 4 60 (calmAt .running 4000)]
    (fun g => decide (g.db.runs runR = .running ∧ takeActiveTime (g.db.eventsOf runR) 5000 = 2000) &&
      ((latestRerun (g.db.eventsOf runR)).isSome &&
        (latestRerun (g.db.eventsOf runR)).all fun x => decide
          (statusAfter .pending x.1 ≠ .running))) (by decide +kernel)
  simp only [Bool.and_eq_true, decide_eq_true_eq] at htest
  obtain ⟨⟨hrun, htime⟩, hrerun, hidle⟩ := htest
  refine ⟨g, hg, hrerun, (budget_bills_take (createdDb_fresh _ _ _) hg hrun 5000).2.mpr ?_, htime⟩
  intro before r after hl hrunning
  rw [hl, Option.all_some, decide_eq_true_eq] at hidle
  exact absurd hrunning hidle

end Scarab.Engine
