import Scarab.GateWaits
import Scarab.InterleaveAlone

/-!
# A pass of the leader, alone

What each phase of admission does to the steps of a run when no other call is in between and
the store does not fail.
-/
namespace Scarab.Engine

open Interleave

/-- The program ends in `Q` when it runs alone on a store that does not fail. -/
abbrev Alone {α : Type} (p : Eff α) (db : Db) (Q : Except Err α → Db → Prop) : Prop :=
  p.solo respond (fun w => w.fault = none) db Q

/-- It returns, and ends in `Q`. -/
abbrev AloneOk {α : Type} (p : Eff α) (db : Db) (Q : α → Db → Prop) : Prop :=
  Alone p db fun r db' => ∃ a, r = .ok a ∧ Q a db'

section commands

variable {α β : Type} {db : Db} {Q : α → Db → Prop}

theorem alone_read {q : Query} {f : q.Ans → Eff α} (h : AloneOk (f (q.eval db)) db Q) :
    AloneOk ((read q).bind f) db Q := by
  intro w hw
  simp only [respond, hw]
  exact h

theorem alone_ask {q : Ask} {f : q.Ans → Eff α} (h : ∀ a, AloneOk (f a) db Q) :
    AloneOk ((ask q).bind f) db Q := fun w _ => h (w.reply q)

theorem alone_commit {t : Tx} {f : t.Ans → Eff α}
    (hok : ∀ w a db', t.exec w db = .ok (a, db') → AloneOk (f a) db' Q)
    (herr : ∀ w e, t.exec w db ≠ .error e) : AloneOk ((commit t).bind f) db Q := by
  intro w hw
  simp only [respond, hw]
  cases hexec : t.exec w db with
  | ok x => exact hok w x.1 x.2 hexec
  | error e => exact absurd hexec (herr w e)

theorem alone_commitOrLose {t : Tx} {Q : Unit → Db → Prop}
    (hok : ∀ w a db', t.exec w db = .ok (a, db') → Q () db')
    (hlost : ∀ w, t.exec w db = .error .conflict → Q () db)
    (herr : ∀ w e, t.exec w db = .error e → e = .conflict) : AloneOk (commitOrLose t) db Q := by
  intro w hw
  simp only [respond, hw]
  cases hexec : t.exec w db with
  | ok x => exact ⟨(), rfl, hok w x.1 x.2 hexec⟩
  | error e =>
    obtain rfl := herr w e hexec
    exact ⟨(), rfl, hlost w hexec⟩

theorem aloneOk_pure {a : α} (h : Q a db) : AloneOk (Prog.ok a) db Q := ⟨a, rfl, h⟩

theorem aloneOk_mono {p : Eff α} {Q' : α → Db → Prop} (h : AloneOk p db Q)
    (hQ : ∀ a db', Q a db' → Q' a db') : AloneOk p db Q' := by
  refine Prog.solo_mono h fun r db' hr => ?_
  obtain ⟨a, rfl, ha⟩ := hr
  exact ⟨a, rfl, hQ a db' ha⟩

theorem respond_grows (c : Cmd) (w : Answer) (db : Db) :
    db.events <+: (respond c w db).2.events := by
  cases c with
  | read q => simp only [respond]; split <;> exact List.prefix_rfl
  | ask q => exact List.prefix_rfl
  | write t =>
    simp only [respond]
    split
    · exact List.prefix_rfl
    · split
      · next a d hexec =>
        rw [(Tx.exec_frame hexec).events]
        exact List.prefix_append _ _
      · exact List.prefix_rfl

/-- A program that ran alone has only appended to the journal. -/
theorem aloneOk_grows {p : Eff α} (h : AloneOk p db Q) :
    AloneOk p db fun a db' => Q a db' ∧ db.events <+: db'.events := by
  refine Prog.solo_mono (Prog.solo_keeps (I := fun d : Db => db.events <+: d.events) h
    (fun c w d hd => hd.trans (respond_grows c w d)) List.prefix_rfl) fun r db' hr => ?_
  obtain ⟨⟨a, rfl, ha⟩, hgrow⟩ := hr
  exact ⟨a, rfl, ha, hgrow⟩

end commands

/-- The journal has gained this move of the step. -/
def Gained (run : RunId) (step : StepId) (from_ to_ : StepStatus) (events later : List Event) :
    Prop :=
  ∃ at_ before, events <+: before ∧
    before ++ [⟨run, .stepTransitioned step from_ to_, at_⟩] <+: later

section gained

variable {run : RunId} {step : StepId} {from_ to_ : StepStatus} {events later : List Event}

theorem Gained.since {first : List Event} (h : Gained run step from_ to_ events later)
    (hfirst : first <+: events) : Gained run step from_ to_ first later := by
  obtain ⟨at_, before, hbefore, hlater⟩ := h
  exact ⟨at_, before, hfirst.trans hbefore, hlater⟩

theorem Gained.upto {last : List Event} (h : Gained run step from_ to_ events later)
    (hlast : later <+: last) : Gained run step from_ to_ events last := by
  obtain ⟨at_, before, hbefore, hlater⟩ := h
  exact ⟨at_, before, hbefore, hlater.trans hlast⟩

theorem gained_of_appended {at_ : Timestamp} {pre : List EventPayload}
    (h : later = events ++ eventsAt run at_ (pre ++ [.stepTransitioned step from_ to_])) :
    Gained run step from_ to_ events later := by
  refine ⟨at_, events ++ eventsAt run at_ pre, List.prefix_append _ _, ?_⟩
  simp [h, eventsAt]

end gained

/-- The event says nothing of whether the step was skipped as unneeded. -/
def Event.ignoredBy (step : StepId) (e : Event) : Bool :=
  match e.kind with
  | .stepSkipped s _ => s ≠ step
  | .stepTransitioned s _ _ => s ≠ step
  | .runRerunRequested _ invalidated _ _ => step ∉ invalidated
  | _ => true

/-- What the journal says of the step's latest skip, a bare one being behind it or not. -/
def Db.unneededSkip (db : Db) (run : RunId) (step : StepId) (bare : Bool) : Bool :=
  skippedAsUnneededFrom step (db.eventsOf run).reverse bare

/-- The run's frame: what no commit of a pass on its steps changes. -/
structure Steady (run : RunId) (db db' : Db) : Prop where
  runIds : db'.runIds = db.runIds
  stepIds : db'.stepIds = db.stepIds
  lease : db'.lease = db.lease
  runs : db'.runs = db.runs
  generations : db'.generations = db.generations
  needs : ∀ step, (db'.steps run step).needs = (db.steps run step).needs
  gateKind : ∀ step, (db'.steps run step).gateKind = (db.steps run step).gateKind
  spec : ∀ step, (db'.steps run step).spec = (db.steps run step).spec

theorem Steady.refl (run : RunId) (db : Db) : Steady run db db :=
  ⟨rfl, rfl, rfl, rfl, rfl, fun _ => rfl, fun _ => rfl, fun _ => rfl⟩

theorem Steady.trans {run : RunId} {db db₁ db₂ : Db} (h : Steady run db db₁)
    (h' : Steady run db₁ db₂) : Steady run db db₂ :=
  ⟨h'.runIds.trans h.runIds, h'.stepIds.trans h.stepIds, h'.lease.trans h.lease,
    h'.runs.trans h.runs, h'.generations.trans h.generations,
    fun s => (h'.needs s).trans (h.needs s), fun s => (h'.gateKind s).trans (h.gateKind s),
    fun s => (h'.spec s).trans (h.spec s)⟩

/-- A step the commits in between were not about. -/
structure Spares (run : RunId) (step : StepId) (db db' : Db) : Prop where
  status : (db'.steps run step).status = (db.steps run step).status
  frontier : (db'.steps run step).attempts.frontier = (db.steps run step).attempts.frontier
  skip : ∀ bare, db'.unneededSkip run step bare = db.unneededSkip run step bare

theorem Spares.refl (run : RunId) (step : StepId) (db : Db) : Spares run step db db :=
  ⟨rfl, rfl, fun _ => rfl⟩

theorem Spares.trans {run : RunId} {step : StepId} {db db₁ db₂ : Db} (h : Spares run step db db₁)
    (h' : Spares run step db₁ db₂) : Spares run step db db₂ :=
  ⟨h'.status.trans h.status, h'.frontier.trans h.frontier, fun bare => (h'.skip bare).trans (h.skip bare)⟩

/-- The step's latest skip is not the unneeded one, and a bare skip would not make it so. -/
def Dull (run : RunId) (step : StepId) (db : Db) : Prop :=
  ∀ bare, db.unneededSkip run step bare = false

theorem Spares.dull {run : RunId} {step : StepId} {db db' : Db} (h : Spares run step db db')
    (hd : Dull run step db) : Dull run step db' := fun bare => (h.skip bare).trans (hd bare)

section skips

variable {run : RunId} {step : StepId} {db db' : Db}

theorem skippedAsUnneededFrom_ignored {e : Event} {older : List Event} {bare : Bool}
    (h : e.ignoredBy step = true) :
    skippedAsUnneededFrom step (e :: older) bare = skippedAsUnneededFrom step older bare := by
  obtain ⟨run', kind, at_⟩ := e
  cases kind with
  | stepSkipped s reason => exact if_neg (of_decide_eq_true h)
  | stepTransitioned s from_ to_ => exact if_neg (of_decide_eq_true h)
  | runRerunRequested target invalidated by_ widened => exact if_neg (of_decide_eq_true h)
  | _ => rfl

/-- Events that are not about a step leave what the journal says of its skip. -/
theorem unneededSkip_append {new : List Event} (hevents : db'.events = db.events ++ new)
    (h : ∀ e ∈ new, e.run = run → e.ignoredBy step = true) (bare : Bool) :
    db'.unneededSkip run step bare = db.unneededSkip run step bare := by
  simp only [Db.unneededSkip, Db.eventsOf, hevents, List.filter_append, List.reverse_append]
  have hall : ∀ e ∈ (new.filter (·.run = run)).reverse, e.ignoredBy step = true := by
    intro e he
    obtain ⟨he, hrun⟩ := List.mem_filter.mp (List.mem_reverse.mp he)
    exact h e he (of_decide_eq_true hrun)
  generalize (new.filter (·.run = run)).reverse = late at hall
  induction late with
  | nil => rfl
  | cons e late ih =>
    rw [List.cons_append, skippedAsUnneededFrom_ignored (hall e List.mem_cons_self)]
    exact ih fun x hx => hall x (List.mem_cons_of_mem _ hx)

/-- After a move of the step itself, the journal says it was skipped as unneeded only when the
move is a skip. -/
theorem unneededSkip_move (new : List Event) (from_ : StepStatus) {to_ : StepStatus}
    (at_ : Timestamp) (hevents : db'.events = db.events ++ (new ++ [⟨run, .stepTransitioned step from_ to_, at_⟩]))
    (hto : to_ ≠ .skipped) : Dull run step db' := by
  intro bare
  simp only [Db.unneededSkip, Db.eventsOf, hevents, List.filter_append, List.reverse_append]
  have hlast : [(⟨run, .stepTransitioned step from_ to_, at_⟩ : Event)].filter
      (fun e => decide (e.run = run)) = [⟨run, .stepTransitioned step from_ to_, at_⟩] := by simp
  rw [hlast, List.reverse_singleton, List.cons_append, List.nil_append, List.cons_append,
    skippedAsUnneededFrom]
  simp [hto]

/-- A skip without a reason is not the unneeded one where none was before. -/
theorem dull_bareSkip {from_ : StepStatus} {at_ : Timestamp}
    (hevents : db'.events = db.events ++ [⟨run, .stepTransitioned step from_ .skipped, at_⟩])
    (hd : Dull run step db) : Dull run step db' := by
  intro bare
  have hthen := hd true
  simp only [Db.unneededSkip, Db.eventsOf] at hthen
  simp only [Db.unneededSkip, Db.eventsOf, hevents, List.filter_append, List.reverse_append]
  have hlast : [(⟨run, .stepTransitioned step from_ .skipped, at_⟩ : Event)].filter
      (fun e => decide (e.run = run)) = [⟨run, .stepTransitioned step from_ .skipped, at_⟩] := by
    simp
  rw [hlast, List.reverse_singleton, List.cons_append, List.nil_append, skippedAsUnneededFrom]
  cases bare <;> simp [hthen]

end skips

/-- A commit on one step of the run: it journals `new`, and spares every other step. -/
structure Touches (run : RunId) (step : StepId) (new : List Event) (db db' : Db) : Prop where
  steady : Steady run db db'
  others : ∀ s, s ≠ step → Spares run s db db'
  events : db'.events = db.events ++ new

section touches

variable {run : RunId} {step : StepId} {db db' : Db}

/-- A rewrite of one row that keeps what the pipeline says of the step. -/
theorem touches_setStep {r : StepRec} {new : List Event}
    (hneeds : r.needs = (db.steps run step).needs)
    (hkind : r.gateKind = (db.steps run step).gateKind)
    (hspec : r.spec = (db.steps run step).spec)
    (hnew : ∀ s, s ≠ step → ∀ e ∈ new, e.ignoredBy s = true) :
    Touches run step new db ((db.setStep run step r).journal new) := by
  have hrow : ∀ s, s ≠ step → (db.setStep run step r).steps run s = db.steps run s :=
    fun s hs => Db.steps_setStep_of_ne fun h => hs h.2
  have hown : (db.setStep run step r).steps run step = r := Db.steps_setStep ..
  refine ⟨⟨rfl, rfl, rfl, rfl, rfl, fun s => ?_, fun s => ?_, fun s => ?_⟩, fun s hs => ?_, rfl⟩
  · by_cases hs : s = step
    · rw [hs, Db.journal, hown, hneeds]
    · rw [Db.journal, hrow s hs]
  · by_cases hs : s = step
    · rw [hs, Db.journal, hown, hkind]
    · rw [Db.journal, hrow s hs]
  · by_cases hs : s = step
    · rw [hs, Db.journal, hown, hspec]
    · rw [Db.journal, hrow s hs]
  · exact ⟨by rw [Db.journal, hrow s hs], by rw [Db.journal, hrow s hs],
      unneededSkip_append rfl fun e he _ => hnew s hs e he⟩

/-- The same with messages queued. -/
theorem Touches.enqueueAll {new : List Event} {d : Db} (h : Touches run step new db d)
    (msgs : List OutboxMessage) : Touches run step new db (d.enqueueAll msgs) := by
  rw [Db.enqueueAll_eq]
  exact ⟨⟨h.steady.runIds, h.steady.stepIds, h.steady.lease, h.steady.runs, h.steady.generations,
    h.steady.needs, h.steady.gateKind, h.steady.spec⟩,
    fun s hs => ⟨(h.others s hs).status, (h.others s hs).frontier, (h.others s hs).skip⟩, h.events⟩

theorem touches_commit {t : StepTransition} (hok : db.commitStepTransition t = .ok db')
    (hnew : ∀ s, s ≠ t.step → ∀ e ∈ t.events, e.ignoredBy s = true) :
    Touches t.run t.step t.events db db' ∧ (db'.steps t.run t.step).status = t.to_ := by
  obtain ⟨-, -, -, rfl⟩ := Db.commitStepTransition_ok hok
  have htouch := touches_setStep (r := { db.steps t.run t.step with
    status := t.to_
    attempts := (db.steps t.run t.step).attempts.stamp? t.stamp }) rfl rfl rfl hnew
  exact ⟨htouch.enqueueAll _, by simp [Db.journal]⟩

theorem commitStepTransition_error_eq {t : StepTransition} {e : DbError}
    (h : db.commitStepTransition t = .error e) : e = .conflict := by
  simp only [Db.commitStepTransition] at h
  split at h
  · exact (Except.error.inj h).symm
  · split at h
    · exact (Except.error.inj h).symm
    · cases h

/-- A plain move commits exactly when the step is in the status it moves from. -/
theorem alone_transitionStepWith {from_ to_ : StepStatus} {pre : List EventPayload}
    (hmem : step ∈ db.stepIds run)
    (hpre : ∀ s, s ≠ step → ∀ k ∈ pre, ∀ at_, Event.ignoredBy s ⟨run, k, at_⟩ = true) :
    AloneOk (transitionStepWith run step from_ to_ pre) db fun _ db' =>
      if (db.steps run step).status = from_ then
        (∃ at_, Touches run step (eventsAt run at_ (pre ++ [.stepTransitioned step from_ to_]))
          db db') ∧ (db'.steps run step).status = to_
      else db' = db := by
  refine alone_ask fun at_ => alone_commitOrLose (fun w a db' hexec => ?_) (fun w hexec => ?_)
    fun w e hexec => ?_
  · have hok := Tx.done_eq_ok hexec
    have hfrom : (db.steps run step).status = from_ := (Db.commitStepTransition_ok hok).2.1
    have hnew : ∀ s, s ≠ step → ∀ e ∈ (plainMove run step from_ to_ pre at_).events,
        e.ignoredBy s = true := by
      intro s hs e he
      obtain ⟨k, hk, rfl⟩ := List.mem_map.mp he
      rcases List.mem_append.mp hk with hk | hk
      · exact hpre s hs k hk at_
      · obtain rfl := List.mem_singleton.mp hk
        simpa [Event.ignoredBy] using hs.symm
    obtain ⟨htouch, hto⟩ := touches_commit hok hnew
    rw [if_pos hfrom]
    exact ⟨⟨at_, htouch⟩, hto⟩
  · rw [if_neg]
    intro hfrom
    rcases Db.commitStepTransition_error (Tx.done_eq_error hexec) with hno | hst | ⟨x, hx, -⟩
    · exact hno hmem
    · exact hst hfrom
    · cases hx
  · exact commitStepTransition_error_eq (Tx.done_eq_error hexec)

end touches

/-- A commit that decides a Pending step, and leaves any other as it is. -/
structure Decides (run : RunId) (step : StepId) (P : StepStatus → Prop) (db db' : Db) : Prop where
  steady : Steady run db db'
  others : ∀ s, s ≠ step → Spares run s db db'
  pending : (db.steps run step).status = .pending → P (db'.steps run step).status
  decided : (db.steps run step).status ≠ .pending →
    (db'.steps run step).status = (db.steps run step).status
  dull : Dull run step db → Dull run step db'
  gained : (db.steps run step).status = .pending → (db'.steps run step).status ≠ .pending →
    Gained run step .pending (db'.steps run step).status db.events db'.events

section loops

variable {run : RunId} {step : StepId} {db : Db} {P : StepStatus → Prop}

theorem Decides.of_spares {db' : Db} (hs : Steady run db db') (h : ∀ s, Spares run s db db')
    (hP : (db.steps run step).status = .pending → P .pending) : Decides run step P db db' :=
  ⟨hs, fun s _ => h s, fun hp => by rw [(h step).status, hp]; exact hP hp,
    fun _ => (h step).status, (h step).dull,
    fun hp hne => absurd ((h step).status.trans hp) hne⟩

/-- A Pending step that is moved on. -/
theorem alone_transition_decides {to_ : StepStatus} {pre : List EventPayload}
    (hmem : step ∈ db.stepIds run)
    (hpre : ∀ s, s ≠ step → ∀ k ∈ pre, ∀ at_, Event.ignoredBy s ⟨run, k, at_⟩ = true)
    (hto : P to_) (hskip : to_ ≠ .skipped ∨ pre = []) :
    AloneOk (transitionStepWith run step .pending to_ pre) db fun _ db' =>
      Decides run step P db db' := by
  refine aloneOk_mono (alone_transitionStepWith hmem hpre) fun _ db' h => ?_
  split_ifs at h with hp
  · obtain ⟨⟨at_, htouch⟩, hst⟩ := h
    refine ⟨htouch.steady, htouch.others, fun _ => hst ▸ hto, fun hn => absurd hp hn, fun hd => ?_,
      fun _ _ => hst ▸ gained_of_appended htouch.events⟩
    rcases hskip with hne | rfl
    · have hevents : db'.events = db.events ++ (eventsAt run at_ pre ++
          [⟨run, .stepTransitioned step .pending to_, at_⟩]) := by
        rw [htouch.events, eventsAt, List.map_append]
        rfl
      exact unneededSkip_move (eventsAt run at_ pre) .pending at_ hevents hne
    · by_cases hne : to_ = .skipped
      · subst hne
        exact dull_bareSkip htouch.events hd
      · exact unneededSkip_move [] .pending at_ htouch.events hne
  · subst h
    exact ⟨.refl run _, fun s _ => .refl run s _, fun hp' => absurd hp' hp, fun _ => rfl, id,
      fun hp' => absurd hp' hp⟩

/-- A loop over steps whose body decides its own step. -/
theorem alone_forEach_decides (run : RunId) (P : StepId → StepStatus → Prop)
    {xs : List StepRun} {body : StepRun → Eff Unit}
    (hbody : ∀ x ∈ xs, ∀ d, Steady run db d →
      AloneOk (body x) d fun _ d' => Decides run x.step (P x.step) d d') :
    AloneOk (Prog.forEach xs body) db fun _ db' => Steady run db db' ∧ ∀ s,
      (s ∉ xs.map (·.step) → Spares run s db db') ∧ (Dull run s db → Dull run s db') ∧
      (s ∈ xs.map (·.step) → (db.steps run s).status = .pending →
        P s (db'.steps run s).status ∧ ((db'.steps run s).status ≠ .pending →
          Gained run s .pending (db'.steps run s).status db.events db'.events)) := by
  refine Prog.solo_mono (Prog.solo_forEach (I := fun (done : List StepRun) (db' : Db) =>
    db.events <+: db'.events ∧ Steady run db db' ∧ ∀ s,
      (s ∉ done.map (·.step) → Spares run s db db') ∧ (Dull run s db → Dull run s db') ∧
      (s ∈ done.map (·.step) → (db.steps run s).status = .pending →
        P s (db'.steps run s).status ∧ ((db'.steps run s).status ≠ .pending →
          Gained run s .pending (db'.steps run s).status db.events db'.events))) ?_ ?_)
    fun r db' hr => ?_
  · exact ⟨List.prefix_rfl, .refl run db, fun s => ⟨fun _ => .refl run s db, id, by simp⟩⟩
  · intro done x rest hxs d hd
    obtain ⟨hbefore, hsteady, hall⟩ := hd
    refine Prog.solo_mono (aloneOk_grows (hbody x (by simp [hxs]) d hsteady)) fun r d' hr => ?_
    obtain ⟨a, rfl, hx, hgrow⟩ := hr
    refine ⟨a, rfl, hbefore.trans hgrow, hsteady.trans hx.steady, fun s => ?_⟩
    obtain ⟨hspare, hdull, hdone⟩ := hall s
    by_cases hs : s = x.step
    · subst hs
      refine ⟨fun hno => absurd (by simp) hno, fun h => hx.dull (hdull h), fun _ hp => ?_⟩
      by_cases hstill : (d.steps run x.step).status = .pending
      · exact ⟨hx.pending hstill, fun hne => (hx.gained hstill hne).since hbefore⟩
      · have hmem : x.step ∈ done.map (·.step) := by
          by_contra hno
          exact hstill ((hspare hno).status.trans hp)
        obtain ⟨hP, hgained⟩ := hdone hmem hp
        rw [hx.decided hstill]
        exact ⟨hP, fun hne => (hgained hne).upto hgrow⟩
    · have hother := hx.others s hs
      refine ⟨fun hno => (hspare ?_).trans hother, fun h => hother.dull (hdull h), fun hin hp => ?_⟩
      · intro hin
        exact hno (by rw [List.map_append]; exact List.mem_append_left _ hin)
      · have hin : s ∈ done.map (·.step) := by
          rw [List.map_append, List.mem_append] at hin
          refine hin.resolve_right fun hlast => ?_
          simp at hlast
          exact hs hlast
        obtain ⟨hP, hgained⟩ := hdone hin hp
        rw [hother.status]
        exact ⟨hP, fun hne => (hgained hne).upto hgrow⟩
  · obtain ⟨a, rfl, -, hall⟩ := hr
    exact ⟨a, rfl, hall⟩

end loops

section gates

variable {run : RunId} {step : StepId} {db : Db}

theorem statusOf_stepsOfRun (id : StepId) : statusOf (db.stepsOfRun run) id =
    if id ∈ db.stepIds run then some (db.steps run id).status else none := by
  split_ifs with h
  · rw [statusOf, find?_stepsOfRun h]
    rfl
  · rw [statusOf, find?_stepsOfRun_eq_none h]
    rfl

theorem depsSatisfied_iff {s : StepRun} : depsSatisfied (db.stepsOfRun run) s = true ↔
    ∀ n ∈ s.needs, n ∈ db.stepIds run ∧ (db.steps run n).status = .succeeded := by
  simp only [depsSatisfied, List.all_eq_true, decide_eq_true_eq, statusOf_stepsOfRun]
  refine forall_congr' fun n => imp_congr_right fun _ => ?_
  split_ifs with h <;> simp [h]

theorem depDead_iff {s : StepRun} : depDead (db.stepsOfRun run) s = true ↔
    ∃ n ∈ s.needs, n ∈ db.stepIds run ∧ (db.steps run n).status.isTerminal = true ∧
      (db.steps run n).status ≠ .succeeded := by
  simp only [depDead, List.any_eq_true, decide_eq_true_eq, statusOf_stepsOfRun]
  refine exists_congr fun n => and_congr_right fun _ => ?_
  split_ifs with h <;> simp [h, StepStatus.isTerminal]

/-- Closing a wait changes no status. -/
theorem closeRunningAttempt_spares (run : RunId) (db : Db) (step : StepId) (attempt : AttemptId)
    (outcome : AttemptOutcome) {event : Option Event} (hev : ∀ e ∈ event.toList, ∀ s, e.ignoredBy s = true) :
    Steady run db (db.closeRunningAttempt run step attempt outcome event).2 ∧
      ∀ s, Spares run s db (db.closeRunningAttempt run step attempt outcome event).2 := by
  rcases db.closeRunningAttempt_cases run step attempt outcome event with ⟨h, -⟩ | ⟨-, -, h⟩
  · rw [h]
    exact ⟨.refl run db, fun s => .refl run s db⟩
  · rw [h]
    have htouch := touches_setStep (r := { db.steps run step with
      attempts := (db.steps run step).attempts.update attempt fun a =>
        { a with outcome := outcome } }) rfl rfl rfl fun s _ e he => hev e he s
    refine ⟨htouch.steady, fun s => ?_⟩
    by_cases hs : s = step
    · subst hs
      exact ⟨by simp [Db.journal], by simp [Db.journal],
        unneededSkip_append rfl fun e he _ => hev e he s⟩
    · exact htouch.others s hs

/-- No gate that waits has all its needs. -/
def NoneReached (db : Db) (run : RunId) : Prop := ∀ step, ¬db.Waiting run step

/-- With no gate reached, the pass over the waiting gates moves no step. -/
theorem alone_evaluateWaitingGates (leader : LeaderTerm) (hno : NoneReached db run) :
    AloneOk (evaluateWaitingGates leader run) db fun _ db' =>
      Steady run db db' ∧ ∀ s, Spares run s db db' := by
  refine alone_read ?_
  refine Prog.solo_seq (Q := fun (_ : GatePass) db' => Steady run db db' ∧
    ∀ s, Spares run s db db') ?_ fun _ db' h => aloneOk_pure h
  refine Prog.solo_foldEach (I := fun _ (_ : GatePass) (db' : Db) => Steady run db db' ∧
    ∀ s, Spares run s db db') ⟨.refl run db, fun s => .refl run s db⟩ ?_
  intro done x rest hxs p d hd
  obtain ⟨hsteady, hspares⟩ := hd
  have hmem : x ∈ ((Query.stepsOfRun run).eval db).filter
      (fun s => decide (s.isGate = true ∧ s.status = .pending)) := by
    rw [hxs]
    simp
  obtain ⟨hmem, hgate⟩ := List.mem_filter.mp hmem
  obtain ⟨hgate, hpending⟩ := of_decide_eq_true hgate
  obtain ⟨hknown, hx⟩ := of_mem_stepsOfRun hmem
  have hnot : depsSatisfied ((Query.stepsOfRun run).eval db) x = false := by
    rw [Bool.eq_false_iff]
    intro hsat
    rw [hx] at hgate hpending
    refine hno x.step ⟨hknown, hgate, hpending, ?_⟩
    have hall := depsSatisfied_iff.mp hsat
    rw [hx] at hall
    exact hall
  simp only [evaluateGate, hnot, Bool.false_eq_true, if_false]
  split
  · exact aloneOk_pure ⟨hsteady, hspares⟩
  · next a _ =>
    refine Prog.solo_seq (Q := fun (_ : Bool) db' => Steady run db db' ∧ ∀ s, Spares run s db db')
      ?_ fun _ db' h => aloneOk_pure h
    refine alone_ask fun at_ => ?_
    intro w hw
    simp only [respond, hw, Tx.exec]
    have hignored : ∀ e ∈ (some (⟨run, .attemptSuperseded x.step a.id none, at_⟩ : Event)).toList,
        ∀ s, e.ignoredBy s = true := by simp [Event.ignoredBy]
    have hclose := closeRunningAttempt_spares run d x.step a.id .superseded hignored
    exact ⟨_, rfl, hsteady.trans hclose.1, fun s => (hspares s).trans (hclose.2 s)⟩

/-- The steps that need this one are all done, and there are some. -/
def Db.DependentsDone (db : Db) (run : RunId) (step : StepId) : Prop :=
  ∀ s ∈ db.stepsOfRun run, step ∈ s.needs → s.status.isTerminal = true

def Db.HasDependent (db : Db) (run : RunId) (step : StepId) : Prop :=
  ∃ s ∈ db.stepsOfRun run, step ∈ s.needs

/-- The pass skips this gate as unneeded. -/
structure Db.Unneeded (db : Db) (run : RunId) (step : StepId) : Prop where
  known : step ∈ db.stepIds run
  gate : (db.steps run step).gateKind.isSome = true
  pending : (db.steps run step).status = .pending
  dependent : db.HasDependent run step
  done : db.DependentsDone run step

/-- The pass brings this gate back. -/
structure Db.Revived (db : Db) (run : RunId) (step : StepId) : Prop where
  known : step ∈ db.stepIds run
  gate : (db.steps run step).gateKind.isSome = true
  skipped : (db.steps run step).status = .skipped
  live : ¬db.DependentsDone run step
  unneeded : db.unneededSkip run step false = true

/-- What the pass makes of the gates it skips or brings back. -/
structure GateSettled (db db' : Db) (run : RunId) (step : StepId) : Prop where
  skipped : db.Unneeded run step → (db'.steps run step).status = .skipped
  revived : db.Revived run step → (db'.steps run step).status = .pending ∧ Dull run step db' ∧
    Gained run step .skipped .pending db.events db'.events

/-- The loop over the gates has come to this one, and it is one to skip or bring back. -/
def Came (db : Db) (run : RunId) (done : List StepRun) (step : StepId) : Prop :=
  step ∈ done.map (·.step) ∧ (db.Unneeded run step ∨ db.Revived run step)

/-- What the loop over the gates keeps. -/
structure GateLoop (db : Db) (run : RunId) (done : List StepRun) (p : GatePass) (d : Db) :
    Prop where
  grows : db.events <+: d.events
  steady : Steady run db d
  settled : ∀ step, Came db run done step → GateSettled db d run step
  spared : ∀ step, ¬Came db run done step → Spares run step db d
  events : ∀ events, p.events = some events → ∀ step, ¬Came db run done step →
    skippedAsUnneeded events step = db.unneededSkip run step false

theorem alone_readEvents {p : GatePass} {f : List Event × GatePass → Eff GatePass}
    {Q : GatePass → Db → Prop}
    (h : ∀ events p', p'.events = some events →
      (p.events = some events ∨ p.events = none ∧ events = db.eventsOf run) →
      AloneOk (f (events, p')) db Q) :
    AloneOk ((p.readEvents run).bind f) db Q := by
  unfold GatePass.readEvents
  cases hp : p.events with
  | some events => exact h events p hp (.inl hp)
  | none =>
    intro w hw
    simp only [respond, hw]
    exact h _ { p with events := some (db.eventsOf run) } rfl (.inr ⟨hp, rfl⟩)

theorem GateLoop.came_append {done : List StepRun} {p : GatePass} {d : Db} {x : StepRun}
    (h : GateLoop db run done p d) (hx : ¬db.Unneeded run x.step ∧ ¬db.Revived run x.step) :
    GateLoop db run (done ++ [x]) p d := by
  have hsame : ∀ s, Came db run (done ++ [x]) s ↔ Came db run done s := by
    intro s
    simp only [Came, List.map_append, List.mem_append, List.map_cons, List.map_nil,
      List.mem_singleton]
    constructor
    · rintro ⟨hin | rfl, hdo⟩
      · exact ⟨hin, hdo⟩
      · exact absurd hdo (not_or.mpr hx)
    · exact fun hc => ⟨.inl hc.1, hc.2⟩
  exact ⟨h.grows, h.steady, fun s hs => h.settled s ((hsame s).mp hs),
    fun s hs => h.spared s fun hc => hs ((hsame s).mpr hc),
    fun ev hev s hs => h.events ev hev s fun hc => hs ((hsame s).mpr hc)⟩

/-- The loop goes on after a commit that settles its gate. -/
theorem GateLoop.moved {done : List StepRun} {p : GatePass} {d d' : Db} {x : StepRun}
    (h : GateLoop db run done p d) (hx : db.Unneeded run x.step ∨ db.Revived run x.step)
    (hgrows : d.events <+: d'.events) (hsteady : Steady run d d')
    (hothers : ∀ s, s ≠ x.step → Spares run s d d')
    (hown : GateSettled db d' run x.step) : GateLoop db run (done ++ [x]) p d' := by
  have hcame : ∀ s, Came db run (done ++ [x]) s ↔ Came db run done s ∨ s = x.step := by
    intro s
    simp only [Came, List.map_append, List.mem_append, List.map_cons, List.map_nil,
      List.mem_singleton]
    constructor
    · rintro ⟨hin | rfl, hdo⟩
      · exact .inl ⟨hin, hdo⟩
      · exact .inr rfl
    · rintro (hc | rfl)
      · exact ⟨.inl hc.1, hc.2⟩
      · exact ⟨.inr rfl, hx⟩
  refine ⟨h.grows.trans hgrows, h.steady.trans hsteady, fun s hs => ?_, fun s hs => ?_,
    fun ev hev s hs => ?_⟩
  · by_cases heq : s = x.step
    · exact heq ▸ hown
    · have hold := h.settled s (((hcame s).mp hs).resolve_right heq)
      have hspare := hothers s heq
      refine ⟨fun hu => hspare.status.trans (hold.skipped hu), fun hr => ?_⟩
      obtain ⟨hpend, hdull, hgained⟩ := hold.revived hr
      exact ⟨hspare.status.trans hpend, hspare.dull hdull, hgained.upto hgrows⟩
  · rw [hcame, not_or] at hs
    exact (h.spared s hs.1).trans (hothers s hs.2)
  · rw [hcame, not_or] at hs
    exact h.events ev hev s hs.1

/-- A gate the loop has settled before is left as it is. -/
theorem GateLoop.again {done : List StepRun} {p : GatePass} {d : Db} {x : StepRun}
    (h : GateLoop db run done p d) (hx : Came db run done x.step) :
    GateLoop db run (done ++ [x]) p d := by
  refine h.moved hx.2 List.prefix_rfl (.refl run d) (fun s _ => .refl run s d) (h.settled _ hx)

theorem filter_needs_eq_nil : (db.stepsOfRun run).filter (fun s => decide (step ∈ s.needs)) = [] ↔
    ¬db.HasDependent run step := by
  simp [Db.HasDependent, List.filter_eq_nil_iff]

theorem all_filter_needs : (((db.stepsOfRun run).filter (fun s => decide (step ∈ s.needs))).all
    fun s => s.status.isTerminal) = true ↔ db.DependentsDone run step := by
  simp only [Db.DependentsDone, List.all_eq_true, List.mem_filter, decide_eq_true_eq, and_imp]

/-- One gate of the loop. -/
theorem alone_settleUnneededGate {done : List StepRun} {p : GatePass} {d : Db} {x : StepRun}
    (hx : x ∈ db.stepsOfRun run) (hgate : x.isGate = true) (h : GateLoop db run done p d) :
    AloneOk (settleUnneededGate run (db.stepsOfRun run) p x) d fun p' d' =>
      GateLoop db run (done ++ [x]) p' d' := by
  obtain ⟨hknown, hrow⟩ := of_mem_stepsOfRun hx
  have hkind : (db.steps run x.step).gateKind.isSome = true := by
    rw [hrow] at hgate
    exact hgate
  have hstatus : x.status = (db.steps run x.step).status := by rw [hrow]; rfl
  simp only [settleUnneededGate]
  split_ifs with hnone hskip hback
  · -- a leaf gate
    rw [filter_needs_eq_nil] at hnone
    refine aloneOk_pure (h.came_append ⟨fun hu => hnone hu.dependent, fun hr => hnone ?_⟩)
    by_contra hno
    exact hr.live fun s hs hneed => absurd ⟨s, hs, hneed⟩ hno
  · -- no dependent waits on it any more
    rw [filter_needs_eq_nil, not_not] at hnone
    have hun : db.Unneeded run x.step :=
      ⟨hknown, hkind, hstatus ▸ hskip.1, hnone, all_filter_needs.mp hskip.2⟩
    refine alone_ask fun at_ => ?_
    refine Prog.solo_seq (Q := fun _ d' => GateLoop db run (done ++ [x]) p d') ?_
      fun _ d' hd => aloneOk_pure hd
    refine alone_commitOrLose (fun w a d' hexec => ?_) (fun w hexec => ?_) fun w e hexec => ?_
    · have hok := Tx.done_eq_ok hexec
      obtain ⟨htouch, hto⟩ := touches_commit hok fun s hs e he => by
        have hs : s ≠ x.step := hs
        simp only [unneededCommit, eventsAt, List.map_cons, List.map_nil, List.mem_cons,
          List.not_mem_nil, or_false] at he
        rcases he with rfl | rfl <;> simpa [Event.ignoredBy] using hs.symm
      exact h.moved (.inl hun) (htouch.events ▸ List.prefix_append _ _) htouch.steady htouch.others
        ⟨fun _ => hto, fun hr => absurd (hun.pending.symm.trans hr.skipped) (by simp)⟩
    · by_cases hcame : Came db run done x.step
      · exact h.again hcame
      · have hspare := h.spared x.step hcame
        rcases Db.commitStepTransition_error (Tx.done_eq_error hexec) with hno | hst | ⟨a, ha, hne⟩
        · exact absurd (by rw [h.steady.stepIds]; exact hknown) hno
        · exact absurd (hspare.status.trans hun.pending) hst
        · have ha : x.attempts.getLast?.map (·.id) = a := AttemptFrontier.is.inj ha
          refine absurd ?_ hne
          rw [← ha]
          refine hspare.frontier.trans ?_
          rw [hrow]
          rfl
    · exact commitStepTransition_error_eq (Tx.done_eq_error hexec)
  · -- a dependent is back
    refine alone_readEvents fun events p' hp' hfrom => ?_
    have hevents : ∀ s, ¬Came db run done s →
        skippedAsUnneeded events s = db.unneededSkip run s false := by
      intro s hs
      rcases hfrom with hcached | ⟨-, rfl⟩
      · exact h.events events hcached s hs
      · exact (h.spared s hs).skip false
    have h' : GateLoop db run done p' d := ⟨h.grows, h.steady, h.settled, h.spared, fun ev hev s hs => by
      rw [hp'] at hev
      exact Option.some.inj hev ▸ hevents s hs⟩
    have hnotdone : ¬db.DependentsDone run x.step := by
      have hback := hback.2
      rw [Bool.not_eq_true', ← Bool.not_eq_true] at hback
      exact fun hdone => hback (all_filter_needs.mpr hdone)
    have hskipped : (db.steps run x.step).status = .skipped := hstatus ▸ hback.1
    dsimp only
    split_ifs with hmark
    · refine Prog.solo_seq (Q := fun _ d' => GateLoop db run (done ++ [x]) p' d') ?_
        fun _ d' hd => aloneOk_pure hd
      have hmem : x.step ∈ d.stepIds run := by rw [h.steady.stepIds]; exact hknown
      refine aloneOk_mono (alone_transitionStepWith hmem (by simp)) fun _ d' hd => ?_
      by_cases hcame : Came db run done x.step
      · have hrev : db.Revived run x.step := hcame.2.resolve_left fun hu =>
          absurd (hu.pending.symm.trans hskipped) (by simp)
        have hpend := ((h'.settled _ hcame).revived hrev).1
        rw [if_neg (by rw [hpend]; simp)] at hd
        exact hd ▸ h'.again hcame
      · have hrev : db.Revived run x.step :=
          ⟨hknown, hkind, hskipped, hnotdone, (hevents _ hcame).symm.trans hmark⟩
        rw [if_pos ((h.spared _ hcame).status.trans hskipped)] at hd
        obtain ⟨⟨at_, htouch⟩, hto⟩ := hd
        have hback := (@gained_of_appended run x.step _ _ d.events d'.events at_ []
          htouch.events).since h.grows
        exact h'.moved (.inr hrev) (htouch.events ▸ List.prefix_append _ _) htouch.steady
          htouch.others ⟨fun hu => absurd (hu.pending.symm.trans hskipped) (by simp),
            fun _ => ⟨hto, unneededSkip_move [] .skipped at_ htouch.events (by simp), hback⟩⟩
    · refine aloneOk_pure ?_
      by_cases hcame : Came db run done x.step
      · exact h'.again hcame
      · refine h'.came_append ⟨fun hu => absurd (hu.pending.symm.trans hskipped) (by simp),
          fun hr => hmark ?_⟩
        rw [hevents _ hcame]
        exact hr.unneeded
  · refine aloneOk_pure (h.came_append ⟨fun hu => hskip ⟨hstatus ▸ hu.pending, ?_⟩,
      fun hr => hback ⟨hstatus ▸ hr.skipped, ?_⟩⟩)
    · exact all_filter_needs.mpr hu.done
    · rw [Bool.not_eq_true', ← Bool.not_eq_true]
      exact fun hall => hr.live (all_filter_needs.mp hall)

/-- The pass over all gates. -/
theorem alone_settleUnneededGates : AloneOk (settleUnneededGates run) db fun _ d =>
    Steady run db d ∧ ∀ s, GateSettled db d run s ∧
      (¬db.Unneeded run s → ¬db.Revived run s → Spares run s db d) := by
  refine alone_read ?_
  refine Prog.solo_seq (Q := fun (_ : GatePass) d => Steady run db d ∧ ∀ s,
    GateSettled db d run s ∧ (¬db.Unneeded run s → ¬db.Revived run s → Spares run s db d)) ?_
    fun _ d hd => aloneOk_pure hd
  have hstart : GateLoop db run [] ⟨none, none⟩ db :=
    ⟨List.prefix_rfl, .refl run db, fun s hs => absurd hs.1 (by simp),
      fun s _ => .refl run s db, by simp⟩
  refine aloneOk_mono (Prog.solo_foldEach (I := GateLoop db run) hstart
    fun done x rest hxs p d hd => ?_) fun p d hd => ?_
  · have hmem : x ∈ ((Query.stepsOfRun run).eval db).filter (·.isGate) := by
      rw [hxs]
      simp
    obtain ⟨hmem, hgate⟩ := List.mem_filter.mp hmem
    exact alone_settleUnneededGate hmem hgate hd
  · have hcame : ∀ s, db.Unneeded run s ∨ db.Revived run s →
        Came db run (((Query.stepsOfRun run).eval db).filter (·.isGate)) s := by
      intro s hs
      refine ⟨List.mem_map.mpr ⟨db.stepRun run s, List.mem_filter.mpr ⟨?_, ?_⟩, rfl⟩, hs⟩
      · exact mem_stepsOfRun (hs.elim Db.Unneeded.known Db.Revived.known)
      · exact hs.elim Db.Unneeded.gate Db.Revived.gate
    refine ⟨hd.steady, fun s => ⟨⟨fun hu => ?_, fun hr => ?_⟩, fun hu hr => ?_⟩⟩
    · exact (hd.settled s (hcame s (.inl hu))).skipped hu
    · exact (hd.settled s (hcame s (.inr hr))).revived hr
    · exact hd.spared s fun hc => hc.2.elim hu hr

end gates

section budget

variable {run : RunId} {db : Db}

theorem alone_cancelOpenGateAttempt (s : StepRun) :
    AloneOk (cancelOpenGateAttempt run s) db fun _ d => Steady run db d := by
  unfold cancelOpenGateAttempt
  split_ifs
  · refine alone_read ?_
    split
    · exact aloneOk_pure (.refl run db)
    · next a _ =>
      refine alone_commit (fun w b d hexec => ?_) fun w e hexec => by cases hexec
      obtain ⟨-, rfl⟩ := Prod.mk.inj (Except.ok.inj hexec)
      exact aloneOk_pure (closeRunningAttempt_spares run db s.step a.id .cancelled (by simp)).1
  · exact aloneOk_pure (.refl run db)

theorem alone_cancelStep (at_ : Timestamp) (tries : ℕ) (s : StepRun) :
    AloneOk (cancelStep run at_ tries s) db fun _ d => Steady run db d := by
  induction tries generalizing s with
  | zero => exact aloneOk_pure (.refl run db)
  | succ tries ih =>
    unfold cancelStep
    split_ifs
    · exact aloneOk_pure (.refl run db)
    · intro w hw
      simp only [respond, hw]
      cases hexec : (Tx.commitStepTransition (cancelCommit run s at_)).exec w db with
      | ok x =>
        obtain ⟨u, d'⟩ := x
        have hok := Tx.done_eq_ok hexec
        obtain ⟨htouch, -⟩ := touches_commit hok fun s' hs e he => by
          obtain rfl := List.mem_singleton.mp (he : e ∈ [_])
          have hs : s' ≠ s.step := hs
          simpa [Event.ignoredBy] using hs.symm
        exact aloneOk_mono (alone_cancelOpenGateAttempt s) fun _ d hd => htouch.steady.trans hd
      | error e =>
        obtain rfl := commitStepTransition_error_eq (Tx.done_eq_error hexec)
        refine alone_read ?_
        split
        · exact ih _
        · exact aloneOk_pure (.refl run db)

theorem alone_askUnitToStop (s : StepRun) :
    AloneOk (askUnitToStop run s) db fun _ d => d = db := by
  unfold askUnitToStop
  split
  · exact aloneOk_pure rfl
  · refine alone_read ?_
    split
    · exact aloneOk_pure rfl
    · exact alone_ask fun _ => aloneOk_pure rfl

theorem alone_cancelLiveSteps (at_ : Timestamp) :
    AloneOk (cancelLiveSteps run at_) db fun _ d => Steady run db d := by
  refine alone_read ?_
  refine Prog.solo_forEach (I := fun _ d => Steady run db d) (.refl run db) ?_
  intro done x rest _ d hd
  refine Prog.solo_seq (alone_askUnitToStop x) fun _ d' hd' => ?_
  subst hd'
  exact aloneOk_mono (alone_cancelStep at_ 8 x) fun _ d'' h => hd.trans h

/-- A guarded move of the run that nothing else races with lands. -/
theorem alone_commitRunTransitionAfter {leader : Option LeaderTerm} {from_ to_ : RunStatus}
    {at_ : Timestamp} {notify : Bool} {intents : List OutboxMessage} {preceding : List EventPayload}
    (hlead : ∀ l, leader = some l → db.lease = some l) (hmem : run ∈ db.runIds)
    (hrun : db.runs run = from_) :
    AloneOk (commitRunTransitionAfter leader run from_ to_ at_ notify intents preceding) db
      fun _ d => ∃ t : RunTransition, db.commitRunTransition t = .ok d ∧ t.run = run ∧
        t.to_ = to_ ∧ t.events = eventsAt run at_ (preceding ++ [.runTransitioned from_ to_]) := by
  refine alone_read ?_
  have hno : ∀ w e, (Tx.commitRunTransition (runTransition leader run from_ to_ at_ notify intents
      preceding (db.generations run))).exec w db ≠ .error e := by
    intro w e hexec
    have herr := Tx.done_eq_error hexec
    have hheld : db.holdsLeaderTermIf leader = true := by
      cases leader with
      | none => rfl
      | some l => simpa [Db.holdsLeaderTermIf] using hlead l rfl
    simp [Db.commitRunTransition, runTransition, hheld, hmem, hrun] at herr
  refine alone_commitOrLose (fun w a d hexec => ?_) (fun w hexec => absurd hexec (hno w _))
    fun w e hexec => absurd hexec (hno w e)
  exact ⟨_, Tx.done_eq_ok hexec, rfl, rfl, rfl⟩

theorem runs_commitRunTransition {t : RunTransition} {d : Db}
    (hok : db.commitRunTransition t = .ok d) : d.runs t.run = t.to_ := by
  obtain ⟨-, -, -, rfl⟩ := Db.commitRunTransition_ok hok
  simp [Db.journal]

theorem alone_freeSlot : AloneOk (freeSlot run) db fun _ d => d.runs = db.runs := by
  refine alone_read ?_
  split
  · exact aloneOk_pure rfl
  · next group policy _ =>
    intro w hw
    have hexec : (Tx.releaseSlot group run).exec w db = .ok ((), db.releaseSlot group run) := rfl
    simp only [respond, hw, hexec]
    refine ⟨(), rfl, ?_⟩
    simp only [Db.releaseSlot]
    split <;> rfl

/-- A run over its budget fails; any other is left as it is. -/
theorem alone_enforceRunBudget {leader : LeaderTerm} (hlead : db.lease = some leader)
    (hmem : run ∈ db.runIds) (hrun : db.runs run = .running) :
    AloneOk (enforceRunBudget leader run) db fun spent d =>
      if spent then d.runs run = .failed else d = db := by
  refine alone_read ?_
  simp only [Query.eval, Db.runStatus, hmem, if_true, hrun]
  refine alone_read ?_
  split
  · exact aloneOk_pure rfl
  · next budget _ =>
    refine alone_read (alone_ask fun at_ => ?_)
    split
    · exact aloneOk_pure rfl
    · refine Prog.solo_seq (alone_cancelLiveSteps at_) fun _ d hd => ?_
      refine Prog.solo_seq (alone_commitRunTransitionAfter (fun l hl => ?_) ?_ ?_)
        fun _ d' hd' => ?_
      · rw [hd.lease, hlead, hl]
      · rw [hd.runIds]
        exact hmem
      · rw [hd.runs]
        exact hrun
      · obtain ⟨t, hok, ht, hto, -⟩ := hd'
        refine Prog.solo_seq alone_freeSlot fun _ d'' hd'' => aloneOk_pure ?_
        have hruns := runs_commitRunTransition hok
        rw [ht, hto] at hruns
        simpa [hd''] using hruns

end budget
end Scarab.Engine
