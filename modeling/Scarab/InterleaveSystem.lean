import Scarab.InterleaveProgram

/-!
# Interleaved runs of calls on one shared state

Any number of calls run at once; each step answers one command of one of them. The log
keeps every step with the states around it, so a claim about the past is a claim about
the log.
-/
namespace Scarab.Interleave

/-- A shared state, the commands on it, and the calls whose programs issue them. The
environment's free choices (times, backend replies, lapsed leases) come in as an `Answer`. -/
structure Machine where
  State : Type
  Cmd : Type
  Resp : Cmd → Type
  Err : Type
  Answer : Type
  Call : Type
  Value : Type
  respond : (c : Cmd) → Answer → State → Resp c × State
  body : Call → Prog Cmd Resp Err Value

variable {M : Machine}

/-- What one step of a run did. -/
inductive Occurrence (M : Machine) where
  | started (l : M.Call)
  | did (c : M.Cmd) (r : M.Resp c)
  | returned (x : Except M.Err M.Value)
  | crashed

/-- One step of a run, with the states before and after it. -/
structure Entry (M : Machine) where
  pid : ℕ
  before : M.State
  after : M.State
  what : Occurrence M

/-- The calls in progress, each with what is left of its program, and the newest-first log. -/
structure Config (M : Machine) where
  state : M.State
  log : List (Entry M)
  procs : ℕ → Option (M.Call × Prog M.Cmd M.Resp M.Err M.Value)
  next : ℕ

def Config.init (s : M.State) : Config M := ⟨s, [], fun _ => none, 0⟩

def Config.record (g : Config M) (pid : ℕ) (s : M.State) (w : Occurrence M)
    (p : Option (M.Call × Prog M.Cmd M.Resp M.Err M.Value)) : Config M :=
  { g with state := s, log := ⟨pid, g.state, s, w⟩ :: g.log
           procs := Function.update g.procs pid p }

inductive Step : Config M → Entry M → Config M → Prop
  | start (g : Config M) (l : M.Call) :
      Step g ⟨g.next, g.state, g.state, .started l⟩
        { g.record g.next g.state (.started l) (some (l, M.body l)) with next := g.next + 1 }
  | act {g : Config M} {pid : ℕ} {l : M.Call} {c : M.Cmd}
      {k : M.Resp c → Prog M.Cmd M.Resp M.Err M.Value} {a : M.Answer} {r : M.Resp c}
      {s : M.State} (proc : g.procs pid = some (l, .call c k))
      (resp : M.respond c a g.state = (r, s)) :
      Step g ⟨pid, g.state, s, .did c r⟩ (g.record pid s (.did c r) (some (l, k r)))
  | finish {g : Config M} {pid : ℕ} {l : M.Call} {v : M.Value}
      (proc : g.procs pid = some (l, .ok v)) :
      Step g ⟨pid, g.state, g.state, .returned (.ok v)⟩
        (g.record pid g.state (.returned (.ok v)) none)
  | fail {g : Config M} {pid : ℕ} {l : M.Call} {x : M.Err}
      (proc : g.procs pid = some (l, .err x)) :
      Step g ⟨pid, g.state, g.state, .returned (.error x)⟩
        (g.record pid g.state (.returned (.error x)) none)
  | crash {g : Config M} {pid : ℕ} {l : M.Call} {p : Prog M.Cmd M.Resp M.Err M.Value}
      (proc : g.procs pid = some (l, p)) :
      Step g ⟨pid, g.state, g.state, .crashed⟩ (g.record pid g.state .crashed none)

/-- Runs from one configuration to another in which every step meets `cond`, read on the
configuration before the step. -/
inductive Runs (cond : Config M → Entry M → Prop) (g : Config M) : Config M → Prop
  | refl : Runs cond g g
  | tail {g₁ g₂ : Config M} {e : Entry M} (init : Runs cond g g₁) (step : Step g₁ e g₂)
      (meets : cond g₁ e) : Runs cond g g₂

/-- Reached from the state `s` with no call in progress, by steps that all meet `cond`. -/
def Reach (cond : Config M → Entry M → Prop) (s : M.State) (g : Config M) : Prop :=
  Runs cond (Config.init s) g

/-- No call is in progress. -/
def Config.Idle (g : Config M) : Prop := ∀ pid, g.procs pid = none

/-- The exchanges of one call in a log, newest first. -/
def ownOf (log : List (Entry M)) (pid : ℕ) : List (Exchange M.Cmd M.Resp) :=
  log.filterMap fun e =>
    if e.pid = pid then
      match e.what with
      | .did c r => some ⟨c, r⟩
      | _ => none
    else none

/-- The call a process id stands for in a log. -/
def StartedAs (log : List (Entry M)) (pid : ℕ) (l : M.Call) : Prop :=
  ∃ e ∈ log, e.pid = pid ∧ e.what = .started l

section structural

variable {cond : Config M → Entry M → Prop} {g g₁ g₂ : Config M} {e : Entry M} {s : M.State}

theorem Step.log_eq (h : Step g e g₁) : g₁.log = e :: g.log := by
  cases h <;> rfl

theorem Step.before_eq (h : Step g e g₁) : e.before = g.state := by
  cases h <;> rfl

theorem Step.after_eq (h : Step g e g₁) : e.after = g₁.state := by
  cases h <;> rfl

theorem Step.state_cases (h : Step g e g₁) :
    g₁.state = g.state ∧ (∀ c r, e.what ≠ .did c r) ∨
      ∃ c r a, e.what = .did c r ∧ M.respond c a g.state = (r, g₁.state) := by
  cases h with
  | act proc resp => exact .inr ⟨_, _, _, rfl, resp⟩
  | start | finish | fail | crash => exact .inl ⟨rfl, by simp⟩

theorem Runs.trans (h₁ : Runs cond g g₁) (h₂ : Runs cond g₁ g₂) : Runs cond g g₂ := by
  induction h₂ with
  | refl => exact h₁
  | tail _ step meets ih => exact .tail ih step meets

theorem Reach.extend (h₁ : Reach cond s g) (h₂ : Runs cond g g₁) : Reach cond s g₁ :=
  Runs.trans h₁ h₂

theorem Reach.next (h₁ : Reach cond s g) (h₂ : Step g e g₁) (h₃ : cond g e) : Reach cond s g₁ :=
  Runs.tail h₁ h₂ h₃

/-- What every step keeps holds to the end of a run. -/
theorem Runs.keeps {P : Config M → Prop}
    (hstep : ∀ g₁ e g₂, Runs cond g g₁ → Step g₁ e g₂ → cond g₁ e → P g₁ → P g₂)
    (h : Runs cond g g₁) (h0 : P g) : P g₁ := by
  induction h with
  | refl => exact h0
  | tail init step meets ih => exact hstep _ _ _ init step meets ih

theorem Runs.log_eq (h : Runs cond g g₁) : ∃ newer, g₁.log = newer ++ g.log := by
  induction h with
  | refl => exact ⟨[], rfl⟩
  | tail _ step _ ih =>
    obtain ⟨newer, ih⟩ := ih
    exact ⟨_ :: newer, by rw [step.log_eq, ih]; rfl⟩

/-- Every entry of a run's log is a step the run took from a configuration it reached. -/
theorem Reach.at_entry {newer older : List (Entry M)} (h : Reach cond s g)
    (hlog : g.log = newer ++ e :: older) :
    ∃ g₀ g₁, Reach cond s g₀ ∧ Step g₀ e g₁ ∧ cond g₀ e ∧ Runs cond g₁ g ∧ g₀.log = older := by
  unfold Reach at h
  induction h generalizing newer with
  | refl => simp [Config.init] at hlog
  | @tail g₁ g₂ e' init step meets ih =>
    rw [step.log_eq] at hlog
    cases newer with
    | nil =>
      obtain ⟨rfl, rfl⟩ := List.cons.inj hlog
      exact ⟨g₁, g₂, init, step, meets, .refl, rfl⟩
    | cons x newer =>
      obtain ⟨rfl, htail⟩ := List.cons.inj hlog
      obtain ⟨g₀, g₃, hr, hs, hm, hrun, ho⟩ := ih htail
      exact ⟨g₀, g₃, hr, hs, hm, hrun.tail step meets, ho⟩

end structural

section own

variable {log newer older : List (Entry M)} {pid : ℕ} {x : Exchange M.Cmd M.Resp}

theorem mem_ownOf : x ∈ ownOf log pid ↔ ∃ e ∈ log, e.pid = pid ∧ e.what = .did x.1 x.2 := by
  simp only [ownOf, List.mem_filterMap]
  refine exists_congr fun e => and_congr_right fun _ => ?_
  split_ifs with hp
  · cases hw : e.what <;> simp [hp, Sigma.ext_iff]
  · simp [hp]

@[simp] theorem ownOf_append : ownOf (newer ++ older) pid = ownOf newer pid ++ ownOf older pid :=
  List.filterMap_append

theorem ownOf_subset (h : older ⊆ log) : ownOf older pid ⊆ ownOf log pid := by
  intro x hx
  obtain ⟨e, he, hp, hw⟩ := mem_ownOf.mp hx
  exact mem_ownOf.mpr ⟨e, h he, hp, hw⟩

theorem ownOf_sublist (h : List.Sublist older log) :
    List.Sublist (ownOf older pid) (ownOf log pid) := h.filterMap _

/-- An exchange of one call sits at a place in the whole log with the same past. -/
theorem ownOf_split {h₁ h₂ : List (Exchange M.Cmd M.Resp)} (h : ownOf log pid = h₁ ++ x :: h₂) :
    ∃ newer e older, log = newer ++ e :: older ∧ e.pid = pid ∧ e.what = .did x.1 x.2 ∧
      ownOf newer pid = h₁ ∧ ownOf older pid = h₂ := by
  induction log generalizing h₁ with
  | nil => simp [ownOf] at h
  | cons e log ih =>
    by_cases he : e.pid = pid ∧ ∃ c r, e.what = .did c r
    · obtain ⟨hp, c, r, hw⟩ := he
      have hcons : ownOf (e :: log) pid = ⟨c, r⟩ :: ownOf log pid := by simp [ownOf, hp, hw]
      rw [hcons] at h
      cases h₁ with
      | nil =>
        obtain ⟨rfl, h2⟩ := List.cons.inj h
        exact ⟨[], e, log, rfl, hp, hw, rfl, h2⟩
      | cons y h₁ =>
        obtain ⟨rfl, h2⟩ := List.cons.inj h
        obtain ⟨newer, e', older, rfl, hp', hw', hn, ho⟩ := ih h2
        exact ⟨e :: newer, e', older, rfl, hp', hw', by simp [ownOf, hp, hw, ← hn], ho⟩
    · have hcons : ∀ l, ownOf (e :: l) pid = ownOf l pid := by
        intro l
        simp only [ownOf, List.filterMap_cons]
        split_ifs with hp
        · cases hw : e.what <;> simp_all
        · rfl
      rw [hcons] at h
      obtain ⟨newer, e', older, rfl, hp', hw', hn, ho⟩ := ih h
      exact ⟨e :: newer, e', older, rfl, hp', hw', by rw [hcons, hn], ho⟩

end own

section moment

variable {cond : Config M → Entry M → Prop} {g : Config M} {s : M.State} {pid : ℕ}

/-- A past exchange of a call is a step the run took, and the run went on from there. -/
theorem Reach.moment_split (h : Reach cond s g) {x : Exchange M.Cmd M.Resp}
    {h₁ h₂ : List (Exchange M.Cmd M.Resp)} (hx : ownOf g.log pid = h₁ ++ x :: h₂) :
    ∃ g₀ e g₁ newer, Reach cond s g₀ ∧ Step g₀ e g₁ ∧ cond g₀ e ∧ Runs cond g₁ g ∧
      g.log = newer ++ e :: g₀.log ∧ e.pid = pid ∧ e.what = .did x.1 x.2 ∧
      ownOf newer pid = h₁ ∧ ownOf g₀.log pid = h₂ := by
  obtain ⟨newer, e, older, hlog, hp, hw, hn, ho⟩ := ownOf_split hx
  obtain ⟨g₀, g₁, hr, hs, hc, hrun, rfl⟩ := h.at_entry hlog
  exact ⟨g₀, e, g₁, newer, hr, hs, hc, hrun, hlog, hp, hw, hn, ho⟩

theorem Reach.moment (h : Reach cond s g) {x : Exchange M.Cmd M.Resp} (hx : x ∈ ownOf g.log pid) :
    ∃ g₀ e g₁ newer, Reach cond s g₀ ∧ Step g₀ e g₁ ∧ cond g₀ e ∧ Runs cond g₁ g ∧
      g.log = newer ++ e :: g₀.log ∧ e.pid = pid ∧ e.what = .did x.1 x.2 := by
  obtain ⟨h₁, h₂, hsplit⟩ := List.append_of_mem hx
  obtain ⟨g₀, e, g₁, newer, hr, hs, hc, hrun, hlog, hp, hw, -, -⟩ := h.moment_split hsplit
  exact ⟨g₀, e, g₁, newer, hr, hs, hc, hrun, hlog, hp, hw⟩

end moment

section justified

variable {cond : Config M → Entry M → Prop} {g : Config M} {s : M.State}
variable {J : M.Call → List (Exchange M.Cmd M.Resp) → M.Cmd → Prop}
variable {Q : M.Call → List (Exchange M.Cmd M.Resp) → M.Value → Prop}

/-- What is left of each call is justified by what the call has done, and process ids at or
above the counter are unused. -/
structure Config.Justified (J : M.Call → List (Exchange M.Cmd M.Resp) → M.Cmd → Prop)
    (Q : M.Call → List (Exchange M.Cmd M.Resp) → M.Value → Prop)
    (g : Config M) : Prop where
  fresh : ∀ pid ≥ g.next, g.procs pid = none ∧ ∀ e ∈ g.log, e.pid ≠ pid
  started : ∀ pid l p, g.procs pid = some (l, p) → StartedAs g.log pid l
  rest : ∀ pid l p, g.procs pid = some (l, p) → p.wp (J l) (ownOf g.log pid) (Q l)
  once : ∀ pid l l', StartedAs g.log pid l → StartedAs g.log pid l' → l = l'

theorem StartedAs.cons {log : List (Entry M)} {pid : ℕ} {l : M.Call} (h : StartedAs log pid l)
    (e : Entry M) : StartedAs (e :: log) pid l := by
  obtain ⟨e', he, hp⟩ := h
  exact ⟨e', List.mem_cons_of_mem _ he, hp⟩

theorem StartedAs.of_cons {log : List (Entry M)} {pid : ℕ} {l : M.Call} {e : Entry M}
    (h : StartedAs (e :: log) pid l) (he : ∀ l', e.what ≠ .started l') : StartedAs log pid l := by
  obtain ⟨e', hmem, hp, hw⟩ := h
  rcases List.mem_cons.mp hmem with rfl | hmem
  · exact absurd hw (he l)
  · exact ⟨e', hmem, hp, hw⟩

theorem ownOf_cons_ne {e : Entry M} {log : List (Entry M)} {pid : ℕ} (h : e.pid ≠ pid) :
    ownOf (e :: log) pid = ownOf log pid := by
  simp [ownOf, h]

theorem ownOf_eq_nil {log : List (Entry M)} {pid : ℕ} (h : ∀ e ∈ log, e.pid ≠ pid) :
    ownOf log pid = [] := by
  rw [List.eq_nil_iff_forall_not_mem]
  intro x hx
  obtain ⟨e, he, hp, _⟩ := mem_ownOf.mp hx
  exact h e he hp

/-- A step of one call leaves what is known of the others alone. -/
theorem Config.Justified.record {pid : ℕ} {t : M.State} {w : Occurrence M}
    {q : Option (M.Call × Prog M.Cmd M.Resp M.Err M.Value)} (h : g.Justified J Q)
    (hpid : g.procs pid ≠ none) (hw : ∀ l, w ≠ .started l)
    (hq : ∀ l p, q = some (l, p) → StartedAs g.log pid l ∧
      p.wp (J l) (ownOf (⟨pid, g.state, t, w⟩ :: g.log) pid) (Q l)) :
    (g.record pid t w q).Justified J Q := by
  refine ⟨fun i hi => ?_, fun i l p hp => ?_, fun i l p hp => ?_, fun i l l' hl hl' => ?_⟩
  · obtain ⟨hn, hl⟩ := h.fresh i hi
    have hne : i ≠ pid := by rintro rfl; exact hpid hn
    refine ⟨by simp [Config.record, Function.update_of_ne hne, hn], fun e he => ?_⟩
    rcases List.mem_cons.mp he with rfl | he
    · exact hne.symm
    · exact hl e he
  · by_cases hi : i = pid
    · subst hi
      exact (hq l p (by simpa [Config.record] using hp)).1.cons _
    · exact (h.started i l p (by simpa [Config.record, Function.update_of_ne hi] using hp)).cons _
  · by_cases hi : i = pid
    · subst hi
      exact (hq l p (by simpa [Config.record] using hp)).2
    · have := h.rest i l p (by simpa [Config.record, Function.update_of_ne hi] using hp)
      rwa [Config.record, ownOf_cons_ne (Ne.symm hi)]
  · exact h.once i l l' (hl.of_cons hw) (hl'.of_cons hw)

theorem Config.Justified.step {e : Entry M} {g₁ : Config M}
    (hJ : ∀ l, (M.body l).wp (J l) [] (Q l)) (h : g.Justified J Q)
    (hs : Step g e g₁) : g₁.Justified J Q := by
  cases hs with
  | start l =>
    obtain ⟨hn, hl⟩ := h.fresh g.next le_rfl
    refine ⟨fun i hi => ?_, fun i l' p hp => ?_, fun i l' p hp => ?_, fun i l₁ l₂ h₁ h₂ => ?_⟩
    · have hi' : g.next < i := hi
      obtain ⟨hni, hli⟩ := h.fresh i hi'.le
      refine ⟨by simp [Config.record, Function.update_of_ne hi'.ne', hni], fun e he => ?_⟩
      rcases List.mem_cons.mp he with rfl | he
      · exact hi'.ne
      · exact hli e he
    · by_cases hi : i = g.next
      · subst hi
        obtain ⟨rfl, -⟩ : l = l' ∧ M.body l = p := by simpa [Config.record] using hp
        exact ⟨_, List.mem_cons_self, rfl, rfl⟩
      · exact (h.started i l' p
          (by simpa [Config.record, Function.update_of_ne hi] using hp)).cons _
    · by_cases hi : i = g.next
      · subst hi
        obtain ⟨rfl, rfl⟩ : l = l' ∧ M.body l = p := by simpa [Config.record] using hp
        have hown : ownOf (⟨g.next, g.state, g.state, .started l⟩ :: g.log) g.next = [] := by
          rw [← ownOf_eq_nil hl]
          simp [ownOf]
        simpa only [Config.record, hown] using hJ l
      · have := h.rest i l' p (by simpa [Config.record, Function.update_of_ne hi] using hp)
        rwa [Config.record, ownOf_cons_ne (Ne.symm hi)]
    · by_cases hi : i = g.next
      · subst hi
        have hfirst : ∀ l', StartedAs (⟨g.next, g.state, g.state, .started l⟩ :: g.log) g.next l' →
            l' = l := by
          rintro l' ⟨e, he, hp, hw⟩
          rcases List.mem_cons.mp he with rfl | he
          · exact (Occurrence.started.inj hw).symm
          · exact absurd hp (hl e he)
        rw [hfirst l₁ h₁, hfirst l₂ h₂]
      · have hold : ∀ l', StartedAs (⟨g.next, g.state, g.state, .started l⟩ :: g.log) i l' →
            StartedAs g.log i l' := by
          rintro l' ⟨e, he, hp, hw⟩
          rcases List.mem_cons.mp he with rfl | he
          · exact absurd hp.symm hi
          · exact ⟨e, he, hp, hw⟩
        exact h.once i l₁ l₂ (hold l₁ h₁) (hold l₂ h₂)
  | @act pid l c k a r t proc resp =>
    refine h.record (by simp [proc]) (by simp) fun l' p hp => ?_
    obtain ⟨rfl, rfl⟩ : l = l' ∧ k r = p := by simpa using hp
    have hrest := h.rest pid l _ proc
    refine ⟨h.started pid l _ proc, ?_⟩
    have hown : ownOf (⟨pid, g.state, t, .did c r⟩ :: g.log) pid = ⟨c, r⟩ :: ownOf g.log pid := by
      simp [ownOf]
    rw [hown]
    exact hrest.2 r
  | finish proc | fail proc | crash proc => exact h.record (by simp [proc]) (by simp) (by simp)

theorem Reach.justified (hJ : ∀ l, (M.body l).wp (J l) [] (Q l)) (h : Reach cond s g) :
    g.Justified J Q := by
  unfold Reach at h
  induction h with
  | refl =>
    exact ⟨by simp [Config.init], by simp [Config.init], by simp [Config.init],
      by simp [Config.init, StartedAs]⟩
  | tail _ step _ ih => exact ih.step hJ step

/-- A command about to be issued is justified by its call's past exchanges. -/
theorem Step.justified {e : Entry M} {g₁ : Config M} {c : M.Cmd} {r : M.Resp c}
    (h : g.Justified J Q) (hs : Step g e g₁) (hw : e.what = .did c r) :
    ∃ l, StartedAs g.log e.pid l ∧ J l (ownOf g.log e.pid) c := by
  cases hs with
  | @act pid l c' k a r' t proc resp =>
    obtain ⟨rfl, hr⟩ : c' = c ∧ HEq r' r := by simpa using hw
    exact ⟨l, h.started pid l _ proc, (h.rest pid l _ proc).1⟩
  | start | finish | fail | crash => simp at hw

/-- What a call returns meets its postcondition on its own exchanges. -/
theorem Step.returned {e : Entry M} {g₁ : Config M} {v : M.Value}
    (h : g.Justified J Q) (hs : Step g e g₁) (hw : e.what = .returned (.ok v)) :
    ∃ l, StartedAs g.log e.pid l ∧ Q l (ownOf g.log e.pid) v := by
  cases hs with
  | @finish pid l v' proc =>
    obtain rfl := Except.ok.inj (Occurrence.returned.inj hw)
    exact ⟨l, h.started pid l _ proc, h.rest pid l _ proc⟩
  | start | act | crash => simp at hw
  | fail => simp at hw

end justified

section playing

/-- Answer the next command of a call. -/
def Config.act (g : Config M) (pid : ℕ) (a : M.Answer) : Option (Config M) :=
  match g.procs pid with
  | some (l, .call c k) =>
      let (r, s) := M.respond c a g.state
      some (g.record pid s (.did c r) (some (l, k r)))
  | _ => none

/-- Let a call return what its program came to. -/
def Config.finish (g : Config M) (pid : ℕ) : Option (Config M) :=
  match g.procs pid with
  | some (_, .ok v) => some (g.record pid g.state (.returned (.ok v)) none)
  | some (_, .err x) => some (g.record pid g.state (.returned (.error x)) none)
  | _ => none

/-- Answer one command after another, then return. -/
def Config.runOut (pid : ℕ) (a : M.Answer) : ℕ → Config M → Option (Config M)
  | 0, g => g.finish pid
  | n + 1, g => (g.act pid a).elim (g.finish pid) (Config.runOut pid a n)

/-- A schedule entry: start a call, let one take some commands or run out, or crash it. -/
inductive Move (M : Machine) where
  | start (l : M.Call)
  | acts (pid n : ℕ) (a : M.Answer)
  | runOut (pid n : ℕ) (a : M.Answer)
  | crash (pid : ℕ)

def Config.acts (pid : ℕ) (a : M.Answer) : ℕ → Config M → Option (Config M)
  | 0, g => some g
  | n + 1, g => (g.act pid a).bind (Config.acts pid a n)

def Config.move (g : Config M) : Move M → Option (Config M)
  | .start l =>
      some { g.record g.next g.state (.started l) (some (l, M.body l)) with next := g.next + 1 }
  | .acts pid n a => Config.acts pid a n g
  | .runOut pid n a => Config.runOut pid a n g
  | .crash pid =>
      match g.procs pid with
      | some _ => some (g.record pid g.state .crashed none)
      | none => none

def Config.play (g : Config M) : List (Move M) → Option (Config M)
  | [] => some g
  | m :: ms => (g.move m).bind fun g' => g'.play ms

/-- A run in which anything may happen. -/
abbrev AnyRun (g g₁ : Config M) : Prop := Runs (fun _ _ => True) g g₁

theorem Config.act_runs {g g₁ : Config M} {pid : ℕ} {a : M.Answer} (h : g.act pid a = some g₁) :
    AnyRun g g₁ := by
  simp only [Config.act] at h
  split at h
  · next l c k proc =>
    obtain rfl : _ = g₁ := by simpa using h
    exact Runs.refl.tail (.act proc rfl) trivial
  · simp at h

theorem Config.finish_runs {g g₁ : Config M} {pid : ℕ} (h : g.finish pid = some g₁) :
    AnyRun g g₁ := by
  simp only [Config.finish] at h
  split at h
  · next l v proc =>
    obtain rfl : _ = g₁ := by simpa using h
    exact Runs.refl.tail (.finish proc) trivial
  · next l x proc =>
    obtain rfl : _ = g₁ := by simpa using h
    exact Runs.refl.tail (.fail proc) trivial
  · simp at h

theorem Config.runOut_runs {pid : ℕ} {a : M.Answer} {n : ℕ} {g g₁ : Config M}
    (h : Config.runOut pid a n g = some g₁) : AnyRun g g₁ := by
  induction n generalizing g with
  | zero => exact Config.finish_runs h
  | succ n ih =>
    simp only [Config.runOut] at h
    cases hact : g.act pid a with
    | none =>
      rw [hact] at h
      exact Config.finish_runs h
    | some g' =>
      rw [hact] at h
      exact (Config.act_runs hact).trans (ih h)

theorem Config.acts_runs {pid : ℕ} {a : M.Answer} {n : ℕ} {g g₁ : Config M}
    (h : Config.acts pid a n g = some g₁) : AnyRun g g₁ := by
  induction n generalizing g with
  | zero =>
    obtain rfl : g = g₁ := by simpa [Config.acts] using h
    exact .refl
  | succ n ih =>
    simp only [Config.acts, Option.bind_eq_some_iff] at h
    obtain ⟨g', hact, hrest⟩ := h
    exact (Config.act_runs hact).trans (ih hrest)

theorem Config.move_runs {g g₁ : Config M} {m : Move M} (h : g.move m = some g₁) :
    AnyRun g g₁ := by
  cases m with
  | start l =>
    obtain rfl : _ = g₁ := by simpa [Config.move] using h
    exact Runs.refl.tail (.start g l) trivial
  | acts pid n a => exact Config.acts_runs h
  | runOut pid n a => exact Config.runOut_runs h
  | crash pid =>
    simp only [Config.move] at h
    split at h
    · next lp proc =>
      obtain rfl : _ = g₁ := by simpa using h
      exact Runs.refl.tail (.crash (l := lp.1) (p := lp.2) proc) trivial
    · simp at h

/-- What a schedule plays is a run. -/
theorem Config.play_runs {g g₁ : Config M} {ms : List (Move M)} (h : g.play ms = some g₁) :
    AnyRun g g₁ := by
  induction ms generalizing g with
  | nil =>
    obtain rfl : g = g₁ := by simpa [Config.play] using h
    exact .refl
  | cons m ms ih =>
    simp only [Config.play, Option.bind_eq_some_iff] at h
    obtain ⟨g', hm, hp⟩ := h
    exact (Config.move_runs hm).trans (ih hp)

/-- A schedule whose last configuration passes a test reaches one that passes it. -/
theorem Reach.of_play (s : M.State) (ms : List (Move M)) (test : Config M → Bool)
    (h : ((Config.init s).play ms).any test = true) :
    ∃ g, Reach (fun _ _ => True) s g ∧ test g = true := by
  obtain ⟨g, hg, htest⟩ := (Option.any_eq_true _ _).mp h
  exact ⟨g, Config.play_runs hg, htest⟩

/-- A run all of whose entries lie in a domain meets what the domain implies. -/
theorem Reach.of_log {s : M.State} {g : Config M} {cond : Config M → Entry M → Prop}
    {dom : Entry M → Prop} (h : Reach (fun _ _ => True) s g) (hlog : ∀ e ∈ g.log, dom e)
    (hc : ∀ g e g₁, Reach cond s g → Step g e g₁ → (∀ x ∈ g.log, dom x) → dom e → cond g e) :
    Reach cond s g := by
  unfold Reach at h
  induction h with
  | refl => exact Runs.refl
  | tail _ step _ ih =>
    rw [step.log_eq] at hlog
    have hold : ∀ x ∈ _, dom x := fun x hx => hlog x (List.mem_cons_of_mem _ hx)
    exact (ih hold).next step (hc _ _ _ (ih hold) step hold (hlog _ List.mem_cons_self))

end playing
end Scarab.Interleave
