import Scarab.RerunSets
import Scarab.GraphInsertion

/-!
# The order and the reasons of a rerun plan

The plan lists its set in execution order and says why each member is there. A member points
at the step it is there because of; the links lead back to the target as long as no member
points at a need that joined the set after it.
-/
namespace Scarab.Engine

open Interleave Relation

section order

variable {invalid : List StepId} {n : ℕ} {remaining : List StepRun} {emitted : List StepId}

def isReady (invalid emitted : List StepId) (s : StepRun) : Bool :=
  s.needs.all fun m => m ∉ invalid ∨ m ∈ emitted

theorem executionOrder_succ : executionOrder invalid (n + 1) remaining emitted =
    if remaining.filter (isReady invalid emitted) = [] then remaining
    else remaining.filter (isReady invalid emitted) ++
      executionOrder invalid n (remaining.filter fun s => !isReady invalid emitted s)
        (emitted ++ (remaining.filter (isReady invalid emitted)).map (·.step)) := by
  have hrest : remaining.filter (· ∉ remaining.filter (isReady invalid emitted)) =
      remaining.filter fun s => !isReady invalid emitted s := by
    refine List.filter_congr fun s hs => ?_
    simp [hs]
  rw [← hrest]
  rfl

theorem executionOrder_perm :
    (executionOrder invalid n remaining emitted).Perm remaining := by
  induction n generalizing remaining emitted with
  | zero => exact .refl _
  | succ n ih =>
    rw [executionOrder_succ]
    split_ifs
    · exact .refl _
    · exact (ih.append_left _).trans (List.filter_append_perm _ _)

/-- Without a cycle, some remaining step has all its needs in the set out already. -/
theorem exists_isReady {steps : List StepRun} (hacyclic : ∀ a, ¬ TransGen (Needs steps) a a)
    (hsub : remaining ⊆ steps) (hin : ∀ m ∈ invalid, m ∈ emitted ∨ ∃ s ∈ remaining, s.step = m)
    (hne : remaining ≠ []) : remaining.filter (isReady invalid emitted) ≠ [] := by
  obtain ⟨s₀, hs₀⟩ := List.exists_mem_of_ne_nil _ hne
  have hback : ∀ a, ¬ TransGen (Function.swap (Needs steps)) a a := by
    intro a ha
    exact hacyclic a (transGen_swap.mp ha)
  obtain ⟨f, hf, hlast, -⟩ := GraphInsertion.exists_front (remaining.map (·.step)) hback
    (List.mem_map_of_mem hs₀)
  obtain ⟨s, hs, rfl⟩ := List.mem_map.mp hf
  refine List.ne_nil_of_mem (List.mem_filter.mpr ⟨hs, List.all_eq_true.mpr fun m hm => ?_⟩)
  by_cases hmem : m ∈ invalid
  · rcases hin m hmem with hout | ⟨s', hs', rfl⟩
    · simp [hout]
    · have hedge : Function.swap (Needs steps) s.step s'.step := ⟨s, hsub hs, rfl, hm⟩
      exact absurd (.single hedge) (hlast _ (List.mem_map_of_mem hs'))
  · simp [hmem]

/-- With no cycle among the needs, each step comes after its needs in the set. -/
theorem executionOrder_after {steps : List StepRun}
    (hacyclic : ∀ a, ¬ TransGen (Needs steps) a a) (hsub : remaining ⊆ steps)
    (hin : ∀ m ∈ invalid, m ∈ emitted ∨ ∃ s ∈ remaining, s.step = m)
    (hlen : remaining.length ≤ n) {before after : List StepRun} {s : StepRun}
    (hsplit : executionOrder invalid n remaining emitted = before ++ s :: after) {m : StepId}
    (hneed : m ∈ s.needs) (hm : m ∈ invalid) : m ∈ emitted ∨ m ∈ before.map (·.step) := by
  induction n generalizing remaining emitted before with
  | zero =>
    have hnil : remaining = [] := List.length_eq_zero_iff.mp (by omega)
    rw [executionOrder, hnil] at hsplit
    simp at hsplit
  | succ n ih =>
    have hne : remaining ≠ [] := by
      rintro rfl
      have hnil := @executionOrder_perm invalid (n + 1) [] emitted
      rw [hsplit] at hnil
      simpa using hnil.length_eq
    have hready := exists_isReady hacyclic hsub hin hne
    rw [executionOrder_succ, if_neg hready] at hsplit
    -- A step of a later round: its needs are out in this round or before it there.
    have hlater : ∀ mid, executionOrder invalid n
          (remaining.filter fun s => !isReady invalid emitted s)
          (emitted ++ (remaining.filter (isReady invalid emitted)).map (·.step)) =
            mid ++ s :: after →
        before = remaining.filter (isReady invalid emitted) ++ mid →
          m ∈ emitted ∨ m ∈ before.map (·.step) := by
      rintro mid hrest rfl
      have hrest' := ih (fun x hx => hsub (List.mem_filter.mp hx).1) ?_ ?_ hrest
      · rw [List.map_append, List.mem_append]
        rcases hrest' with hout | hout
        · rcases List.mem_append.mp hout with hout | hout
          · exact .inl hout
          · exact .inr (.inl hout)
        · exact .inr (.inr hout)
      · intro k hk
        rcases hin k hk with hout | ⟨s', hs', rfl⟩
        · exact .inl (List.mem_append_left _ hout)
        · by_cases hr : isReady invalid emitted s' = true
          · exact .inl (List.mem_append_right _
              (List.mem_map_of_mem (List.mem_filter.mpr ⟨hs', hr⟩)))
          · exact .inr ⟨s', List.mem_filter.mpr ⟨hs', by simpa using hr⟩, rfl⟩
      · have hpos := List.length_pos_of_ne_nil hready
        have hsum := (List.filter_append_perm (isReady invalid emitted) remaining).length_eq
        rw [List.length_append] at hsum
        omega
    rcases List.append_eq_append_iff.mp hsplit with ⟨mid, hbefore, hrest⟩ | ⟨mid, hfront, htail⟩
    · exact hlater mid hrest hbefore
    · cases mid with
      | nil => exact hlater [] htail.symm (by simpa using hfront.symm)
      | cons x mid =>
        obtain ⟨rfl, -⟩ := List.cons.inj htail
        have hs : s ∈ remaining.filter (isReady invalid emitted) := by
          rw [hfront]
          simp
        have hall := List.all_eq_true.mp (List.mem_filter.mp hs).2 m hneed
        simp only [decide_eq_true_eq] at hall
        exact .inl (hall.resolve_left (not_not.mpr hm))

end order

section waves

variable (r : Recorded) (steps : List StepRun) (target : StepId)

/-- What has joined after some rounds of widening. -/
def Wave : ℕ → Set StepId
  | 0 => {x | ReflTransGen (Needs steps) target x}
  | k + 1 => {x | x ∈ Wave k ∨ ∃ p, r.Gone steps p ∧
      (∃ s ∈ steps, s.step ∈ Wave k ∧ p ∈ r.consumes s) ∧ ReflTransGen (Needs steps) p x}

/-- A producer that a wave takes in because its snapshot is gone. -/
def Regenerated (x : StepId) : Prop :=
  ∃ k, x ∉ Wave r steps target k ∧ r.Gone steps x ∧
    ∃ s ∈ steps, s.step ∈ Wave r steps target k ∧ x ∈ r.consumes s

/-- The least by id of the needs of a step that are in the set. -/
def LeastNeed (set : Set StepId) (x n : StepId) : Prop :=
  ∃ s ∈ steps, s.step = x ∧ n ∈ s.needs ∧ n ∈ set ∧ ∀ m ∈ s.needs, m ∈ set → n.text ≤ m.text

/-- No step joins before the need it is attributed to. -/
def NeedsJoinFirst : Prop :=
  ∀ k, ∀ x ∈ Wave r steps target k, x ≠ target → ¬ Regenerated r steps target x →
    ∀ n, LeastNeed steps {y | ∃ j, y ∈ Wave r steps target j} x n → n ∈ Wave r steps target k

variable {r steps target} {x : StepId} {j k : ℕ}

theorem Wave.mono (h : j ≤ k) (hx : x ∈ Wave r steps target j) : x ∈ Wave r steps target k := by
  induction h with
  | refl => exact hx
  | step _ ih => exact .inl ih

theorem Wave.lt_of_not_mem (hj : x ∉ Wave r steps target j) (hk : x ∈ Wave r steps target k) :
    j < k := by
  by_contra hle
  exact hj (Wave.mono (by omega) hk)

/-- A member that is neither the target nor regenerated has a need in its wave. -/
theorem Wave.exists_need (hx : x ∈ Wave r steps target k) (hne : x ≠ target)
    (hreg : ¬ Regenerated r steps target x) :
    ∃ a ∈ Wave r steps target k, Needs steps a x := by
  induction k with
  | zero =>
    rcases ReflTransGen.cases_tail hx with heq | ⟨a, hpath, hneed⟩
    · exact absurd heq hne
    · exact ⟨a, hpath, hneed⟩
  | succ k ih =>
    by_cases hold : x ∈ Wave r steps target k
    · obtain ⟨a, ha, hneed⟩ := ih hold
      exact ⟨a, .inl ha, hneed⟩
    · obtain ⟨p, hgone, hcon, hpath⟩ := hx.resolve_left hold
      rcases ReflTransGen.cases_tail hpath with rfl | ⟨a, hpath, hneed⟩
      · exact absurd ⟨k, hold, hgone, hcon⟩ hreg
      · exact ⟨a, .inr ⟨p, hgone, hcon, hpath⟩, hneed⟩

theorem Wave.target_mem : target ∈ Wave r steps target k :=
  Wave.mono (Nat.zero_le k) (show target ∈ Wave r steps target 0 from .refl)

theorem Wave.dependents {a b : StepId} (ha : a ∈ Wave r steps target k) (hab : Needs steps a b) :
    b ∈ Wave r steps target k := by
  induction k with
  | zero => exact ReflTransGen.tail ha hab
  | succ k ih =>
    rcases ha with ha | ⟨p, hgone, hcon, hpath⟩
    · exact .inl (ih ha)
    · exact .inr ⟨p, hgone, hcon, hpath.tail hab⟩

/-- A provisionable set holds every wave. -/
theorem Wave.subset {S : Set StepId} (hS : r.Provisionable steps target S) :
    Wave r steps target k ⊆ S := by
  have hdown : ∀ p ∈ S, ∀ x, ReflTransGen (Needs steps) p x → x ∈ S := by
    intro p hp x hpath
    induction hpath with
    | refl => exact hp
    | tail _ hneed ih => exact hS.dependents _ ih _ hneed
  induction k with
  | zero => exact fun x hx => hdown target hS.target x hx
  | succ k ih =>
    rintro x (hx | ⟨p, hgone, ⟨s, hs, hin, hp⟩, hpath⟩)
    · exact ih hx
    · exact hdown p (hS.producers s hs (ih hin) p hp hgone) x hpath

end waves

section expiries

variable {present : Text → Bool} {edges : List (StepId × StepId × Text)} {roots : List StepId}
variable {expired : List ExpiredInput}

theorem probeWith_keeps : expired ⊆ (probeWith present edges roots expired).2 := by
  induction edges generalizing roots expired with
  | nil => exact fun _ h => h
  | cons edge edges ih =>
    rw [probeWith]
    split_ifs
    · exact fun e he => ih (List.mem_append_left _ he)
    · exact ih

theorem mem_probeWith_expired {e : ExpiredInput} (h : e ∈ (probeWith present edges roots expired).2) :
    e ∈ expired ∨ (e.consumer, e.producedBy, e.root) ∈ edges ∧ present e.root = false := by
  induction edges generalizing roots expired with
  | nil => exact .inl h
  | cons edge edges ih =>
    obtain ⟨consumer, producer, root⟩ := edge
    rw [probeWith] at h
    split_ifs at h with hnew
    · rcases ih h with hmem | ⟨hmem, hgone⟩
      · rcases List.mem_append.mp hmem with hmem | hmem
        · exact .inl hmem
        · obtain rfl := List.mem_singleton.mp hmem
          exact .inr ⟨List.mem_cons_self, by simpa using hnew.1⟩
      · exact .inr ⟨List.mem_cons_of_mem _ hmem, hgone⟩
    · rcases ih h with hmem | ⟨hmem, hgone⟩
      · exact .inl hmem
      · exact .inr ⟨List.mem_cons_of_mem _ hmem, hgone⟩

/-- Every root of a round is recorded with its consumer. -/
theorem probeWith_recorded {p : StepId} (h : p ∈ (probeWith present edges roots expired).1) :
    p ∈ roots ∨ ∃ e ∈ (probeWith present edges roots expired).2, e.producedBy = p := by
  induction edges generalizing roots expired with
  | nil => exact .inl h
  | cons edge edges ih =>
    obtain ⟨consumer, producer, root⟩ := edge
    rw [probeWith] at h ⊢
    split_ifs at h ⊢
    · rcases ih h with hmem | he
      · rcases List.mem_append.mp hmem with hmem | hmem
        · exact .inl hmem
        · obtain rfl := List.mem_singleton.mp hmem
          exact .inr ⟨⟨consumer, p, root⟩, probeWith_keeps (by simp), rfl⟩
      · exact .inr he
    · exact ih h

variable {r : Recorded} {steps : List StepRun} {target : StepId}

/-- Widening goes wave by wave, and records who consumed what each wave takes in. -/
theorem widenWith_waves {n k : ℕ} {invalid : List StepId} (hfuel : outside steps invalid < n)
    (hset : ∀ x, x ∈ invalid ↔ x ∈ Wave r steps target k) :
    (∃ K, ∀ x, x ∈ (widenWith r.present steps (steps.map r.consumption) n invalid expired).1 ↔
        x ∈ Wave r steps target K) ∧
      (∀ e ∈ (widenWith r.present steps (steps.map r.consumption) n invalid expired).2,
        e ∈ expired ∨ ∃ j, e.consumer ∈ Wave r steps target j ∧
          e.producedBy ∉ Wave r steps target j) ∧
      expired ⊆ (widenWith r.present steps (steps.map r.consumption) n invalid expired).2 ∧
      ∀ x j, k ≤ j → x ∉ Wave r steps target j → r.Gone steps x →
        (∃ s ∈ steps, s.step ∈ Wave r steps target j ∧ x ∈ r.consumes s) →
          ∃ e ∈ (widenWith r.present steps (steps.map r.consumption) n invalid expired).2,
            e.producedBy = x := by
  induction n generalizing invalid expired k with
  | zero => omega
  | succ n ih =>
    rw [widenWith]
    have hroots := fun p => @mem_roots r steps invalid expired p
    have hkept := @probeWith_keeps r.present (boundary (steps.map r.consumption) invalid) [] expired
    have hnew := fun e he => @mem_probeWith_expired r.present
      (boundary (steps.map r.consumption) invalid) [] expired e he
    have hrec := fun p hp => @probeWith_recorded r.present
      (boundary (steps.map r.consumption) invalid) [] expired p hp
    generalize probeWith r.present (boundary (steps.map r.consumption) invalid) [] expired = found
      at hroots hkept hnew hrec ⊢
    have hnew' : ∀ e ∈ found.2, e ∈ expired ∨ ∃ j, e.consumer ∈ Wave r steps target j ∧
        e.producedBy ∉ Wave r steps target j := by
      intro e he
      refine (hnew e he).imp_right fun hedge => ?_
      obtain ⟨s, hs, hcon, hin, -, hnot, -⟩ := mem_boundary.mp hedge.1
      exact ⟨k, (hset _).mp hin, fun hmem => hnot ((hset _).mpr hmem)⟩
    split_ifs with hnone
    · refine ⟨⟨k, hset⟩, hnew', hkept, ?_⟩
      -- The last round: the set is provisionable, so it holds every wave.
      have hprov : r.Provisionable steps target {x | x ∈ invalid} := by
        refine ⟨(hset _).mpr Wave.target_mem, fun a ha b hab => ?_, ?_⟩
        · exact (hset b).mpr (Wave.dependents ((hset a).mp ha) hab)
        · intro s hs hin p hp hgone
          by_contra hnot
          have hmem := (hroots p).mpr ⟨hnot, hgone, s, hs, hin, hp⟩
          rw [hnone] at hmem
          cases hmem
      rintro x j hj hnot hgone ⟨s, hs, hin, hp⟩
      have hx : x ∈ invalid := hprov.producers s hs (Wave.subset hprov hin) x hp hgone
      exact absurd (Wave.mono hj ((hset x).mp hx)) hnot
    · obtain ⟨p₀, hp₀⟩ := List.exists_mem_of_ne_nil _ hnone
      have hnext : ∀ x, x ∈ addRoots steps found.1 invalid ↔ x ∈ Wave r steps target (k + 1) := by
        intro x
        rw [mem_addRoots, hset x]
        constructor
        · rintro (hx | ⟨p, hp, hpath⟩)
          · exact .inl hx
          · obtain ⟨-, hgone, s, hs, hin, hcon⟩ := (hroots p).mp hp
            exact .inr ⟨p, hgone, ⟨s, hs, (hset _).mp hin, hcon⟩, hpath⟩
        · rintro (hx | ⟨p, hgone, ⟨s, hs, hin, hcon⟩, hpath⟩)
          · exact .inl hx
          · by_cases hp : p ∈ invalid
            · left
              have hp := (hset p).mp hp
              induction hpath with
              | refl => exact hp
              | tail _ hab ihp => exact Wave.dependents ihp hab
            · exact .inr ⟨p, (hroots p).mpr ⟨hp, hgone, s, hs, (hset _).mpr hin, hcon⟩, hpath⟩
      have hless : outside steps (addRoots steps found.1 invalid) < n := by
        obtain ⟨hnot, ⟨⟨s, hs, rfl⟩, -⟩, -⟩ := (hroots p₀).mp hp₀
        have hgrow : invalid ⊆ addRoots steps found.1 invalid :=
          fun x hx => mem_addRoots.mpr (.inl hx)
        have hlt := outside_lt hgrow hs hnot (mem_addRoots.mpr (.inr ⟨_, hp₀, .refl⟩))
        omega
      obtain ⟨hend, hentries, hsub, hall⟩ := @ih found.2 (k + 1) _ hless hnext
      refine ⟨hend, ?_, fun e he => hsub (hkept he), ?_⟩
      · intro e he
        rcases hentries e he with he | hj
        · exact hnew' e he
        · exact .inr hj
      · rintro x j hj hnot hgone hcon
        rcases Nat.lt_or_ge k j with hlt | hge
        · exact hall x j hlt hnot hgone hcon
        · obtain rfl : j = k := by omega
          obtain ⟨s, hs, hin, hp⟩ := hcon
          have hroot := (hroots x).mpr
            ⟨fun hmem => hnot ((hset x).mp hmem), hgone, s, hs, (hset _).mpr hin, hp⟩
          rcases hrec x hroot with hnil | ⟨e, he, heq⟩
          · cases hnil
          · exact ⟨e, hsub he, heq⟩

end expiries

section plan

variable (r : Recorded) (target : StepId) (steps : List StepRun)

theorem planWith_waves :
    (∀ x, x ∈ (planWith r target steps).invalidated ↔ ∃ k, x ∈ Wave r steps target k) ∧
      (∀ e ∈ (planWith r target steps).expired, ∃ j, e.consumer ∈ Wave r steps target j ∧
        e.producedBy ∉ Wave r steps target j) ∧
      ∀ x, Regenerated r steps target x →
        ∃ e ∈ (planWith r target steps).expired, e.producedBy = x := by
  have hleast := planWith_least r target steps
  have hbase : ∀ x, x ∈ invalidationSet target steps ↔ x ∈ Wave r steps target 0 :=
    fun x => mem_invalidationSet
  have hfuel : outside steps (invalidationSet target steps) < steps.length + 1 :=
    Nat.lt_succ_of_le List.countP_le_length
  obtain ⟨⟨K, hK⟩, hentries, -, hall⟩ := @widenWith_waves [] r steps target _ 0 _ hfuel hbase
  refine ⟨fun x => ⟨fun hx => ⟨K, ?_⟩, ?_⟩, fun e he => ?_, ?_⟩
  · refine (hK x).mp ?_
    simpa [planWith, sortIds] using hx
  · rintro ⟨k, hx⟩
    exact Wave.subset hleast.1 hx
  · rcases hentries e he with hnil | hj
    · cases hnil
    · exact hj
  · rintro x ⟨j, hnot, hgone, hcon⟩
    exact hall x j (Nat.zero_le j) hnot hgone hcon

/-- What the plan goes by: without an oracle every snapshot counts as present. -/
def Recorded.asSeen (r : Recorded) (snapshots : Bool) : Recorded :=
  if snapshots then r else { r with present := fun _ => true }

variable {r target steps}

theorem probeWith_present {edges : List (StepId × StepId × Text)} {roots : List StepId}
    {expired : List ExpiredInput} :
    probeWith (fun _ => true) edges roots expired = (roots, expired) := by
  induction edges with
  | nil => rfl
  | cons edge edges ih =>
    rw [probeWith, if_neg (by simp)]
    exact ih

theorem eval_planRerunOver_seen {run : RunId} {ans : (c : Cmd) → Resp c} (h : r.Answers run ans)
    (snapshots : Bool) : (planRerunOver snapshots run target steps).eval ans =
      .ok (planWith (r.asSeen snapshots) target steps) := by
  cases snapshots with
  | true => exact eval_planRerunOver h target steps
  | false =>
    have hset : widenWith (fun _ => true) steps
        (steps.map (Recorded.consumption { r with present := fun _ => true }))
        (steps.length + 1) (invalidationSet target steps) [] =
          (invalidationSet target steps, []) := by
      rw [widenWith, probeWith_present, if_pos rfl]
    simp only [Recorded.asSeen, Bool.false_eq_true, if_false, planWith, hset]
    rfl

/-- `a` is in the plan because of `b`. -/
def RerunPlan.Because (plan : RerunPlan) (a b : StepId) : Prop :=
  ∃ e ∈ plan.steps, e.step = a ∧ e.becauseOf = some b

/-- Each member once, after its needs, with the reason that fits it. -/
structure RerunPlan.Ordered (steps : List StepRun) (plan : RerunPlan) : Prop where
  once : (plan.steps.map (·.step)).Nodup
  members : ∀ x, x ∈ plan.steps.map (·.step) ↔ x ∈ plan.invalidated
  after : ∀ before e later, plan.steps = before ++ e :: later → ∀ n ∈ plan.invalidated,
    Needs steps n e.step → n ∈ before.map (·.step)
  oneTarget : plan.steps.countP (·.reason = .target) = 1
  targets : ∀ e ∈ plan.steps, e.reason = .target ↔ e.step = plan.target
  regenerates : ∀ e ∈ plan.steps,
    e.reason = .regenerate ↔ ∃ x ∈ plan.expired, x.producedBy = e.step
  regenerateCascades : ∀ e ∈ plan.steps,
    e.reason = .regenerateCascade ↔ e.step ∈ plan.widened ∧ e.reason ≠ .regenerate
  cascades : ∀ e ∈ plan.steps, e.reason = .cascade ↔
    e.step ≠ plan.target ∧ e.reason ≠ .regenerate ∧ e.step ∉ plan.widened

/-- Every link of reasons leads back to the target. -/
def RerunPlan.Attributed (plan : RerunPlan) : Prop :=
  ∀ e ∈ plan.steps, ReflTransGen plan.Because e.step plan.target

/-- Every member is a step of the run. -/
theorem Wave.step_mem (htarget : ∃ s ∈ steps, s.step = target) {k : ℕ} {x : StepId}
    (hx : x ∈ Wave r steps target k) : ∃ s ∈ steps, s.step = x := by
  have hdown : ∀ {p x}, (∃ s ∈ steps, s.step = p) → ReflTransGen (Needs steps) p x →
      ∃ s ∈ steps, s.step = x := by
    intro p x hp hpath
    rcases ReflTransGen.cases_tail hpath with rfl | ⟨a, -, s, hs, hstep, -⟩
    · exact hp
    · exact ⟨s, hs, hstep⟩
  induction k generalizing x with
  | zero => exact hdown htarget hx
  | succ k ih =>
    rcases hx with hx | ⟨p, hgone, -, hpath⟩
    · exact ih hx
    · exact hdown hgone.1 hpath

section entries

variable {invalid base : List StepId} {expired : List ExpiredInput} {s : StepRun}

theorem planReason_target (h : s.step = target) :
    planReason target invalid base expired s = ⟨s.step, .target, none, s.isGate⟩ := by
  simp [planReason, h]

theorem planReason_regenerate {e : ExpiredInput} (h : s.step ≠ target)
    (he : expired.find? (·.producedBy = s.step) = some e) :
    planReason target invalid base expired s =
      ⟨s.step, .regenerate, some e.consumer, s.isGate⟩ := by
  simp [planReason, h, he]

theorem planReason_cascade (h : s.step ≠ target)
    (he : expired.find? (·.producedBy = s.step) = none) :
    planReason target invalid base expired s =
      ⟨s.step, if s.step ∈ base then .cascade else .regenerateCascade,
        (sortIds (s.needs.filter (· ∈ invalid))).head?, s.isGate⟩ := by
  simp only [planReason, if_neg h, he]
  split_ifs <;> rfl

@[simp] theorem planReason_step : (planReason target invalid base expired s).step = s.step := rfl

end entries

variable (r target steps) in
/-- The members in execution order, before each is given its reason. -/
def planOrder : List StepRun :=
  let invalid := (widenWith r.present steps (steps.map r.consumption) (steps.length + 1)
    (invalidationSet target steps) []).1
  let members := (steps.filter (·.step ∈ invalid)).insertionSort fun a b => a.step.text ≤ b.step.text
  executionOrder invalid members.length members []

variable (r target steps) in
/-- The entry of one member. -/
def planEntry (s : StepRun) : PlannedStep :=
  let found := widenWith r.present steps (steps.map r.consumption) (steps.length + 1)
    (invalidationSet target steps) []
  planReason target found.1 (invalidationSet target steps) found.2 s

theorem planWith_steps :
    (planWith r target steps).steps = (planOrder r target steps).map (planEntry r target steps) := rfl

theorem planWith_ids : (planWith r target steps).steps.map (·.step) =
    (planOrder r target steps).map (·.step) := by
  rw [planWith_steps, List.map_map]
  rfl

theorem planOrder_perm : (planOrder r target steps).Perm
    (steps.filter (·.step ∈ (planWith r target steps).invalidated)) := by
  have hsame : steps.filter (·.step ∈ (planWith r target steps).invalidated) =
      steps.filter (·.step ∈ (widenWith r.present steps (steps.map r.consumption)
        (steps.length + 1) (invalidationSet target steps) []).1) := by
    refine List.filter_congr fun s _ => ?_
    simp [planWith, sortIds]
  rw [hsame]
  exact executionOrder_perm.trans (List.perm_insertionSort _ _)

theorem mem_planOrder {s : StepRun} : s ∈ planOrder r target steps ↔
    s ∈ steps ∧ s.step ∈ (planWith r target steps).invalidated := by
  rw [planOrder_perm.mem_iff, List.mem_filter, decide_eq_true_eq]

/-- The target does not re-execute for an output of its own. -/
theorem target_not_expired {e : ExpiredInput} (he : e ∈ (planWith r target steps).expired) :
    e.producedBy ≠ target := by
  obtain ⟨j, -, hnot⟩ := (planWith_waves r target steps).2.1 e he
  rintro rfl
  exact hnot Wave.target_mem

theorem mem_widened {x : StepId} : x ∈ (planWith r target steps).widened ↔
    x ∈ (planWith r target steps).invalidated ∧ x ∉ invalidationSet target steps := by
  simp [planWith, sortIds]

/-- The three kinds of entry. -/
theorem planEntry_cases (s : StepRun) :
    (s.step = target ∧ (planEntry r target steps s).reason = .target) ∨
      (s.step ≠ target ∧ (planEntry r target steps s).reason = .regenerate ∧
        ∃ e ∈ (planWith r target steps).expired, e.producedBy = s.step ∧
          (planEntry r target steps s).becauseOf = some e.consumer) ∨
      (s.step ≠ target ∧ (∀ e ∈ (planWith r target steps).expired, e.producedBy ≠ s.step) ∧
        (planEntry r target steps s).reason =
          (if s.step ∈ invalidationSet target steps then .cascade else .regenerateCascade) ∧
        (planEntry r target steps s).becauseOf = (sortIds (s.needs.filter fun n => n ∈
          (widenWith r.present steps (steps.map r.consumption) (steps.length + 1)
            (invalidationSet target steps) []).1)).head?) := by
  by_cases ht : s.step = target
  · exact .inl ⟨ht, by rw [planEntry, planReason_target ht]⟩
  right
  cases he : (planWith r target steps).expired.find? (·.producedBy = s.step) with
  | some e =>
    have htest := List.find?_some he
    have hp : e.producedBy = s.step := of_decide_eq_true htest
    have hentry : planEntry r target steps s = ⟨s.step, .regenerate, some e.consumer, s.isGate⟩ :=
      planReason_regenerate ht he
    exact .inl ⟨ht, by rw [hentry], e, List.mem_of_find?_eq_some he, hp, by rw [hentry]⟩
  | none =>
    refine .inr ⟨ht, ?_, ?_, ?_⟩
    · intro e hmem hp
      have hno := List.find?_eq_none.mp he e hmem
      simp [hp] at hno
    · exact congrArg PlannedStep.reason (planReason_cascade ht he)
    · exact congrArg PlannedStep.becauseOf (planReason_cascade ht he)

/-- In the order each member comes after its needs in the set. -/
theorem planOrder_after (hids : (steps.map (·.step)).Nodup)
    (htarget : ∃ s ∈ steps, s.step = target) (hacyclic : ∀ a, ¬ TransGen (Needs steps) a a)
    {before later : List StepRun} {s : StepRun}
    (hsplit : planOrder r target steps = before ++ s :: later) {n : StepId}
    (hn : n ∈ (planWith r target steps).invalidated) (hneed : Needs steps n s.step) :
    n ∈ before.map (·.step) := by
  have hin : n ∈ (widenWith r.present steps (steps.map r.consumption) (steps.length + 1)
      (invalidationSet target steps) []).1 := by simpa [planWith, sortIds] using hn
  obtain ⟨s', hs', hstep, hmem⟩ := hneed
  have hs : s ∈ steps := (mem_planOrder.mp (by rw [hsplit]; simp)).1
  obtain rfl := List.inj_on_of_nodup_map hids hs' hs hstep
  have hout := executionOrder_after hacyclic (fun x hx => ?_) (fun m hm => ?_) le_rfl hsplit hmem hin
  · simpa using hout
  · exact (List.mem_filter.mp ((List.perm_insertionSort _ _).mem_iff.mp hx)).1
  · obtain ⟨k, hk⟩ := ((planWith_waves r target steps).1 m).mp (by simpa [planWith, sortIds] using hm)
    obtain ⟨x, hx, rfl⟩ := Wave.step_mem htarget hk
    refine .inr ⟨x, (List.perm_insertionSort _ _).mem_iff.mpr ?_, rfl⟩
    exact List.mem_filter.mpr ⟨hx, by simpa using hm⟩

theorem planWith_ordered (hids : (steps.map (·.step)).Nodup)
    (htarget : ∃ s ∈ steps, s.step = target) (hacyclic : ∀ a, ¬ TransGen (Needs steps) a a) :
    (planWith r target steps).Ordered steps := by
  have hwaves := (planWith_waves r target steps).1
  have honce : ((planOrder r target steps).map (·.step)).Nodup := by
    rw [(planOrder_perm.map _).nodup_iff]
    exact (List.filter_sublist.map _).nodup hids
  have hmembers : ∀ x, x ∈ (planOrder r target steps).map (·.step) ↔
      x ∈ (planWith r target steps).invalidated := by
    intro x
    simp only [List.mem_map, mem_planOrder]
    constructor
    · rintro ⟨s, ⟨-, hin⟩, rfl⟩
      exact hin
    · intro hx
      obtain ⟨k, hk⟩ := (hwaves x).mp hx
      obtain ⟨s, hs, rfl⟩ := Wave.step_mem htarget hk
      exact ⟨s, ⟨hs, hx⟩, rfl⟩
  have htargets : ∀ s, (planEntry r target steps s).reason = .target ↔ s.step = target := by
    intro s
    rcases @planEntry_cases r target steps s with ⟨ht, hr⟩ | ⟨ht, hr, -⟩ | ⟨ht, -, hr, -⟩
    · simp [ht, hr]
    · simp [ht, hr]
    · rw [hr]
      split_ifs <;> simp [ht]
  refine ⟨?_, ?_, ?_, ?_, ?_, ?_, ?_, ?_⟩
  · rw [planWith_ids]
    exact honce
  · rw [planWith_ids]
    exact hmembers
  · intro before e later hsplit n hn hneed
    rw [planWith_steps] at hsplit
    obtain ⟨before', rest, hord, rfl, hrest⟩ := List.map_eq_append_iff.mp hsplit
    obtain ⟨s, later', rfl, rfl, -⟩ := List.map_eq_cons_iff.mp hrest
    have hbefore := planOrder_after hids htarget hacyclic hord hn hneed
    rw [List.map_map]
    exact hbefore
  · rw [planWith_steps, List.countP_map]
    have hcount : (planOrder r target steps).countP
        ((fun e : PlannedStep => decide (e.reason = .target)) ∘ planEntry r target steps) =
          ((planOrder r target steps).map (·.step)).count target := by
      rw [List.count, List.countP_map]
      refine List.countP_congr fun s _ => ?_
      simp [htargets s]
    rw [hcount]
    exact List.count_eq_one_of_mem honce ((hmembers target).mpr ((hwaves _).mpr ⟨0, .refl⟩))
  · rw [planWith_steps]
    intro e he
    obtain ⟨s, -, rfl⟩ := List.mem_map.mp he
    exact htargets s
  · rw [planWith_steps]
    intro e he
    obtain ⟨s, -, rfl⟩ := List.mem_map.mp he
    rcases @planEntry_cases r target steps s with ⟨ht, hr⟩ | ⟨-, hr, x, hx, hp, -⟩ | ⟨-, hno, hr, -⟩
    · rw [hr]
      refine ⟨by simp, ?_⟩
      rintro ⟨x, hx, hp⟩
      exact absurd (hp.trans ht) (target_not_expired hx)
    · exact ⟨fun _ => ⟨x, hx, hp⟩, fun _ => hr⟩
    · rw [hr]
      refine ⟨by split_ifs <;> simp, ?_⟩
      rintro ⟨x, hx, hp⟩
      exact absurd hp (hno x hx)
  · rw [planWith_steps]
    intro e he
    obtain ⟨s, hs, rfl⟩ := List.mem_map.mp he
    have hin := (mem_planOrder.mp hs).2
    change _ ↔ s.step ∈ _ ∧ _
    rw [mem_widened]
    rcases @planEntry_cases r target steps s with ⟨ht, hr⟩ | ⟨-, hr, -⟩ | ⟨-, -, hr, -⟩
    · have hbase : s.step ∈ invalidationSet target steps := by
        rw [ht]
        exact mem_invalidationSet.mpr .refl
      simp [hr, hbase]
    · simp [hr]
    · rw [hr]
      split_ifs with hb <;> simp [hb, hin]
  · rw [planWith_steps]
    intro e he
    obtain ⟨s, hs, rfl⟩ := List.mem_map.mp he
    have hin := (mem_planOrder.mp hs).2
    change _ ↔ s.step ≠ target ∧ _ ∧ s.step ∉ _
    rw [mem_widened]
    rcases @planEntry_cases r target steps s with ⟨ht, hr⟩ | ⟨-, hr, -⟩ | ⟨ht, -, hr, -⟩
    · simp [hr, ht]
    · simp [hr]
    · rw [hr]
      split_ifs with hb <;> simp [hb, hin, ht]

/-- The first of the sorted ids is the least. -/
theorem head_sortIds {ids : List StepId} {n : StepId} (h : (sortIds ids).head? = some n) :
    n ∈ ids ∧ ∀ m ∈ ids, n.text ≤ m.text := by
  have hsorted : (sortIds ids).Pairwise fun a b => a.text ≤ b.text := by
    have : Std.Total fun a b : StepId => a.text ≤ b.text := ⟨fun a b => le_total a.text b.text⟩
    have : IsTrans StepId fun a b => a.text ≤ b.text := ⟨fun _ _ _ hab hbc => hab.trans hbc⟩
    exact List.pairwise_insertionSort _ ids
  have hmem : ∀ m, m ∈ sortIds ids ↔ m ∈ ids := fun m => List.mem_insertionSort _
  obtain ⟨rest, hrest⟩ := List.head?_eq_some_iff.mp h
  rw [hrest] at hsorted
  refine ⟨(hmem n).mp (by rw [hrest]; simp), fun m hm => ?_⟩
  rw [← hmem m, hrest] at hm
  rcases List.mem_cons.mp hm with rfl | hm
  · exact le_rfl
  · exact (List.pairwise_cons.mp hsorted).1 m hm

/-- The links lead back to the target when no member is attributed to a later one. -/
theorem planWith_attributed (hids : (steps.map (·.step)).Nodup)
    (htarget : ∃ s ∈ steps, s.step = target) (hacyclic : ∀ a, ¬ TransGen (Needs steps) a a)
    (hfirst : NeedsJoinFirst r steps target) : (planWith r target steps).Attributed := by
  obtain ⟨hwaves, hexpired, hregenerated⟩ := planWith_waves r target steps
  have hordered := @planWith_ordered r target steps hids htarget hacyclic
  have hentry : ∀ {s}, s ∈ planOrder r target steps →
      planEntry r target steps s ∈ (planWith r target steps).steps := by
    intro s hs
    rw [planWith_steps]
    exact List.mem_map_of_mem hs
  have hall : ∀ k before s later, planOrder r target steps = before ++ s :: later →
      s.step ∈ Wave r steps target k →
        ReflTransGen (planWith r target steps).Because s.step target := by
    intro k
    induction k using Nat.strong_induction_on with
    | _ k ih =>
      intro before
      induction hlen : before.length using Nat.strong_induction_on generalizing before with
      | _ len ihlen =>
        intro s later hsplit hk
        have hs : s ∈ planOrder r target steps := by
          rw [hsplit]
          simp
        rcases @planEntry_cases r target steps s with ⟨ht, -⟩ | ⟨-, -, e, he, hp, hbec⟩ |
          ⟨ht, hno, -, hbec⟩
        · rw [ht]
        · -- Regenerated: its consumer was there a wave before.
          obtain ⟨j, hcon, hnot⟩ := hexpired e he
          rw [hp] at hnot
          have hin := (hordered.members _).mpr ((hwaves e.consumer).mpr ⟨j, hcon⟩)
          rw [planWith_ids] at hin
          obtain ⟨c, hc, hstep⟩ := List.mem_map.mp hin
          obtain ⟨before', later', hsplit'⟩ := List.append_of_mem hc
          refine .head ⟨_, hentry hs, rfl, hbec⟩ ?_
          rw [← hstep]
          exact ih j (Wave.lt_of_not_mem hnot hk) before' c later' hsplit' (by rwa [hstep])
        · -- Attributed to its least need in the set, which is in the same wave and out before.
          have hreg : ¬ Regenerated r steps target s.step := by
            intro hreg
            obtain ⟨e, he, hp⟩ := hregenerated _ hreg
            exact hno e he hp
          have hset : ∀ m, m ∈ (widenWith r.present steps (steps.map r.consumption)
              (steps.length + 1) (invalidationSet target steps) []).1 ↔
                ∃ k, m ∈ Wave r steps target k := by
            intro m
            rw [← hwaves m]
            simp [planWith, sortIds]
          have hstep := (mem_planOrder.mp hs).1
          obtain ⟨a, ha, s', hs', hsame, hneed⟩ := Wave.exists_need hk ht hreg
          obtain rfl := List.inj_on_of_nodup_map hids hs' hstep hsame
          cases hhead : (sortIds (s'.needs.filter fun n => n ∈ (widenWith r.present steps
              (steps.map r.consumption) (steps.length + 1) (invalidationSet target steps) []).1)).head?
            with
          | none =>
            have hmem : a ∈ s'.needs.filter fun n => n ∈ (widenWith r.present steps
                (steps.map r.consumption) (steps.length + 1) (invalidationSet target steps) []).1 :=
              List.mem_filter.mpr ⟨hneed, by simpa using (hset a).mpr ⟨k, ha⟩⟩
            rw [← List.mem_insertionSort fun a b : StepId => a.text ≤ b.text] at hmem
            rw [sortIds, List.head?_eq_none_iff] at hhead
            rw [hhead] at hmem
            cases hmem
          | some n =>
            obtain ⟨hn, hmin⟩ := head_sortIds hhead
            rw [List.mem_filter, decide_eq_true_eq] at hn
            have hleast : LeastNeed steps {y | ∃ j, y ∈ Wave r steps target j} s'.step n := by
              refine ⟨s', hstep, rfl, hn.1, (hset n).mp hn.2, fun m hm hin => hmin m ?_⟩
              exact List.mem_filter.mpr ⟨hm, by simpa using (hset m).mpr hin⟩
            have hnk := hfirst k _ hk ht hreg n hleast
            have hbefore := planOrder_after hids htarget hacyclic hsplit
              ((hwaves n).mpr ⟨k, hnk⟩) ⟨s', hstep, rfl, hn.1⟩
            obtain ⟨x, hx, rfl⟩ := List.mem_map.mp hbefore
            obtain ⟨front, back, rfl⟩ := List.append_of_mem hx
            refine .head ⟨_, hentry hs, rfl, hbec.trans hhead⟩ ?_
            refine ihlen front.length ?_ front rfl x (back ++ s' :: later) ?_ hnk
            · rw [← hlen]
              simp
            · rw [hsplit]
              simp
  intro e he
  rw [planWith_steps] at he
  obtain ⟨s, hs, rfl⟩ := List.mem_map.mp he
  obtain ⟨before, later, hsplit⟩ := List.append_of_mem hs
  obtain ⟨k, hk⟩ := (hwaves s.step).mp (mem_planOrder.mp hs).2
  exact hall k before s later hsplit hk

/-- For every run and store: the plan is ordered and says the right reasons, and its links lead
back to the target if no step joins before the need it is attributed to. -/
theorem planRerunOver_faithful {run : RunId} {ans : (c : Cmd) → Resp c} (h : r.Answers run ans)
    (snapshots : Bool) (hids : (steps.map (·.step)).Nodup)
    (htarget : ∃ s ∈ steps, s.step = target) (hacyclic : ∀ a, ¬ TransGen (Needs steps) a a) :
    ∃ plan, (planRerunOver snapshots run target steps).eval ans = .ok plan ∧
      plan.Ordered steps ∧
        (NeedsJoinFirst (r.asSeen snapshots) steps target → plan.Attributed) := by
  refine ⟨_, eval_planRerunOver_seen h snapshots, ?_, ?_⟩
  · exact planWith_ordered hids htarget hacyclic
  · exact planWith_attributed hids htarget hacyclic

/-- While every snapshot is there, nothing joins after the first wave. -/
theorem needsJoinFirst_of_present (hpresent : ∀ root, r.present root = true) :
    NeedsJoinFirst r steps target := by
  have hstop : ∀ j x, x ∈ Wave r steps target j → x ∈ Wave r steps target 0 := by
    intro j
    induction j with
    | zero => exact fun _ h => h
    | succ j ih =>
      rintro x (hx | ⟨p, ⟨-, root, -, hgone⟩, -⟩)
      · exact ih x hx
      · rw [hpresent root] at hgone
        cases hgone
  rintro k x - - - n ⟨-, -, -, -, ⟨j, hj⟩, -⟩
  exact Wave.mono (Nat.zero_le k) (hstop j n hj)

end plan

theorem needs_joinSteps {a b : StepId} (h : Needs joinSteps a b) :
    b = ⟨['c']⟩ ∧ (a = stepA ∨ a = stepB) := by
  obtain ⟨s, hs, rfl, hneed⟩ := h
  simp only [joinSteps, List.mem_cons, List.not_mem_nil, or_false] at hs
  rcases hs with rfl | rfl | rfl
  · cases hneed
  · cases hneed
  · simpa [bareStep] using hneed

theorem joinSteps_acyclic (a : StepId) : ¬ TransGen (Needs joinSteps) a a := by
  intro h
  obtain ⟨b, -, hlast⟩ := TransGen.tail'_iff.mp h
  obtain ⟨c, hfirst, -⟩ := TransGen.head'_iff.mp h
  have hc := (needs_joinSteps hlast).1
  rcases (needs_joinSteps hfirst).2 with ha | ha
  · exact absurd (hc.symm.trans ha) (by decide)
  · exact absurd (hc.symm.trans ha) (by decide)

/-- A rerun of `b` that asks no oracle. -/
theorem planRerunOver_faithful_join : ∃ plan,
    (planRerunOver false runR stepB joinSteps).eval aGone.answer = .ok plan ∧ plan.Attributed := by
  obtain ⟨plan, hplan, -, hattr⟩ := @planRerunOver_faithful aGone stepB joinSteps runR aGone.answer
    (aGone.answer_answers runR) false (by decide) ⟨bareStep stepB [], by simp [joinSteps], rfl⟩
    joinSteps_acyclic
  exact ⟨plan, hplan, hattr (needsJoinFirst_of_present fun _ => rfl)⟩

/-- `c` re-executes because of the rerun of `b`, but is attributed to `a`, which re-executes
because of `c`. -/
theorem reasons_in_a_circle : ¬ ∀ (r : Recorded) (run : RunId) (ans : (c : Cmd) → Resp c)
    (target : StepId) (steps : List StepRun), r.Answers run ans → (steps.map (·.step)).Nodup →
      (∃ s ∈ steps, s.step = target) → (∀ a, ¬ TransGen (Needs steps) a a) →
        ∃ plan, (planRerunOver true run target steps).eval ans = .ok plan ∧
          plan.Ordered steps ∧ plan.Attributed := by
  intro hall
  obtain ⟨plan, hplan, -, hattr⟩ := hall aGone runR aGone.answer stepB joinSteps
    (aGone.answer_answers runR) (by decide) ⟨bareStep stepB [], by simp [joinSteps], rfl⟩
    joinSteps_acyclic
  obtain rfl := Except.ok.inj ((eval_planRerunOver (aGone.answer_answers runR) _ _).symm.trans hplan)
  have hlinks : ∀ e ∈ (planWith aGone stepB joinSteps).steps, e.step = stepA ∨ e.step = ⟨['c']⟩ →
      ∀ b, e.becauseOf = some b → b = stepA ∨ b = ⟨['c']⟩ := by decide +kernel
  have hkept : ∀ b, ReflTransGen (planWith aGone stepB joinSteps).Because ⟨['c']⟩ b →
      b = stepA ∨ b = ⟨['c']⟩ := by
    intro b hpath
    induction hpath with
    | refl => exact .inr rfl
    | tail _ hlink ih =>
      obtain ⟨e, he, rfl, hb⟩ := hlink
      exact hlinks e he ih _ hb
  have hc : ∃ e ∈ (planWith aGone stepB joinSteps).steps, e.step = ⟨['c']⟩ := by decide +kernel
  obtain ⟨e, he, hstep⟩ := hc
  have hpath := hattr e he
  rw [hstep] at hpath
  exact absurd (hkept stepB hpath) (by decide)

end Scarab.Engine
