import Scarab.EngineCalls

/-!
# What a rerun re-executes

The set a rerun plan invalidates is the least one that holds the target, every step that
needs a member, and every producer a member consumes whose snapshot is gone.
-/
namespace Scarab.Engine

open Interleave Relation

/-- `b` needs `a`. -/
def Needs (steps : List StepRun) (a b : StepId) : Prop := ∃ s ∈ steps, s.step = b ∧ a ∈ s.needs

/-- The steps that are not in a set yet. -/
def outside (steps : List StepRun) (set : List StepId) : ℕ := steps.countP fun s => s.step ∉ set

theorem outside_le {steps : List StepRun} {set set' : List StepId} (h : set ⊆ set') :
    outside steps set' ≤ outside steps set := by
  refine List.countP_mono_left fun s _ hs => ?_
  simp only [decide_eq_true_eq] at hs ⊢
  exact fun hmem => hs (h hmem)

theorem outside_lt {steps : List StepRun} {set set' : List StepId} {s : StepRun} (h : set ⊆ set')
    (hs : s ∈ steps) (hnot : s.step ∉ set) (hin : s.step ∈ set') :
    outside steps set' < outside steps set := by
  obtain ⟨front, back, rfl⟩ := List.append_of_mem hs
  have hfront : outside front set' ≤ outside front set := outside_le h
  have hback : outside back set' ≤ outside back set := outside_le h
  simp only [outside, List.countP_append, List.countP_cons, hnot, hin, not_true_eq_false,
    not_false_eq_true, decide_true, decide_false, if_true] at hfront hback ⊢
  simp only [Bool.false_eq_true, if_false]
  omega

section descendants

variable {steps : List StepRun} {target x : StepId} {set : List StepId}

theorem subset_invalidationPass : set ⊆ invalidationPass steps set := by
  unfold invalidationPass
  induction steps generalizing set with
  | nil => exact fun _ h => h
  | cons s steps ih =>
    simp only [List.foldl_cons]
    split_ifs
    · exact fun y hy => ih (List.mem_append_left _ hy)
    · exact ih

theorem invalidationPass_joins {s : StepRun} {n : StepId} (hs : s ∈ steps) (hn : n ∈ s.needs)
    (hset : n ∈ set) : s.step ∈ invalidationPass steps set := by
  unfold invalidationPass
  induction steps generalizing set with
  | nil => cases hs
  | cons s' steps ih =>
    simp only [List.foldl_cons]
    rcases List.mem_cons.mp hs with rfl | hs
    · have hany : s.needs.any (· ∈ set) = true :=
        List.any_eq_true.mpr ⟨n, hn, by simpa using hset⟩
      split_ifs with hjoin
      · exact subset_invalidationPass (by simp)
      · have hin : s.step ∈ set := by
          by_contra hnot
          exact hjoin ⟨hnot, hany⟩
        exact subset_invalidationPass hin
    · split_ifs
      · exact ih hs (List.mem_append_left _ hset)
      · exact ih hs hset

/-- A sweep reaches only steps behind the set. -/
theorem invalidationPass_sound {P : StepId → Prop} (hP : ∀ a b, P a → Needs steps a b → P b)
    (hset : ∀ y ∈ set, P y) : ∀ y ∈ invalidationPass steps set, P y := by
  unfold invalidationPass
  have hgen : ∀ part : List StepRun, part ⊆ steps → ∀ set : List StepId, (∀ y ∈ set, P y) →
      ∀ y ∈ part.foldl (fun inv s => if s.step ∉ inv ∧ s.needs.any (· ∈ inv) then inv ++ [s.step]
        else inv) set, P y := by
    intro part
    induction part with
    | nil => exact fun _ set hset => hset
    | cons s part ih =>
      intro hpart set hset
      simp only [List.foldl_cons]
      refine ih (fun y hy => hpart (List.mem_cons_of_mem _ hy)) _ ?_
      split_ifs with hjoin
      · intro y hy
        rcases List.mem_append.mp hy with hy | hy
        · exact hset y hy
        · obtain ⟨n, hn, hnset⟩ := List.any_eq_true.mp hjoin.2
          rw [List.mem_singleton.mp hy]
          exact hP n _ (hset n (by simpa using hnset)) ⟨s, hpart List.mem_cons_self, rfl, hn⟩
      · exact hset
  exact hgen steps (fun _ h => h) set hset

/-- Every sweep has closed the set or taken a step in. -/
theorem invalidationPass_progress : invalidationPass steps set ⊆ set ∨
    outside steps (invalidationPass steps set) < outside steps set := by
  by_cases hsub : invalidationPass steps set ⊆ set
  · exact .inl hsub
  · obtain ⟨y, hy, hnot⟩ : ∃ y ∈ invalidationPass steps set, y ∉ set := by
      by_contra hall
      push Not at hall
      exact hsub hall
    have hstep : ∀ y ∈ invalidationPass steps set, y ∈ set ∨ ∃ s ∈ steps, s.step = y := by
      refine invalidationPass_sound ?_ fun y hy => .inl hy
      rintro a b - ⟨s, hs, rfl, -⟩
      exact .inr ⟨s, hs, rfl⟩
    rcases hstep y hy with hmem | ⟨s, hs, rfl⟩
    · exact absurd hmem hnot
    · exact .inr (outside_lt subset_invalidationPass hs hnot hy)

theorem invalidationPass_of_subset (h : invalidationPass steps set ⊆ set) :
    invalidationPass steps (invalidationPass steps set) ⊆ invalidationPass steps set := by
  refine invalidationPass_sound (P := fun y => y ∈ invalidationPass steps set) ?_ fun y hy => hy
  rintro a b ha ⟨s, hs, rfl, hn⟩
  exact invalidationPass_joins hs hn (h ha)

/-- Enough sweeps close the set. -/
theorem invalidationPass_iterate (n : ℕ) (h : outside steps set ≤ n) :
    invalidationPass steps ((invalidationPass steps)^[n] set) ⊆
      (invalidationPass steps)^[n] set := by
  induction n generalizing set with
  | zero =>
    rcases @invalidationPass_progress steps set with hsub | hlt
    · exact hsub
    · omega
  | succ n ih =>
    rw [Function.iterate_succ_apply]
    rcases @invalidationPass_progress steps set with hsub | hlt
    · have hfix : ∀ n set, invalidationPass steps set ⊆ set →
          invalidationPass steps ((invalidationPass steps)^[n] set) ⊆
            (invalidationPass steps)^[n] set := by
        intro n
        induction n with
        | zero => exact fun _ h => h
        | succ n ihn =>
          intro set hset
          rw [Function.iterate_succ_apply]
          exact ihn _ (invalidationPass_of_subset hset)
      exact hfix n _ (invalidationPass_of_subset hsub)
    · exact ih (by omega)

/-- The invalidation set is the target and all that transitively needs it. -/
theorem mem_invalidationSet : x ∈ invalidationSet target steps ↔
    ReflTransGen (Needs steps) target x := by
  unfold invalidationSet
  constructor
  · suffices hall : ∀ n set, (∀ y ∈ set, ReflTransGen (Needs steps) target y) →
        ∀ y ∈ (invalidationPass steps)^[n] set, ReflTransGen (Needs steps) target y by
      exact hall _ _ (by simp [ReflTransGen.refl]) x
    intro n
    induction n with
    | zero => exact fun _ h => h
    | succ n ih =>
      intro set hset
      rw [Function.iterate_succ_apply]
      exact ih _ (invalidationPass_sound (fun _ _ ha hab => ha.tail hab) hset)
  · intro hpath
    have hclosed := @invalidationPass_iterate steps [target] steps.length List.countP_le_length
    have hstart : ∀ n set, target ∈ set → target ∈ (invalidationPass steps)^[n] set := by
      intro n
      induction n with
      | zero => exact fun _ h => h
      | succ n ih =>
        intro set hset
        rw [Function.iterate_succ_apply]
        exact ih _ (subset_invalidationPass hset)
    induction hpath with
    | refl => exact hstart _ _ List.mem_cons_self
    | tail _ hneed ih =>
      obtain ⟨s, hs, rfl, hn⟩ := hneed
      exact hclosed (invalidationPass_joins hs hn ih)

end descendants

/-- The declared inputs and recorded outputs of a run's steps, and the snapshots in the store. -/
structure Recorded where
  inputs : StepId → Option (List StepId)
  output : StepId → Option Text
  present : Text → Bool

namespace Recorded

variable (r : Recorded)

def consumes (s : StepRun) : List StepId := (r.inputs s.step).getD s.needs

def consumption (s : StepRun) : Consumption := ⟨s.step, r.consumes s, r.output s.step⟩

/-- A step of the run whose recorded output is not in the store. -/
def Gone (steps : List StepRun) (p : StepId) : Prop :=
  (∃ s ∈ steps, s.step = p) ∧ ∃ root, r.output p = some root ∧ r.present root = false

/-- The reads and the oracle answer from what is recorded. -/
structure Answers (run : RunId) (ans : (c : Cmd) → Resp c) : Prop where
  inputs : ∀ step, ans (.read (.stepInputs run step)) = .ok (r.inputs step)
  output : ∀ step, ans (.read (.stepOutput run step)) = .ok (r.output step)
  present : ∀ root, ans (.ask (.snapshotPresent root)) = r.present root

/-- Everything a member consumes is re-executed or still there. -/
structure Provisionable (steps : List StepRun) (target : StepId) (S : Set StepId) : Prop where
  target : target ∈ S
  dependents : ∀ a ∈ S, ∀ b, Needs steps a b → b ∈ S
  producers : ∀ s ∈ steps, s.step ∈ S → ∀ p ∈ r.consumes s, r.Gone steps p → p ∈ S

end Recorded

/-- `probe` against an oracle that always answers the same. -/
def probeWith (present : Text → Bool) : List (StepId × StepId × Text) → List StepId →
    List ExpiredInput → List StepId × List ExpiredInput
  | [], roots, expired => (roots, expired)
  | (consumer, producer, root) :: rest, roots, expired =>
      if !present root ∧ producer ∉ roots then
        probeWith present rest (roots ++ [producer]) (expired ++ [⟨consumer, producer, root⟩])
      else probeWith present rest roots expired

/-- A set with the invalidation sets of new roots. -/
def addRoots (steps : List StepRun) (roots invalid : List StepId) : List StepId :=
  roots.foldl (fun inv r => inv ++ (invalidationSet r steps).filter (· ∉ inv)) invalid

/-- `widen` against an oracle that always answers the same. -/
def widenWith (present : Text → Bool) (steps : List StepRun) (cs : List Consumption) :
    ℕ → List StepId → List ExpiredInput → List StepId × List ExpiredInput
  | 0, invalid, expired => (invalid, expired)
  | n + 1, invalid, expired =>
      let found := probeWith present (boundary cs invalid) [] expired
      if found.1 = [] then (invalid, found.2)
      else widenWith present steps cs n (addRoots steps found.1 invalid) found.2

section answered

variable {r : Recorded} {run : RunId} {ans : (c : Cmd) → Resp c} (h : r.Answers run ans)
include h

theorem eval_snapshotKnown {cache : List (Text × Bool)} (hcache : ∀ e ∈ cache, e.2 = r.present e.1)
    (root : Text) : ∃ cache', (snapshotKnown cache root).eval ans =
      .ok (r.present root, cache') ∧ ∀ e ∈ cache', e.2 = r.present e.1 := by
  unfold snapshotKnown
  cases hfind : cache.find? (·.1 = root) with
  | some e =>
    have hmem := List.mem_of_find?_eq_some hfind
    have hroot : e.1 = root := by simpa using List.find?_some hfind
    refine ⟨cache, ?_, hcache⟩
    rw [← hroot, ← hcache e hmem]
    rfl
  | none =>
    refine ⟨(root, r.present root) :: cache, ?_, ?_⟩
    · have hask : (ask (.snapshotPresent root)).eval ans = .ok (r.present root) :=
        congrArg Except.ok (h.present root)
      exact Prog.eval_bind ans hask
    · intro e he
      rcases List.mem_cons.mp he with rfl | he
      · rfl
      · exact hcache e he

theorem eval_probe (edges : List (StepId × StepId × Text)) {cache : List (Text × Bool)}
    (hcache : ∀ e ∈ cache, e.2 = r.present e.1) (roots : List StepId)
    (expired : List ExpiredInput) : ∃ cache', (probe edges cache roots expired).eval ans =
      .ok (cache', probeWith r.present edges roots expired) ∧ ∀ e ∈ cache', e.2 = r.present e.1 := by
  induction edges generalizing cache roots expired with
  | nil => exact ⟨cache, rfl, hcache⟩
  | cons edge edges ih =>
    obtain ⟨consumer, producer, root⟩ := edge
    obtain ⟨cache', hknown, hcache'⟩ := eval_snapshotKnown h hcache root
    rw [probe, Prog.bind_eq, Prog.eval_bind ans hknown, probeWith]
    dsimp only
    split_ifs
    · exact ih hcache' _ _
    · exact ih hcache' _ _

theorem eval_widen (steps : List StepRun) (cs : List Consumption) (n : ℕ) (invalid : List StepId)
    {cache : List (Text × Bool)} (hcache : ∀ e ∈ cache, e.2 = r.present e.1)
    (expired : List ExpiredInput) : (widen steps cs n invalid cache expired).eval ans =
      .ok (widenWith r.present steps cs n invalid expired) := by
  induction n generalizing invalid cache expired with
  | zero => rfl
  | succ n ih =>
    obtain ⟨cache', hprobe, hcache'⟩ := eval_probe h (boundary cs invalid) hcache [] expired
    rw [widen, Prog.bind_eq, Prog.eval_bind ans hprobe, widenWith]
    dsimp only
    split_ifs
    · rfl
    · exact ih _ hcache' _

theorem eval_readConsumption (s : StepRun) :
    (readConsumption run s).eval ans = .ok (r.consumption s) := by
  have hin : (read (.stepInputs run s.step)).eval ans = .ok (r.inputs s.step) := by
    simp [read, h.inputs, orDb]
  have hout : (read (.stepOutput run s.step)).eval ans = .ok (r.output s.step) := by
    simp [read, h.output, orDb]
  rw [readConsumption, Prog.bind_eq, Prog.eval_bind ans hin, Prog.bind_eq, Prog.eval_bind ans hout]
  rfl

end answered

section widening

variable {r : Recorded} {steps : List StepRun} {invalid : List StepId}

theorem mem_addRoots {roots : List StepId} {x : StepId} : x ∈ addRoots steps roots invalid ↔
    x ∈ invalid ∨ ∃ p ∈ roots, ReflTransGen (Needs steps) p x := by
  unfold addRoots
  induction roots generalizing invalid with
  | nil => simp
  | cons p roots ih =>
    rw [List.foldl_cons, ih]
    have hjoin : x ∈ invalid ++ (invalidationSet p steps).filter (· ∉ invalid) ↔
        x ∈ invalid ∨ ReflTransGen (Needs steps) p x := by
      simp only [List.mem_append, List.mem_filter, mem_invalidationSet, decide_eq_true_eq]
      tauto
    rw [hjoin]
    simp only [List.mem_cons, exists_eq_or_imp, or_assoc]

/-- The absent producers among the boundary edges become roots. -/
theorem mem_probeWith {present : Text → Bool} {edges : List (StepId × StepId × Text)}
    {roots : List StepId} {expired : List ExpiredInput} {p : StepId} :
    p ∈ (probeWith present edges roots expired).1 ↔
      p ∈ roots ∨ ∃ consumer root, (consumer, p, root) ∈ edges ∧ present root = false := by
  induction edges generalizing roots expired with
  | nil => simp [probeWith]
  | cons edge edges ih =>
    obtain ⟨consumer, producer, root⟩ := edge
    rw [probeWith]
    have hcons : (∃ c t, (c, p, t) ∈ (consumer, producer, root) :: edges ∧ present t = false) ↔
        (p = producer ∧ present root = false) ∨
          ∃ c t, (c, p, t) ∈ edges ∧ present t = false := by
      simp only [List.mem_cons, Prod.mk.injEq, or_and_right, exists_or]
      refine or_congr_left ⟨?_, ?_⟩
      · rintro ⟨c, t, ⟨rfl, rfl, rfl⟩, hgone⟩
        exact ⟨rfl, hgone⟩
      · rintro ⟨rfl, hgone⟩
        exact ⟨consumer, root, ⟨rfl, rfl, rfl⟩, hgone⟩
    rw [hcons]
    split_ifs with hnew
    · simp only [Bool.not_eq_true'] at hnew
      rw [ih, List.mem_append, List.mem_singleton, or_assoc]
      simp [hnew.1]
    · rw [ih]
      simp only [Bool.not_eq_true', not_and, not_not] at hnew
      refine ⟨fun h => h.imp_right .inr, ?_⟩
      rintro (h | ⟨rfl, hgone⟩ | h)
      · exact .inl h
      · exact .inl (hnew hgone)
      · exact .inr h

theorem outputOf_consumption {p : StepId} {root : Text} :
    outputOf (steps.map r.consumption) p = some root ↔
      (∃ s ∈ steps, s.step = p) ∧ r.output p = some root := by
  unfold outputOf
  constructor
  · intro h
    obtain ⟨c, hfind, hout⟩ := Option.bind_eq_some_iff.mp h
    obtain ⟨s, hs, rfl⟩ := List.mem_map.mp (List.mem_of_find?_eq_some hfind)
    have htest := List.find?_some hfind
    have hstep : s.step = p := of_decide_eq_true htest
    subst hstep
    exact ⟨⟨s, hs, rfl⟩, hout⟩
  · rintro ⟨⟨s, hs, rfl⟩, hout⟩
    cases hfind : (steps.map r.consumption).find? (·.step = s.step) with
    | none =>
      have hnone := List.find?_eq_none.mp hfind (r.consumption s) (List.mem_map_of_mem hs)
      simp [Recorded.consumption] at hnone
    | some c =>
      obtain ⟨s', -, rfl⟩ := List.mem_map.mp (List.mem_of_find?_eq_some hfind)
      have htest := List.find?_some hfind
      have hstep : s'.step = s.step := of_decide_eq_true htest
      simpa [Recorded.consumption, hstep] using hout

theorem mem_boundary {consumer p : StepId} {root : Text} :
    (consumer, p, root) ∈ boundary (steps.map r.consumption) invalid ↔
      ∃ s ∈ steps, s.step = consumer ∧ consumer ∈ invalid ∧ p ∈ r.consumes s ∧ p ∉ invalid ∧
        (∃ s ∈ steps, s.step = p) ∧ r.output p = some root := by
  unfold boundary
  simp only [List.mem_insertionSort, List.mem_dedup, List.mem_flatMap, List.mem_map]
  constructor
  · rintro ⟨c, ⟨s, hs, rfl⟩, hmem⟩
    split_ifs at hmem with hin
    · obtain ⟨q, hq, hout⟩ := List.mem_filterMap.mp hmem
      obtain ⟨root', hroot, heq⟩ := Option.map_eq_some_iff.mp hout
      simp only [Prod.mk.injEq] at heq
      obtain ⟨rfl, rfl, rfl⟩ := heq
      obtain ⟨hq, hnot⟩ := List.mem_filter.mp hq
      exact ⟨s, hs, rfl, hin, hq, by simpa using hnot, outputOf_consumption.mp hroot⟩
    · cases hmem
  · rintro ⟨s, hs, rfl, hin, hp, hnot, hout⟩
    refine ⟨r.consumption s, ⟨s, hs, rfl⟩, ?_⟩
    rw [if_pos (by exact hin)]
    refine List.mem_filterMap.mpr ⟨p, List.mem_filter.mpr ⟨hp, by simpa using hnot⟩, ?_⟩
    rw [outputOf_consumption.mpr hout]
    rfl

/-- A root of one round: a producer outside the set whose snapshot is gone and which a member
consumes. -/
theorem mem_roots {expired : List ExpiredInput} {p : StepId} :
    p ∈ (probeWith r.present (boundary (steps.map r.consumption) invalid) [] expired).1 ↔
      p ∉ invalid ∧ r.Gone steps p ∧ ∃ s ∈ steps, s.step ∈ invalid ∧ p ∈ r.consumes s := by
  simp only [mem_probeWith, mem_boundary, List.not_mem_nil, false_or, Recorded.Gone]
  constructor
  · rintro ⟨_, root, ⟨s, hs, rfl, hin, hp, hnot, hstep, hout⟩, hgone⟩
    exact ⟨hnot, ⟨hstep, root, hout, hgone⟩, s, hs, hin, hp⟩
  · rintro ⟨hnot, ⟨hstep, root, hout, hgone⟩, s, hs, hin, hp⟩
    exact ⟨s.step, root, ⟨s, hs, rfl, hin, hp, hnot, hstep, hout⟩, hgone⟩

/-- With a round left for every step outside, widening ends on the least provisionable set
above the one it starts from. -/
theorem widenWith_least {target : StepId} {n : ℕ} {expired : List ExpiredInput}
    (hfuel : outside steps invalid < n) (htarget : target ∈ invalid)
    (hclosed : ∀ a ∈ invalid, ∀ b, Needs steps a b → b ∈ invalid)
    (hleast : ∀ S, r.Provisionable steps target S → ∀ x ∈ invalid, x ∈ S) :
    IsLeast {S | r.Provisionable steps target S}
      {x | x ∈ (widenWith r.present steps (steps.map r.consumption) n invalid expired).1} := by
  induction n generalizing invalid expired with
  | zero => omega
  | succ n ih =>
    rw [widenWith]
    have hroots := fun p => @mem_roots r steps invalid expired p
    generalize probeWith r.present (boundary (steps.map r.consumption) invalid) [] expired = found
      at hroots ⊢
    split_ifs with hnone
    · refine ⟨⟨htarget, hclosed, ?_⟩, fun S hS x hx => hleast S hS x hx⟩
      intro s hs hin p hp hgone
      by_contra hnot
      have hmem := (hroots p).mpr ⟨hnot, hgone, s, hs, hin, hp⟩
      rw [hnone] at hmem
      cases hmem
    · refine ih ?_ ?_ ?_ ?_
      · obtain ⟨p, hp⟩ := List.exists_mem_of_ne_nil _ hnone
        obtain ⟨hnot, ⟨⟨s, hs, rfl⟩, -⟩, -⟩ := (hroots p).mp hp
        have hgrow : invalid ⊆ addRoots steps found.1 invalid :=
          fun x hx => mem_addRoots.mpr (.inl hx)
        have hlt := outside_lt hgrow hs hnot (mem_addRoots.mpr (.inr ⟨_, hp, .refl⟩))
        omega
      · exact mem_addRoots.mpr (.inl htarget)
      · intro a ha b hab
        rcases mem_addRoots.mp ha with ha | ⟨p, hp, hpath⟩
        · exact mem_addRoots.mpr (.inl (hclosed a ha b hab))
        · exact mem_addRoots.mpr (.inr ⟨p, hp, hpath.tail hab⟩)
      · intro S hS x hx
        rcases mem_addRoots.mp hx with hx | ⟨p, hp, hpath⟩
        · exact hleast S hS x hx
        · obtain ⟨-, hgone, s, hs, hin, hcon⟩ := (hroots p).mp hp
          have hpS := hS.producers s hs (hleast S hS _ hin) p hcon hgone
          induction hpath with
          | refl => exact hpS
          | tail _ hab ihp =>
            exact hS.dependents _ (ihp (mem_addRoots.mpr (.inr ⟨p, hp, by assumption⟩))) _ hab

end widening

/-- The plan as a function of what is recorded. -/
def planWith (r : Recorded) (target : StepId) (steps : List StepRun) : RerunPlan :=
  let base := invalidationSet target steps
  let found := widenWith r.present steps (steps.map r.consumption) (steps.length + 1) base []
  { target := target
    invalidated := sortIds found.1
    widened := sortIds (found.1.filter (· ∉ base))
    expired := found.2
    startsFrom := sortIds ((steps.filter fun s =>
      s.step ∈ found.1 ∧ !s.needs.any (· ∈ found.1)).map (·.step))
    steps := plannedSteps target steps found.1 base found.2 }

theorem eval_planRerunOver {r : Recorded} {run : RunId} {ans : (c : Cmd) → Resp c}
    (h : r.Answers run ans) (target : StepId) (steps : List StepRun) :
    (planRerunOver true run target steps).eval ans = .ok (planWith r target steps) := by
  have hread := Prog.eval_collect ans fun s (_ : s ∈ steps) => eval_readConsumption h s
  have hset : (widenedSet true run target steps).eval ans =
      .ok (widenWith r.present steps (steps.map r.consumption) (steps.length + 1)
        (invalidationSet target steps) []) := by
    rw [widenedSet, if_pos rfl, Prog.bind_eq, Prog.eval_bind ans hread]
    exact eval_widen h steps _ _ _ (by simp) _
  rw [planRerunOver, Prog.bind_eq, Prog.eval_bind ans hset]
  rfl

theorem planWith_least (r : Recorded) (target : StepId) (steps : List StepRun) :
    IsLeast {S | r.Provisionable steps target S} {x | x ∈ (planWith r target steps).invalidated} := by
  have hset : {x | x ∈ (planWith r target steps).invalidated} =
      {x | x ∈ (widenWith r.present steps (steps.map r.consumption) (steps.length + 1)
        (invalidationSet target steps) []).1} := by
    ext x
    simp [planWith, sortIds]
  rw [hset]
  refine widenWith_least ?_ (mem_invalidationSet.mpr .refl) ?_ ?_
  · exact Nat.lt_succ_of_le List.countP_le_length
  · intro a ha b hab
    exact mem_invalidationSet.mpr ((mem_invalidationSet.mp ha).tail hab)
  · intro S hS x hx
    have hpath := mem_invalidationSet.mp hx
    induction hpath with
    | refl => exact hS.target
    | tail hpath hab ih => exact hS.dependents _ (ih (mem_invalidationSet.mpr hpath)) _ hab

/-- For every store the plan comes out, its set is the least provisionable one, and what is
widened is what the target's own descendants do not explain. -/
theorem planRerunOver_least {r : Recorded} {run : RunId} {ans : (c : Cmd) → Resp c}
    (h : r.Answers run ans) (target : StepId) (steps : List StepRun) :
    ∃ plan, (planRerunOver true run target steps).eval ans = .ok plan ∧
      IsLeast {S | r.Provisionable steps target S} {x | x ∈ plan.invalidated} ∧
      (∀ s ∈ steps, s.step ∈ plan.invalidated → ∀ p ∈ r.consumes s, p ∉ plan.invalidated →
        (∃ s' ∈ steps, s'.step = p) → ∀ root, r.output p = some root → r.present root = true) ∧
      ∀ x, x ∈ plan.widened ↔
        x ∈ plan.invalidated ∧ ¬ ReflTransGen (Needs steps) target x := by
  have hleast := planWith_least r target steps
  refine ⟨_, eval_planRerunOver h target steps, hleast, ?_, ?_⟩
  · intro s hs hin p hp hnot hstep root hout
    by_contra hgone
    exact hnot (hleast.1.producers s hs hin p hp ⟨hstep, root, hout, by simpa using hgone⟩)
  · intro x
    simp only [planWith, sortIds, List.mem_insertionSort, List.mem_filter, decide_eq_true_eq,
      mem_invalidationSet]

/-- The recorded facts as answers; the plan asks nothing else. -/
def Recorded.answer (r : Recorded) : (c : Cmd) → Resp c
  | .read (.stepInputs _ step) => .ok (r.inputs step)
  | .read (.stepOutput _ step) => .ok (r.output step)
  | .read _ => .error .conflict
  | .write _ => .error .conflict
  | .ask (.snapshotPresent root) => r.present root
  | .ask q => calmReply .running none q

theorem Recorded.answer_answers (r : Recorded) (run : RunId) : r.Answers run r.answer :=
  ⟨fun _ => rfl, fun _ => rfl, fun _ => rfl⟩

/-- A step on its own, with its needs. -/
def bareStep (step : StepId) (needs : List StepId) : StepRun :=
  ⟨runR, step, .succeeded, [], needs, none⟩

/-- `c` needs `a` and `b`. -/
def joinSteps : List StepRun :=
  [bareStep stepA [], bareStep stepB [], bareStep ⟨['c']⟩ [stepA, stepB]]

/-- Only `a` has an output, and its snapshot is gone. -/
def aGone : Recorded where
  inputs _ := none
  output step := if step = stepA then some ['x'] else none
  present _ := false

/-- A rerun of `b` takes `c` with it, and `c` the producer `a`. -/
theorem planRerunOver_least_join : ∃ plan,
    (planRerunOver true runR stepB joinSteps).eval aGone.answer = .ok plan ∧
      stepA ∈ plan.invalidated := by
  obtain ⟨plan, hplan, hleast, -⟩ :=
    planRerunOver_least (aGone.answer_answers runR) stepB joinSteps
  have hc : (⟨['c']⟩ : StepId) ∈ plan.invalidated :=
    hleast.1.dependents stepB hleast.1.target _
      ⟨bareStep ⟨['c']⟩ [stepA, stepB], by simp [joinSteps], rfl, by simp [bareStep]⟩
  refine ⟨plan, hplan, ?_⟩
  refine hleast.1.producers (bareStep ⟨['c']⟩ [stepA, stepB]) (by simp [joinSteps]) hc stepA ?_ ?_
  · simp [Recorded.consumes, aGone, bareStep]
  · exact ⟨⟨bareStep stepA [], by simp [joinSteps], rfl⟩, ['x'], by simp [aGone], rfl⟩

end Scarab.Engine
