import Scarab.PipelineCycles

/-!
# Cycle detection is exact

The removal stops at the steps that lead to no cycle, each after its needs. No counter is lowered
below zero on the way, and the rounds suffice to empty the queue.
-/
namespace Scarab.Pipeline

open Relation

/-- Meet one need of `dep`, where its counter is there and is not zero. -/
def relaxChecked (k : Kahn) (dep : Text) : Option Kahn :=
  match k.indegree.get dep with
  | some (d + 1) => some { k with
      indegree := k.indegree.insert dep d
      queue := if d = 0 then dep :: k.queue else k.queue }
  | _ => none

/-- Pop until the queue is empty, in at most so many rounds. -/
def removeFreeChecked (dependents : SortedMap Text (List Text)) : ℕ → Kahn → Option Kahn
  | 0, k => if k.queue = [] then some k else none
  | n + 1, k =>
      match k.queue with
      | [] => some k
      | node :: rest =>
          (((dependents.get node).getD []).foldlM relaxChecked
            { k with queue := rest, removed := k.removed + 1 }).bind
              (removeFreeChecked dependents n)

def startKahn (steps : List StepSpec) : Kahn :=
  ⟨indegrees steps, (((indegrees steps).entries.filter (·.2 = 0)).map (·.1)).reverse, 0⟩

def findCycleChecked (steps : List StepSpec) : Option (Option (List Text)) :=
  (removeFreeChecked (dependentsOf steps) steps.length (startKahn steps)).map fun k =>
    if k.removed = steps.length then none
    else some ((k.indegree.entries.filter (·.2 > 0)).map (·.1))

theorem relaxChecked_eq {k : Kahn} {dep : Text} (h : 0 < k.left dep) :
    relaxChecked k dep = some (relax k dep) := by
  unfold Kahn.left at h
  unfold relaxChecked relax
  cases hget : k.indegree.get dep with
  | none => simp [hget] at h
  | some d =>
    cases d with
    | zero => simp [hget] at h
    | succ d => simp

/-- A counter that covers a list of needs covers what is left of it. -/
theorem relax_covers {k : Kahn} {d : Text} {ds : List Text}
    (h : ∀ v, (d :: ds).count v ≤ k.left v) (v : Text) : ds.count v ≤ (relax k d).left v := by
  have hv := h v
  rw [relax_left]
  split_ifs with hd
  · subst hd
    rw [List.count_cons_self] at hv
    omega
  · rwa [List.count_cons_of_ne fun h => hd h.symm] at hv

theorem foldlM_relaxChecked {deps : List Text} {k : Kahn} (h : ∀ v, deps.count v ≤ k.left v) :
    deps.foldlM relaxChecked k = some (deps.foldl relax k) := by
  induction deps generalizing k with
  | nil => rfl
  | cons d ds ih =>
    have hpos : 0 < k.left d := by
      have hd := h d
      rw [List.count_cons_self] at hd
      omega
    rw [List.foldlM_cons, relaxChecked_eq hpos]
    exact ih (relax_covers h)

/-- A step whose last needs are all met joins the queue. -/
theorem mem_queue_foldl_relax {deps : List Text} {k : Kahn} (h : ∀ v, deps.count v ≤ k.left v)
    {v : Text} (hv : v ∈ deps) (hlast : k.left v = deps.count v) :
    v ∈ (deps.foldl relax k).queue := by
  induction deps generalizing k with
  | nil => cases hv
  | cons d ds ih =>
    rw [List.foldl_cons]
    by_cases hmem : v ∈ ds
    · refine ih (relax_covers h) hmem ?_
      rw [relax_left]
      split_ifs with hd
      · subst hd
        rw [List.count_cons_self] at hlast
        omega
      · rwa [List.count_cons_of_ne fun h => hd h.symm] at hlast
    · obtain rfl : v = d := (List.mem_cons.mp hv).resolve_right hmem
      obtain ⟨-, -, new, hqueue, -⟩ := foldl_relax (relax_covers h)
      have hzero : (k.indegree.get v).getD 0 - 1 = 0 := by
        have hcount : ds.count v = 0 := List.count_eq_zero.mpr hmem
        rw [List.count_cons_self, hcount] at hlast
        unfold Kahn.left at hlast
        omega
      rw [hqueue]
      simp [relax, hzero]

/-- A step whose needs are gone has been found, and each removed step came after its needs. -/
structure KahnRun (steps : List StepSpec) (gone : List Text) (k : Kahn) : Prop
    extends KahnInv steps gone k where
  ready : ∀ v ∈ steps.map (·.id), (∀ u ∈ needsOf steps v, u ∈ gone) → v ∈ gone ++ k.queue
  order : ∀ before v after, gone = before ++ v :: after → ∀ u ∈ needsOf steps v, u ∈ before

variable {steps : List StepSpec} {gone : List Text} {k : Kahn}

/-- The dependents of a step not yet gone are covered by the counters. -/
theorem KahnInv.covers (h : KahnInv steps gone k) {u : Text} (hu : u ∉ gone) (v : Text) :
    (((dependentsOf steps).get u).getD []).count v ≤ k.left v := by
  rw [dependents_count, h.left, countP_gone hu]
  omega

theorem KahnInv.notMem_of_queue (h : KahnInv steps gone k) {u : Text} {rest : List Text}
    (hq : k.queue = u :: rest) : u ∉ gone := by
  have hnodup := h.nodup
  rw [hq] at hnodup
  exact fun hmem => (List.nodup_append.mp hnodup).2.2 u hmem u List.mem_cons_self rfl

theorem KahnRun.pop (h : KahnRun steps gone k) {u : Text} {rest : List Text}
    (hq : k.queue = u :: rest) :
    KahnRun steps (gone ++ [u]) ((((dependentsOf steps).get u).getD []).foldl relax
      { k with queue := rest, removed := k.removed + 1 }) := by
  have hu := h.notMem_of_queue hq
  have hinv := h.toKahnInv.pop hq
  set deps := ((dependentsOf steps).get u).getD [] with hdeps
  set k₁ : Kahn := { k with queue := rest, removed := k.removed + 1 }
  have hcovers : ∀ v, deps.count v ≤ k₁.left v := h.covers hu
  refine ⟨hinv, fun v hv hneeds => ?_, fun before v after heq w hw => ?_⟩
  · by_cases hnew : u ∈ needsOf steps v
    · -- all other needs of `v` were gone, so its counter is what `u` takes off it
      have hrest : ((needsOf steps v).countP fun w => decide (w ∉ gone ++ [u])) = 0 := by
        refine List.countP_eq_zero.mpr fun w hw => ?_
        simpa only [decide_eq_true_eq, not_not] using hneeds w hw
      have hlast : k₁.left v = deps.count v := by
        have hleft : k₁.left v = k.left v := rfl
        rw [hleft, h.left, countP_gone hu, hrest, hdeps, dependents_count, Nat.zero_add]
      have hmem : v ∈ deps := by
        rw [← List.count_pos_iff, hdeps, dependents_count]
        exact List.count_pos_iff.mpr hnew
      exact List.mem_append_right _ (mem_queue_foldl_relax hcovers hmem hlast)
    · have hgone : ∀ w ∈ needsOf steps v, w ∈ gone := by
        intro w hw
        rcases List.mem_append.mp (hneeds w hw) with hgone | hlast
        · exact hgone
        · obtain rfl := List.mem_singleton.mp hlast
          exact absurd hw hnew
      have hold := h.ready v hv hgone
      obtain ⟨-, -, new, hqueue, -⟩ := foldl_relax hcovers
      rw [hqueue]
      rw [hq] at hold
      simp only [List.mem_append, List.mem_cons, List.not_mem_nil, or_false] at hold ⊢
      tauto
  · rcases List.eq_nil_or_concat after with rfl | ⟨init, last, rfl⟩
    · obtain ⟨rfl, hlast⟩ := List.append_inj' heq rfl
      obtain rfl := List.singleton_inj.mp hlast
      exact h.free _ (by rw [hq]; simp) w hw
    · have heq' : gone ++ [u] = (before ++ v :: init) ++ [last] := by
        rw [heq]
        simp
      obtain ⟨hgone, -⟩ := List.append_inj' heq' rfl
      exact h.order before v init hgone w hw

/-- The rounds suffice: nothing is popped twice. -/
theorem KahnRun.finish {rounds : ℕ} (h : KahnRun steps gone k)
    (hrounds : steps.length ≤ gone.length + rounds) : ∃ gone',
      KahnRun steps gone' (removeFree (dependentsOf steps) rounds k) ∧
        (removeFree (dependentsOf steps) rounds k).queue = [] ∧
        removeFreeChecked (dependentsOf steps) rounds k =
          some (removeFree (dependentsOf steps) rounds k) := by
  induction rounds generalizing gone k with
  | zero =>
    have hempty : k.queue = [] := by
      have hsub : gone ++ k.queue ⊆ steps.map (·.id) := fun v hv => h.mem v hv
      have hlen := (h.nodup.subperm hsub).length_le
      simp only [List.length_append, List.length_map] at hlen
      exact List.length_eq_zero_iff.mp (by omega)
    exact ⟨gone, h, hempty, by simp [removeFreeChecked, removeFree, hempty]⟩
  | succ rounds ih =>
    cases hq : k.queue with
    | nil =>
      have hsame : removeFree (dependentsOf steps) (rounds + 1) k = k := by simp [removeFree, hq]
      rw [hsame]
      exact ⟨gone, h, hq, by simp [removeFreeChecked, hq]⟩
    | cons u rest =>
      have hu := h.notMem_of_queue hq
      have hcovers : ∀ v, (((dependentsOf steps).get u).getD []).count v ≤
          ({ k with queue := rest, removed := k.removed + 1 } : Kahn).left v := h.covers hu
      have hlen : steps.length ≤ (gone ++ [u]).length + rounds := by
        rw [List.length_append, List.length_singleton]
        omega
      simp only [removeFree, removeFreeChecked, hq, foldlM_relaxChecked hcovers, Option.bind_some]
      exact ih (h.pop hq) hlen

theorem indegrees_get_of_mem {v : Text} (hv : v ∈ steps.map (·.id)) :
    ∃ d, (indegrees steps).get v = some d := by
  have hfold : ∀ (ss : List StepSpec) (m : SortedMap Text ℕ),
      (v ∈ ss.map (·.id) ∨ ∃ d, m.get v = some d) → ∃ d, (ss.foldl (fun m s =>
        m.insert s.id ((m.get s.id).getD 0 + s.needs.length)) m).get v = some d := by
    intro ss
    induction ss with
    | nil => exact fun m h => h.elim (fun h => nomatch h) id
    | cons s ss ih =>
      intro m h
      refine ih _ ?_
      by_cases hid : v = s.id
      · exact .inr ⟨_, by rw [SortedMap.get_insert, if_pos hid]⟩
      · rcases h with h | ⟨d, hd⟩
        · exact .inl ((List.mem_cons.mp h).resolve_left hid)
        · exact .inr ⟨d, by rw [SortedMap.get_insert, if_neg hid, hd]⟩
  exact hfold steps _ (.inl hv)

theorem kahnRun_start (steps : List StepSpec) : KahnRun steps [] (startKahn steps) := by
  refine ⟨kahnInv_start steps, fun v hv hneeds => ?_, fun before v after heq => ?_⟩
  · have hnil : needsOf steps v = [] := List.eq_nil_iff_forall_not_mem.mpr fun u hu =>
      List.not_mem_nil (hneeds u hu)
    obtain ⟨d, hd⟩ := indegrees_get_of_mem hv
    have hzero : d = 0 := by
      have hget := @indegrees_get steps v
      rwa [hd, hnil] at hget
    subst hzero
    have hmem : (v, 0) ∈ (indegrees steps).entries := SortedMap.get_eq_some.mp hd
    simp only [startKahn, List.nil_append, List.mem_reverse, List.mem_map, List.mem_filter]
    exact ⟨(v, 0), ⟨hmem, by simp⟩, rfl⟩
  · simp at heq

/-- Every step once, each after what it needs. -/
def TopologicalOrder (steps : List StepSpec) (order : List Text) : Prop :=
  order.Perm (steps.map (·.id)) ∧
    ∀ before v after, order = before ++ v :: after → ∀ u ∈ needsOf steps v, u ∈ before

/-- Following needs from `v`, a cycle can be reached. -/
def LeadsToCycle (steps : List StepSpec) (v : Text) : Prop :=
  ∃ u, ReflTransGen (Edge steps) v u ∧ TransGen (Edge steps) u u

theorem KahnRun.gone_safe (h : KahnRun steps gone k) {v : Text} (hv : v ∈ gone) :
    ¬ LeadsToCycle steps v := by
  rintro ⟨u, hreach, hcycle⟩
  have hgone : ∀ w, ReflTransGen (Edge steps) v w → w ∈ gone := by
    intro w hw
    induction hw with
    | refl => exact hv
    | tail _ hedge ih => exact h.free _ (List.mem_append_left _ ih) _ (mem_needsOf.mpr hedge)
  have hu := hgone u hreach
  exact h.acyclic u (List.mem_append_left _ hu) hcycle

/-- With the queue empty, every step that is left needs one that is left. -/
theorem KahnRun.left_need (h : KahnRun steps gone k) (hq : k.queue = [])
    (hneeds : ∀ s ∈ steps, ∀ n ∈ s.needs, n ∈ steps.map (·.id)) {v : Text}
    (hv : v ∈ steps.map (·.id)) (hleft : v ∉ gone) :
    ∃ u, Edge steps v u ∧ u ∈ steps.map (·.id) ∧ u ∉ gone := by
  have hnot : ¬ ∀ u ∈ needsOf steps v, u ∈ gone := by
    intro hall
    have hmem := h.ready v hv hall
    rw [hq, List.append_nil] at hmem
    exact hleft hmem
  push Not at hnot
  obtain ⟨u, hu, hgone⟩ := hnot
  obtain ⟨s, hs, hid, hneed⟩ := mem_needsOf.mp hu
  exact ⟨u, ⟨s, hs, hid, hneed⟩, hneeds s hs u hneed, hgone⟩

theorem KahnRun.left_leads (h : KahnRun steps gone k) (hq : k.queue = [])
    (hneeds : ∀ s ∈ steps, ∀ n ∈ s.needs, n ∈ steps.map (·.id)) {v : Text}
    (hv : v ∈ steps.map (·.id)) (hleft : v ∉ gone) : LeadsToCycle steps v := by
  by_contra hnone
  -- the steps reached from `v` are finitely many, and each needs another of them
  let Reached := {u // u ∈ steps.map (·.id) ∧ u ∉ gone ∧ ReflTransGen (Edge steps) v u}
  have hids : {u | u ∈ steps.map (·.id)}.Finite := List.finite_toSet _
  have hfinite : Finite Reached := hids.subset fun u hu => hu.1
  let behind : Reached → Reached → Prop := fun a b => TransGen (Edge steps) b.1 a.1
  have htrans : IsTrans Reached behind := ⟨fun a b c hab hbc => TransGen.trans hbc hab⟩
  have hirrefl : Std.Irrefl behind := ⟨fun a ha => hnone ⟨a.1, a.2.2.2, ha⟩⟩
  have hwf : WellFounded behind := Finite.wellFounded_of_trans_of_irrefl behind
  obtain ⟨last, -, hlast⟩ := hwf.has_min Set.univ ⟨⟨v, hv, hleft, .refl⟩, trivial⟩
  obtain ⟨u, hedge, hu, hgone⟩ := h.left_need hq hneeds last.2.1 last.2.2.1
  exact hlast ⟨u, hu, hgone, last.2.2.2.tail hedge⟩ trivial (.single hedge)

/-- A counter above zero is that of a step that is left. -/
theorem KahnRun.pos_iff (h : KahnRun steps gone k) (hq : k.queue = [])
    (hneeds : ∀ s ∈ steps, ∀ n ∈ s.needs, n ∈ steps.map (·.id)) (v : Text) :
    0 < k.left v ↔ v ∈ steps.map (·.id) ∧ v ∉ gone := by
  rw [h.left, List.countP_pos_iff]
  constructor
  · rintro ⟨u, hu, hgone⟩
    obtain ⟨s, hs, rfl, -⟩ := mem_needsOf.mp hu
    refine ⟨List.mem_map_of_mem hs, fun hmem => ?_⟩
    have hfree := h.free _ (List.mem_append_left _ hmem) u hu
    exact of_decide_eq_true hgone hfree
  · rintro ⟨hv, hleft⟩
    obtain ⟨u, hedge, -, hgone⟩ := h.left_need hq hneeds hv hleft
    exact ⟨u, mem_needsOf.mpr hedge, by simpa using hgone⟩

theorem Kahn.mem_left {v : Text} :
    v ∈ (k.indegree.entries.filter (·.2 > 0)).map (·.1) ↔ 0 < k.left v := by
  simp only [List.mem_map, List.mem_filter, decide_eq_true_eq]
  constructor
  · rintro ⟨e, ⟨he, hpos⟩, rfl⟩
    rw [Kahn.left, SortedMap.get_eq_some.mpr he]
    exact hpos
  · intro hpos
    cases hget : k.indegree.get v with
    | none => simp [Kahn.left, hget] at hpos
    | some d =>
      refine ⟨(v, d), ⟨SortedMap.get_eq_some.mp hget, ?_⟩, rfl⟩
      simpa [Kahn.left, hget] using hpos

/-- `findCycle` on steps with distinct ids whose needs are all listed: the loop ends with no
counter lowered below zero, and it finds a cycle exactly when there is one. -/
theorem find_cycle_exact (steps : List StepSpec) (hids : (steps.map (·.id)).Nodup)
    (hneeds : ∀ s ∈ steps, ∀ n ∈ s.needs, n ∈ steps.map (·.id)) :
    findCycleChecked steps = some (findCycle steps) ∧
      (findCycle steps = none ↔ ∃ order, TopologicalOrder steps order) ∧
      ∀ left, findCycle steps = some left → left.Pairwise (· < ·) ∧
        ∀ v, v ∈ left ↔ v ∈ steps.map (·.id) ∧ LeadsToCycle steps v := by
  obtain ⟨gone, hrun, hq, hchecked⟩ := (kahnRun_start steps).finish (Nat.le_add_left _ _)
  set k := removeFree (dependentsOf steps) steps.length (startKahn steps) with hk
  have hfind : findCycle steps = if k.removed = steps.length then none
      else some ((k.indegree.entries.filter (·.2 > 0)).map (·.1)) := rfl
  have hmem : ∀ v, v ∈ (k.indegree.entries.filter (·.2 > 0)).map (·.1) ↔
      v ∈ steps.map (·.id) ∧ LeadsToCycle steps v := by
    intro v
    rw [Kahn.mem_left, hrun.pos_iff hq hneeds]
    refine and_congr_right fun hv => ⟨hrun.left_leads hq hneeds hv, fun hleads hgone => ?_⟩
    exact hrun.gone_safe hgone hleads
  have hsub : gone ⊆ steps.map (·.id) := fun v hv => hrun.mem v (List.mem_append_left _ hv)
  have hnodup : gone.Nodup := (List.nodup_append.mp hrun.nodup).1
  refine ⟨?_, ⟨fun hnone => ?_, ?_⟩, fun left hleft => ?_⟩
  · rw [findCycleChecked, hchecked, hfind]
    rfl
  · have hlen : gone.length = steps.length := by
      rw [← hrun.removed]
      by_contra hne
      rw [hfind, if_neg hne] at hnone
      cases hnone
    exact ⟨gone, (hnodup.subperm hsub).perm_of_length_le (by simp [hlen]), hrun.order⟩
  · rintro ⟨order, hperm, horder⟩
    -- the first step of the order that is left would need one before it that is left
    have hall : ∀ before after, order = before ++ after → ∀ v ∈ before, v ∈ gone := by
      intro before
      induction before using List.reverseRecOn with
      | nil => simp
      | append_singleton before u ih =>
        intro after heq v hv
        have hearlier := ih (u :: after) (by simpa using heq)
        rcases List.mem_append.mp hv with hv | hv
        · exact hearlier v hv
        · obtain rfl := List.mem_singleton.mp hv
          by_contra hleft
          have hid : v ∈ steps.map (·.id) := hperm.mem_iff.mp (by rw [heq]; simp)
          obtain ⟨w, hedge, -, hgone⟩ := hrun.left_need hq hneeds hid hleft
          have hbefore := horder before v after (by simpa using heq) w (mem_needsOf.mpr hedge)
          exact hgone (hearlier w hbefore)
    have hlen : steps.length ≤ gone.length := by
      have hle := (hids.subperm fun v hv =>
        hall order [] (by simp) v (hperm.mem_iff.mpr hv)).length_le
      simpa using hle
    have hle := (hnodup.subperm hsub).length_le
    rw [hfind, if_pos]
    rw [hrun.removed]
    simp only [List.length_map] at hle
    omega
  · rw [hfind] at hleft
    split_ifs at hleft
    obtain rfl := Option.some.inj hleft
    refine ⟨?_, hmem⟩
    exact List.pairwise_map.mpr (k.indegree.sorted.filter _)

/-- Two steps that need each other, and one that needs the first twice. -/
def loopSteps : List StepSpec :=
  [{ StepSpec.named ['a'] with needs := [['b']] }, { StepSpec.named ['b'] with needs := [['a']] },
    { StepSpec.named ['c'] with needs := [['a'], ['a']] }, StepSpec.named ['d']]

theorem find_cycle_exact_loop : findCycleChecked loopSteps = some (some [['a'], ['b'], ['c']]) ∧
    LeadsToCycle loopSteps ['c'] ∧ ¬ LeadsToCycle loopSteps ['d'] := by
  have hfind : findCycle loopSteps = some [['a'], ['b'], ['c']] := by decide
  obtain ⟨hchecked, -, hleft⟩ := find_cycle_exact loopSteps (by decide) (by decide)
  obtain ⟨-, hmem⟩ := hleft _ hfind
  refine ⟨hfind ▸ hchecked, ((hmem _).mp (by decide)).2, fun hleads => ?_⟩
  have hd := (hmem ['d']).mpr ⟨by decide, hleads⟩
  revert hd
  decide

end Scarab.Pipeline
