import Mathlib

/-!
# Values over a dependency graph

Nodes are the indices of a list of needs, in which a need may be repeated. A stack of ready nodes
is worked off: a node's value is combined from the values of its needs, and each node that needs
it waits for one less.
-/
namespace KahnFold

open Relation

variable {α : Type*}

structure State (α : Type*) where
  /-- For each node the needs still to be met. -/
  waiting : List ℕ
  values : List α
  /-- The stack, its top first. -/
  ready : List ℕ

/-- A node waits for one less; `none` is an underflow. -/
def release (w : List ℕ × List ℕ) (d : ℕ) : Option (List ℕ × List ℕ) :=
  match w.1.getD d 0 with
  | 0 => none
  | k + 1 => some (w.1.set d k, if k = 0 then d :: w.2 else w.2)

def visit (neededBy : List (List ℕ)) (combine : ℕ → List α → α) (i : ℕ) (rest : List ℕ)
    (s : State α) : Option (State α) :=
  ((neededBy.getD i []).foldlM release (s.waiting, rest)).map fun w =>
    ⟨w.1, s.values.set i (combine i s.values), w.2⟩

def run (neededBy : List (List ℕ)) (combine : ℕ → List α → α) : ℕ → State α → Option (State α)
  | 0, s => some s
  | fuel + 1, s =>
      match s.ready with
      | [] => some s
      | i :: rest => (visit neededBy combine i rest s).bind (run neededBy combine fuel)

/-- For each node the nodes that need it, once for each time they do. -/
def neededBy (needs : List (List ℕ)) : List (List ℕ) :=
  needs.zipIdx.foldl
    (fun acc p => p.1.foldl (fun acc n => acc.modify n (· ++ [p.2])) acc)
    (List.replicate needs.length [])

def initial (needs : List (List ℕ)) (zero : α) : State α :=
  let waiting := needs.map List.length
  ⟨waiting, List.replicate needs.length zero,
    ((List.range needs.length).filter fun i => waiting.getD i 0 = 0).reverse⟩

def needsOf (needs : List (List ℕ)) (i : ℕ) : List ℕ := needs.getD i []

def Needs (needs : List (List ℕ)) (i j : ℕ) : Prop := j ∈ needsOf needs i

/-- Every need is a node, and no node needs itself through others. -/
structure Dag (needs : List (List ℕ)) : Prop where
  inRange : ∀ i, ∀ j ∈ needsOf needs i, j < needs.length
  acyclic : ∀ i, ¬ TransGen (Needs needs) i i

theorem needsOf_of_le {needs : List (List ℕ)} {i : ℕ} (h : needs.length ≤ i) :
    needsOf needs i = [] := by
  simp [needsOf, List.getElem?_eq_none h]

/-- What follows for a node from its needs holds of every node. -/
theorem Dag.induct {needs : List (List ℕ)} (hd : Dag needs) {P : ℕ → Prop}
    (hP : ∀ i, i < needs.length → (∀ j ∈ needsOf needs i, P j) → P i) :
    ∀ i, i < needs.length → P i := by
  let before : Fin needs.length → Fin needs.length → Prop :=
    fun a b => TransGen (Needs needs) b a
  have htrans : IsTrans _ before := ⟨fun a b c hab hbc => hbc.trans hab⟩
  have hirrefl : Std.Irrefl before := ⟨fun a h => hd.acyclic a h⟩
  have hwf : WellFounded before := Finite.wellFounded_of_trans_of_irrefl before
  have hall : ∀ i : Fin needs.length, P i := by
    intro i
    induction i using hwf.induction with
    | _ i ih =>
      apply hP i i.isLt
      intro j hj
      exact ih ⟨j, hd.inRange i j hj⟩ (.single hj)
  exact fun i hi => hall ⟨i, hi⟩

theorem modify_getD_count {acc : List (List ℕ)} {n u v i : ℕ} (hn : n < acc.length) :
    ((acc.modify n (· ++ [i])).getD u []).count v =
      (acc.getD u []).count v + if n = u ∧ i = v then 1 else 0 := by
  by_cases hnu : n = u
  · subst hnu
    have hget : (acc.modify n (· ++ [i])).getD n [] = acc.getD n [] ++ [i] := by
      simp [List.getD, hn]
    rw [hget, List.count_append]
    by_cases hiv : i = v <;> simp [hiv]
  · simp [List.getD, hnu]

theorem foldl_modify_length {ns : List ℕ} {i : ℕ} (acc : List (List ℕ)) :
    (ns.foldl (fun acc n => acc.modify n (· ++ [i])) acc).length = acc.length := by
  induction ns generalizing acc with
  | nil => rfl
  | cons n ns ih => rw [List.foldl_cons, ih, List.length_modify]

theorem foldl_modify_count {ns : List ℕ} {i u v : ℕ} (acc : List (List ℕ))
    (hns : ∀ n ∈ ns, n < acc.length) :
    ((ns.foldl (fun acc n => acc.modify n (· ++ [i])) acc).getD u []).count v =
      (acc.getD u []).count v + if i = v then ns.count u else 0 := by
  induction ns generalizing acc with
  | nil => simp
  | cons n ns ih =>
    have htail : ∀ m ∈ ns, m < (acc.modify n (· ++ [i])).length := by
      intro m hm
      rw [List.length_modify]
      exact hns m (List.mem_cons_of_mem _ hm)
    rw [List.foldl_cons, ih _ htail, modify_getD_count (hns n List.mem_cons_self)]
    by_cases hiv : i = v
    · by_cases hnu : n = u
      · simp [hiv, hnu]
        omega
      · simp [hiv, hnu]
    · simp [hiv]

theorem neededBy_count {needs : List (List ℕ)} (hd : ∀ i, ∀ j ∈ needsOf needs i, j < needs.length)
    (u v : ℕ) : ((neededBy needs).getD u []).count v = (needsOf needs v).count u := by
  have hfold : ∀ (k : ℕ) (rest : List (List ℕ)) (acc : List (List ℕ)),
      (∀ ns ∈ rest, ∀ n ∈ ns, n < acc.length) →
      (((rest.zipIdx k).foldl
        (fun acc p => p.1.foldl (fun acc n => acc.modify n (· ++ [p.2])) acc) acc).getD u []).count v =
        (acc.getD u []).count v + if k ≤ v then (rest.getD (v - k) []).count u else 0 := by
    intro k rest
    induction rest generalizing k with
    | nil => intro acc _; simp
    | cons ns rest ih =>
      intro acc hacc
      have hlen := @foldl_modify_length ns k acc
      rw [List.zipIdx_cons, List.foldl_cons, ih (k + 1) _ (by
        intro ms hms n hn
        rw [hlen]
        exact hacc ms (List.mem_cons_of_mem _ hms) n hn),
        foldl_modify_count acc (hacc ns List.mem_cons_self)]
      rcases lt_trichotomy k v with hlt | heq | hgt
      · have hsub : v - k = v - (k + 1) + 1 := by omega
        rw [if_neg (by omega), if_pos (by omega), if_pos (by omega), hsub]
        simp
      · subst heq
        simp
      · rw [if_neg (by omega), if_neg (by omega), if_neg (by omega)]
  unfold neededBy
  rw [hfold 0 needs]
  · by_cases hu : u < needs.length
    · simp [needsOf, List.getD, hu]
    · simp [needsOf, List.getD, hu]
  · intro ns hns n hn
    rw [List.length_replicate]
    obtain ⟨i, hi, rfl⟩ := List.mem_iff_getElem.mp hns
    exact hd i n (by simpa [needsOf, hi] using hn)

def left (waiting : List ℕ) (v : ℕ) : ℕ := waiting.getD v 0

theorem left_set {waiting : List ℕ} {d k v : ℕ} (hd : 0 < left waiting d) :
    left (waiting.set d k) v = if v = d then k else left waiting v := by
  have hlt : d < waiting.length := by
    by_contra hge
    simp [left, List.getElem?_eq_none (not_lt.mp hge)] at hd
  by_cases hvd : v = d
  · subst hvd
    simp [left, hlt]
  · simp [left, hvd, Ne.symm hvd]

/-- Releasing the nodes of a list: each waits for one less for each time it is listed, and those
that wait for nothing more join the stack. -/
theorem foldlM_release {deps : List ℕ} {waiting ready : List ℕ}
    (h : ∀ v, deps.count v ≤ left waiting v) :
    ∃ w new, deps.foldlM release (waiting, ready) = some (w, new ++ ready) ∧ new.Nodup ∧
      (∀ v, left w v = left waiting v - deps.count v) ∧
      ∀ v, v ∈ new ↔ 0 < deps.count v ∧ left waiting v = deps.count v := by
  induction deps generalizing waiting ready with
  | nil => exact ⟨waiting, [], rfl, List.nodup_nil, by simp, by simp⟩
  | cons d ds ih =>
    have hd : ds.count d + 1 ≤ left waiting d := by simpa using h d
    obtain ⟨k, hk⟩ : ∃ k, left waiting d = k + 1 := ⟨left waiting d - 1, by omega⟩
    have hset : ∀ v, left (waiting.set d k) v = if v = d then k else left waiting v :=
      fun v => left_set (by omega)
    have hrest : ∀ v, ds.count v ≤ left (waiting.set d k) v := by
      intro v
      rw [hset]
      by_cases hv : v = d
      · subst hv
        rw [if_pos rfl]
        omega
      · rw [if_neg hv]
        have hle := h v
        rwa [List.count_cons_of_ne fun heq => hv heq.symm] at hle
    obtain ⟨w, new, hrun, hnodup, hleft, hnew⟩ :=
      @ih _ (if k = 0 then d :: ready else ready) hrest
    have hstep : release (waiting, ready) d =
        some (waiting.set d k, if k = 0 then d :: ready else ready) := by
      have hget : waiting.getD d 0 = k + 1 := hk
      simp only [release, hget]
    have hw : ∀ v, left w v = left waiting v - (d :: ds).count v := by
      intro v
      rw [hleft, hset]
      by_cases hv : v = d
      · subst hv
        simp
        omega
      · rw [if_neg hv, List.count_cons_of_ne fun heq => hv heq.symm]
    by_cases hk0 : k = 0
    · subst hk0
      have hdnew : d ∉ new := by
        intro hin
        have hcount := (hnew d).mp hin
        rw [hset, if_pos rfl] at hcount
        omega
      have hfold : (d :: ds).foldlM release (waiting, ready) = some (w, new ++ [d] ++ ready) := by
        rw [List.foldlM_cons, hstep, List.append_assoc]
        exact hrun
      refine ⟨w, new ++ [d], hfold, ?_, hw, ?_⟩
      · exact List.nodup_append.mpr ⟨hnodup, by simp, by
          intro a ha b hb heq
          simp only [List.mem_singleton] at hb
          exact hdnew (hb ▸ heq ▸ ha)⟩
      · intro v
        rw [List.mem_append, List.mem_singleton, hnew, hset]
        by_cases hv : v = d
        · subst hv
          simp
          omega
        · rw [if_neg hv, List.count_cons_of_ne fun heq => hv heq.symm]
          simp [hv]
    · have hfold : (d :: ds).foldlM release (waiting, ready) = some (w, new ++ ready) := by
        rw [if_neg hk0] at hstep hrun
        rw [List.foldlM_cons, hstep]
        exact hrun
      refine ⟨w, new, hfold, hnodup, hw, ?_⟩
      intro v
      rw [hnew, hset]
      by_cases hv : v = d
      · subst hv
        rw [if_pos rfl, List.count_cons_self, hk]
        omega
      · rw [if_neg hv, List.count_cons_of_ne fun heq => hv heq.symm]

/-- A value is combined from the values of a node's needs only. -/
def Local (needs : List (List ℕ)) (combine : ℕ → List α → α) : Prop :=
  ∀ i vs vs', (∀ j ∈ needsOf needs i, vs[j]? = vs'[j]?) → combine i vs = combine i vs'

/-- The state of the loop once the nodes of `done` are visited. -/
structure Inv (needs : List (List ℕ)) (combine : ℕ → List α → α) (done : List ℕ) (s : State α) :
    Prop where
  nodup : (done ++ s.ready).Nodup
  inRange : ∀ i ∈ done ++ s.ready, i < needs.length
  waits : ∀ i, left s.waiting i = (needsOf needs i).countP (· ∉ done)
  free : ∀ i, i < needs.length → (left s.waiting i = 0 ↔ i ∈ done ++ s.ready)
  length : s.values.length = needs.length
  value : ∀ i ∈ done, s.values[i]? = some (combine i s.values)

theorem countP_done_cons {ns done : List ℕ} {i : ℕ} (hi : i ∉ done) :
    ns.countP (· ∉ i :: done) = ns.countP (· ∉ done) - ns.count i ∧
      ns.count i ≤ ns.countP (· ∉ done) := by
  induction ns with
  | nil => simp
  | cons n ns ih =>
    obtain ⟨hsub, hle⟩ := ih
    by_cases hni : n = i
    · subst hni
      rw [List.countP_cons_of_neg (by simp), List.countP_cons_of_pos (by simpa using hi),
        List.count_cons_self]
      omega
    · rw [List.count_cons_of_ne hni]
      by_cases hdone : n ∈ done
      · rw [List.countP_cons_of_neg (by simp [hdone]), List.countP_cons_of_neg (by simp [hdone])]
        exact ⟨hsub, hle⟩
      · rw [List.countP_cons_of_pos (by simp [hdone, hni]),
          List.countP_cons_of_pos (by simp [hdone])]
        omega

theorem Inv.needs_done {needs : List (List ℕ)} {combine : ℕ → List α → α} {done : List ℕ}
    {s : State α} (h : Inv needs combine done s) {i : ℕ} (hi : i ∈ done ++ s.ready) :
    ∀ j ∈ needsOf needs i, j ∈ done := by
  have hzero := (h.free i (h.inRange i hi)).mpr hi
  rw [h.waits, List.countP_eq_zero] at hzero
  intro j hj
  simpa using hzero j hj

theorem Inv.visit {needs : List (List ℕ)} {combine : ℕ → List α → α} {done rest : List ℕ}
    {s : State α} {i : ℕ} (hd : Dag needs) (hlocal : Local needs combine)
    (h : Inv needs combine done s) (hready : s.ready = i :: rest) :
    ∃ s', visit (neededBy needs) combine i rest s = some s' ∧ Inv needs combine (i :: done) s' := by
  have hidone : i ∉ done := by
    intro hin
    have hnodup := h.nodup
    rw [hready] at hnodup
    exact (List.nodup_append.mp hnodup).2.2 i hin i (by simp) rfl
  have hi : i < needs.length := h.inRange i (by simp [hready])
  have hcount := neededBy_count hd.inRange i
  have hsub : ∀ v, ((neededBy needs).getD i []).count v ≤ left s.waiting v := by
    intro v
    rw [hcount, h.waits]
    exact (countP_done_cons hidone).2
  obtain ⟨w, new, hrun, hnodup, hleft, hnew⟩ := @foldlM_release _ _ rest hsub
  refine ⟨⟨w, s.values.set i (combine i s.values), new ++ rest⟩,
    by rw [KahnFold.visit, hrun, Option.map_some], ?_⟩
  have hw : ∀ v, left w v = (needsOf needs v).countP (· ∉ i :: done) := by
    intro v
    rw [hleft, hcount, h.waits, (countP_done_cons hidone).1]
  have hold : ∀ v, v ∈ done ++ s.ready ↔ v ∈ i :: done ++ rest := by
    intro v
    rw [hready]
    simp only [List.mem_append, List.mem_cons]
    tauto
  have hfresh : ∀ v ∈ new, v < needs.length ∧ v ∉ i :: done ++ rest := by
    intro v hv
    obtain ⟨hpos, heq⟩ := (hnew v).mp hv
    have hlt : v < needs.length := by
      by_contra hge
      rw [hcount, needsOf_of_le (not_lt.mp hge)] at hpos
      simp at hpos
    refine ⟨hlt, fun hin => ?_⟩
    have hzero := (h.free v hlt).mpr ((hold v).mpr hin)
    omega
  have hdonerest : (i :: done ++ rest).Nodup := by
    have hnodup := h.nodup
    rw [hready] at hnodup
    exact (List.perm_middle.nodup_iff).mp hnodup
  have hkeep : ∀ j ∈ i :: done, combine j (s.values.set i (combine i s.values)) =
      combine j s.values := by
    intro j hj
    apply hlocal
    intro x hx
    have hxdone := h.needs_done ((hold j).mpr (List.mem_append_left _ hj)) x hx
    have hne : i ≠ x := fun heq => hidone (heq ▸ hxdone)
    exact List.getElem?_set_ne hne
  constructor
  · have hperm : (i :: done ++ (new ++ rest)).Perm (new ++ (i :: done ++ rest)) := by
      rw [← List.append_assoc, ← List.append_assoc]
      exact List.perm_append_comm.append_right _
    rw [hperm.nodup_iff]
    exact List.nodup_append.mpr ⟨hnodup, hdonerest, fun a ha b hb hab => (hfresh a ha).2 (hab ▸ hb)⟩
  · intro v hv
    simp only [List.mem_append] at hv
    rcases hv with hv | hv | hv
    · exact h.inRange v ((hold v).mpr (List.mem_append_left _ hv))
    · exact (hfresh v hv).1
    · exact h.inRange v ((hold v).mpr (List.mem_append_right _ hv))
  · exact hw
  · intro v hv
    have hfree := (h.free v hv).trans (hold v)
    have hle := hsub v
    have hmem := hnew v
    have hzero : left w v = 0 ↔ left s.waiting v = 0 ∨ v ∈ new := by
      rw [hleft, hmem]
      omega
    rw [hzero, hfree]
    simp only [List.mem_append]
    tauto
  · rw [List.length_set]
    exact h.length
  · intro j hj
    rw [hkeep j hj]
    rcases List.mem_cons.mp hj with rfl | hdone
    · exact List.getElem?_set_self (by rw [h.length]; exact hi)
    · have hne : i ≠ j := fun heq => hidone (heq ▸ hdone)
      rw [List.getElem?_set_ne hne]
      exact h.value j hdone

theorem initial_inv {needs : List (List ℕ)} (combine : ℕ → List α → α) (zero : α) :
    Inv needs combine [] (initial needs zero) := by
  have hleft : ∀ i, left (initial needs zero).waiting i = (needsOf needs i).length := by
    intro i
    simp only [left, initial, needsOf, List.getD, List.getElem?_map]
    cases needs[i]? <;> rfl
  have hready : ∀ i, i ∈ (initial needs zero).ready ↔
      i < needs.length ∧ left (initial needs zero).waiting i = 0 := by
    intro i
    simp only [initial, List.mem_reverse, List.mem_filter, List.mem_range, left, decide_eq_true_eq]
  constructor
  · simp only [initial, List.nil_append, List.nodup_reverse]
    exact List.nodup_range.filter _
  · intro i hi
    exact ((hready i).mp hi).1
  · intro i
    rw [hleft]
    simp
  · intro i hi
    rw [List.nil_append, hready]
    exact ⟨fun h => ⟨hi, h⟩, fun h => h.2⟩
  · simp [initial]
  · simp

theorem Inv.final {needs : List (List ℕ)} {combine : ℕ → List α → α} {done : List ℕ} {s : State α}
    (hd : Dag needs) (h : Inv needs combine done s) (hready : s.ready = []) :
    ∀ i, i < needs.length → s.values[i]? = some (combine i s.values) := by
  have hdone : ∀ i, i < needs.length → i ∈ done := by
    apply hd.induct (P := fun i => i ∈ done)
    intro j hj hneeds
    have hzero : left s.waiting j = 0 := by
      rw [h.waits, List.countP_eq_zero]
      intro k hk
      simpa using hneeds k hk
    simpa [hready] using (h.free j hj).mp hzero
  exact fun i hi => h.value i (hdone i hi)

/-- With one unit of fuel for each node still to visit a run meets no underflow and visits them
all: every value is combined from the final values of its needs. -/
theorem Inv.run {needs : List (List ℕ)} {combine : ℕ → List α → α} (hd : Dag needs)
    (hlocal : Local needs combine) (fuel : ℕ) {done : List ℕ} {s : State α}
    (h : Inv needs combine done s) (hfuel : done.length + fuel = needs.length) :
    ∃ s', run (neededBy needs) combine fuel s = some s' ∧
      ∀ i, i < needs.length → s'.values[i]? = some (combine i s'.values) := by
  induction fuel generalizing done s with
  | zero =>
    have hready : s.ready = [] := by
      have hlen : (done ++ s.ready).length ≤ needs.length := by
        have hsub : (done ++ s.ready) ⊆ List.range needs.length := fun i hi =>
          List.mem_range.mpr (h.inRange i hi)
        simpa using (List.subperm_of_subset h.nodup hsub).length_le
      rw [List.length_append] at hlen
      exact List.eq_nil_of_length_eq_zero (by omega)
    exact ⟨s, rfl, h.final hd hready⟩
  | succ fuel ih =>
    cases hready : s.ready with
    | nil => exact ⟨s, by simp [KahnFold.run, hready], h.final hd hready⟩
    | cons i rest =>
      obtain ⟨s', hvisit, hinv⟩ := h.visit hd hlocal hready
      obtain ⟨s'', hrun, hvalues⟩ := ih hinv (by rw [List.length_cons]; omega)
      exact ⟨s'', by simp [KahnFold.run, hready, hvisit, hrun], hvalues⟩

/-- On a graph without cycles the loop gives every node the value its needs' values combine to. -/
theorem run_values {needs : List (List ℕ)} {combine : ℕ → List α → α} (hd : Dag needs)
    (hlocal : Local needs combine) (zero : α) :
    ∃ s, run (neededBy needs) combine needs.length (initial needs zero) = some s ∧
      ∀ i, i < needs.length → s.values[i]? = some (combine i s.values) :=
  (initial_inv combine zero).run hd hlocal needs.length (by simp)

end KahnFold
