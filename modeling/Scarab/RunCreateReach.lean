import Scarab.PipelineBinding
import Scarab.RunCreateInput

/-!
# The gates a policy is shown

The bit sets of the loop are reachability over `needs`, so a step's upstream gates and a gate's
dependents are exact for a pipeline that passed compilation.
-/
namespace Scarab.RunCreate

open Pipeline KahnFold Relation

/-- What compilation promises of a pipeline's steps. -/
structure ValidPipeline (steps : List StepSpec) : Prop where
  unique : (steps.map (·.id)).Nodup
  resolved : ∀ s ∈ steps, ∀ n ∈ s.needs, n ∈ steps.map (·.id)
  acyclic : ∀ a, ¬ TransGen (Edge steps) a a

section graph

variable {steps : List StepSpec}

theorem index_get (hv : ValidPipeline steps) {n : Text} {j : ℕ} :
    (index steps).get n = some j ↔ ∃ t, steps[j]? = some t ∧ t.id = n := by
  have hkeys : ((steps.zipIdx.map fun p => (p.1.id, p.2)).map (·.1)) = steps.map (·.id) := by
    rw [List.map_map]
    conv_rhs => rw [← List.zipIdx_map_fst 0 steps, List.map_map]
    rfl
  have hmem : ∀ m k, (m, k) ∈ (steps.zipIdx.map fun p => (p.1.id, p.2)) ↔
      ∃ t, steps[k]? = some t ∧ t.id = m := by
    intro m k
    simp only [List.mem_map, Prod.mk.injEq, Prod.exists, List.mem_zipIdx_iff_getElem?]
    constructor
    · rintro ⟨t, k', ht, rfl, rfl⟩
      exact ⟨t, ht, rfl⟩
    · rintro ⟨t, ht, rfl⟩
      exact ⟨t, k, ht, rfl, rfl⟩
  constructor
  · intro h
    rcases SortedMap.get_insertAll h with hin | hempty
    · exact (hmem n j).mp hin
    · cases hempty
  · intro h
    exact SortedMap.get_insertAll_of_mem (by rw [hkeys]; exact hv.unique) ((hmem n j).mpr h) _

theorem id_injective (hv : ValidPipeline steps) {i j : ℕ} {s t : StepSpec}
    (hs : steps[i]? = some s) (ht : steps[j]? = some t) (h : s.id = t.id) : i = j := by
  have hi := (index_get hv).mpr ⟨s, hs, rfl⟩
  have hj := (index_get hv).mpr ⟨t, ht, rfl⟩
  rw [h, hj] at hi
  exact (Option.some.inj hi).symm

theorem needs_iff (hv : ValidPipeline steps) {i j : ℕ} :
    Needs (needsIndices steps) i j ↔
      ∃ s t, steps[i]? = some s ∧ steps[j]? = some t ∧ t.id ∈ s.needs := by
  unfold Needs KahnFold.needsOf needsIndices
  rw [List.getD_eq_getElem?_getD, List.getElem?_map]
  cases hi : steps[i]? with
  | none => simp
  | some s =>
    simp only [Option.map_some, Option.getD_some, List.mem_filterMap, index_get hv]
    constructor
    · rintro ⟨n, hn, t, ht, rfl⟩
      exact ⟨s, t, rfl, ht, hn⟩
    · rintro ⟨s', t, hs', ht, hn⟩
      cases hs'
      exact ⟨t.id, hn, t, ht, rfl⟩

theorem edge_of_needs (hv : ValidPipeline steps) {i j : ℕ} {s t : StepSpec}
    (hs : steps[i]? = some s) (ht : steps[j]? = some t) (h : Needs (needsIndices steps) i j) :
    Edge steps s.id t.id := by
  obtain ⟨s', t', hs', ht', hn⟩ := (needs_iff hv).mp h
  rw [hs] at hs'
  rw [ht] at ht'
  cases hs'
  cases ht'
  exact ⟨s, List.mem_of_getElem? hs, rfl, hn⟩

/-- Reaching a step by index is reaching its id. -/
theorem transGen_iff (hv : ValidPipeline steps) {i j : ℕ} {s t : StepSpec}
    (hs : steps[i]? = some s) (ht : steps[j]? = some t) :
    TransGen (Needs (needsIndices steps)) i j ↔ TransGen (Edge steps) s.id t.id := by
  constructor
  · intro h
    induction h generalizing t with
    | single hedge => exact .single (edge_of_needs hv hs ht hedge)
    | tail hpath hedge ih =>
      obtain ⟨m, t', hm, ht', hn⟩ := (needs_iff hv).mp hedge
      exact (ih hm).tail (edge_of_needs hv hm ht hedge)
  · intro h
    generalize hb : t.id = b at h
    induction h generalizing t j with
    | single hedge =>
      obtain ⟨n, hn, hid, hin⟩ := hedge
      obtain ⟨k, hk⟩ := List.mem_iff_getElem?.mp hn
      obtain rfl := id_injective hv hk hs hid
      exact .single ((needs_iff hv).mpr ⟨n, t, hk, ht, hb ▸ hin⟩)
    | tail hpath hedge ih =>
      obtain ⟨n, hn, hid, hin⟩ := hedge
      obtain ⟨k, hk⟩ := List.mem_iff_getElem?.mp hn
      exact (ih hk hid).tail ((needs_iff hv).mpr ⟨n, t, hk, ht, hb ▸ hin⟩)

theorem dag (hv : ValidPipeline steps) : Dag (needsIndices steps) := by
  constructor
  · intro i j hj
    obtain ⟨_, t, _, ht, _⟩ := (needs_iff hv).mp hj
    have hlt : j < steps.length := (List.getElem?_eq_some_iff.mp ht).1
    simpa [needsIndices] using hlt
  · intro i hcycle
    obtain ⟨j, hedge, _⟩ := TransGen.head'_iff.mp hcycle
    obtain ⟨s, _, hs, _, _⟩ := (needs_iff hv).mp hedge
    exact hv.acyclic s.id ((transGen_iff hv hs hs).mp hcycle)

theorem mem_gateIndices {g : ℕ} :
    g ∈ gateIndices steps ↔ ∃ s, steps[g]? = some s ∧ s.isGate = true := by
  simp [gateIndices, List.mem_zipIdx_iff_getElem?]

theorem gateIndices_sorted (steps : List StepSpec) : (gateIndices steps).Pairwise (· < ·) := by
  unfold gateIndices
  rw [List.pairwise_map]
  apply List.Pairwise.filter
  have hsnd : (steps.zipIdx.map Prod.snd).Pairwise (· < ·) := by
    rw [List.zipIdx_map_snd]
    simpa using List.pairwise_lt_range' (s := 0) (n := steps.length)
  exact List.pairwise_map.mp hsnd

theorem gateIndices_length (steps : List StepSpec) :
    (gateIndices steps).length = steps.countP (·.isGate) := by
  have hcount : (steps.zipIdx.map Prod.fst).countP (·.isGate) = steps.countP (·.isGate) := by
    rw [List.zipIdx_map_fst]
  rw [← hcount, List.countP_map, gateIndices, List.length_map, List.countP_eq_length_filter]
  rfl

/-- A gate and its bit. -/
def bitOf (steps : List StepSpec) : List (ℕ × BitVec 64) :=
  (gateIndices steps).zipIdx.map fun p => (p.1, 1#64 <<< p.2)

theorem gateBits_eq (h : steps.countP (·.isGate) ≤ maxGates) :
    gateBits steps = .ok (bitOf steps) := by
  have hmap : ∀ l : List (ℕ × ℕ), (∀ p ∈ l, p.2 < 64) →
      (l.mapM fun p => do
        let bit ← shiftLeft p.2
        (.ok (p.1, bit) : Except Refusal (ℕ × BitVec 64))) =
        .ok (l.map fun p => (p.1, 1#64 <<< p.2)) := by
    intro l
    induction l with
    | nil => intro _; rfl
    | cons p l ih =>
      intro hl
      have hp : shiftLeft p.2 = .ok (1#64 <<< p.2) := by
        rw [shiftLeft, if_pos (hl p List.mem_cons_self)]
      rw [List.mapM_cons, hp]
      simp only [Bind.bind, Except.bind]
      have htail := ih fun q hq => hl q (List.mem_cons_of_mem _ hq)
      simp only [Bind.bind, Except.bind] at htail
      rw [htail]
      rfl
  apply hmap
  intro p hp
  obtain ⟨_, hlt, _⟩ := List.mem_zipIdx hp
  have hlen := gateIndices_length steps
  unfold maxGates at h
  omega

/-- The `b`-th gate. -/
theorem mem_bitOf {g : ℕ} {bit : BitVec 64} :
    (g, bit) ∈ bitOf steps ↔ ∃ b : ℕ, (gateIndices steps)[b]? = some g ∧ bit = 1#64 <<< b := by
  simp only [bitOf, List.mem_map, Prod.exists, List.mem_zipIdx_iff_getElem?, Prod.mk.injEq]
  constructor
  · rintro ⟨g', b, hb, rfl, rfl⟩
    exact ⟨b, hb, rfl⟩
  · rintro ⟨b, hb, rfl⟩
    exact ⟨g, b, hb, rfl, rfl⟩

theorem bitOf_keys (steps : List StepSpec) : (bitOf steps).map (·.1) = gateIndices steps := by
  unfold bitOf
  rw [List.map_map]
  exact List.zipIdx_map_fst 0 _

theorem lookup_eq_some {β : Type} {l : List (ℕ × β)} (h : (l.map (·.1)).Nodup) {n : ℕ} {v : β} :
    l.lookup n = some v ↔ (n, v) ∈ l := by
  induction l with
  | nil => simp
  | cons e l ih =>
    obtain ⟨m, u⟩ := e
    simp only [List.map_cons, List.nodup_cons] at h
    rw [List.lookup_cons]
    by_cases hnm : n = m
    · subst hnm
      have hout : (n, v) ∉ l := fun hin => h.1 (List.mem_map_of_mem (f := Prod.fst) hin)
      simp [hout, eq_comm]
    · have hbeq : (n == m) = false := by simpa using hnm
      simp [hbeq, ih h.2, hnm]

theorem gateIndices_lt (h : steps.countP (·.isGate) ≤ maxGates) {b g : ℕ}
    (hb : (gateIndices steps)[b]? = some g) : b < 64 := by
  have hlt := (List.getElem?_eq_some_iff.mp hb).1
  have hlen := gateIndices_length steps
  unfold maxGates at h
  omega

/-- A step is given the bit of a gate exactly when it is that gate. -/
theorem mem_lookup (h : steps.countP (·.isGate) ≤ maxGates) {b g n : ℕ}
    (hb : (gateIndices steps)[b]? = some g) :
    b ∈ bitSet (((bitOf steps).lookup n).getD 0) ↔ n = g := by
  have hnodup : (gateIndices steps).Nodup := (gateIndices_sorted steps).imp fun hlt => hlt.ne
  have hkeys : ((bitOf steps).map (·.1)).Nodup := by
    rw [bitOf_keys]
    exact hnodup
  constructor
  · intro hmem
    cases hl : (bitOf steps).lookup n with
    | none =>
      rw [hl] at hmem
      exact absurd hmem not_mem_zero
    | some bit =>
      obtain ⟨b', hb', rfl⟩ := mem_bitOf.mp ((lookup_eq_some hkeys).mp hl)
      rw [hl, Option.getD_some, mem_shiftLeft (gateIndices_lt h hb')] at hmem
      rw [hmem, hb'] at hb
      exact Option.some.inj hb
  · rintro rfl
    have hl := (lookup_eq_some hkeys).mpr (mem_bitOf.mpr ⟨b, hb, rfl⟩)
    rw [hl, Option.getD_some, mem_shiftLeft (gateIndices_lt h hb)]

theorem mem_gatesUnion {needs : List (List ℕ)} {gateBit : List (ℕ × BitVec 64)} {i k : ℕ}
    {sets : List (BitVec 64)} :
    k ∈ bitSet (gatesUnion needs gateBit i sets) ↔
      ∃ n ∈ KahnFold.needsOf needs i,
        k ∈ bitSet (sets.getD n 0) ∨ k ∈ bitSet ((gateBit.lookup n).getD 0) := by
  have hfold : ∀ (ns : List ℕ) (acc : BitVec 64),
      k ∈ bitSet (ns.foldl
        (fun acc n => acc ||| sets.getD n 0 ||| (gateBit.lookup n).getD 0) acc) ↔
      k ∈ bitSet acc ∨ ∃ n ∈ ns,
        k ∈ bitSet (sets.getD n 0) ∨ k ∈ bitSet ((gateBit.lookup n).getD 0) := by
    intro ns
    induction ns with
    | nil => intro acc; simp
    | cons n ns ih =>
      intro acc
      rw [List.foldl_cons, ih, mem_or, mem_or]
      simp only [List.mem_cons, exists_eq_or_imp, or_assoc]
  unfold gatesUnion
  rw [hfold]
  exact ⟨fun h => h.resolve_left not_mem_zero, .inr⟩

theorem gatesUnion_local (needs : List (List ℕ)) (gateBit : List (ℕ × BitVec 64)) :
    Local needs (gatesUnion needs gateBit) := by
  intro i sets sets' h
  unfold gatesUnion
  apply List.foldl_ext
  intro acc n hn
  simp only [List.getD, h n hn]

/-- The sets the loop ends with: a gate's bit is in a step's set exactly when the step reaches the
gate. -/
def Reaches (steps : List StepSpec) (sets : List (BitVec 64)) : Prop :=
  ∀ i s, steps[i]? = some s → ∀ g t b, steps[g]? = some t → (gateIndices steps)[b]? = some g →
    (b ∈ bitSet (sets.getD i 0) ↔ TransGen (Edge steps) s.id t.id)

theorem transGen_needs_iff {needs : List (List ℕ)} {i g : ℕ} :
    TransGen (Needs needs) i g ↔
      ∃ n ∈ KahnFold.needsOf needs i, TransGen (Needs needs) n g ∨ n = g := by
  rw [TransGen.head'_iff]
  constructor
  · rintro ⟨n, hn, hpath⟩
    rcases ReflTransGen.cases_head hpath with heq | ⟨m, hm, hrest⟩
    · exact ⟨n, hn, .inr heq⟩
    · exact ⟨n, hn, .inl (TransGen.head'_iff.mpr ⟨m, hm, hrest⟩)⟩
  · rintro ⟨n, hn, hpath | rfl⟩
    · exact ⟨n, hn, hpath.to_reflTransGen⟩
    · exact ⟨n, hn, .refl⟩

/-- The loop meets no underflow, and its sets are reachability. -/
theorem upstreamGatesOf_eq (hv : ValidPipeline steps)
    (h : steps.countP (·.isGate) ≤ maxGates) :
    ∃ sets, upstreamGatesOf steps (bitOf steps) = .ok sets ∧ Reaches steps sets := by
  have hlen : (needsIndices steps).length = steps.length := by simp [needsIndices]
  obtain ⟨s, hrun, hvalues⟩ :=
    run_values (dag hv) (gatesUnion_local (needsIndices steps) (bitOf steps)) 0
  rw [hlen] at hrun hvalues
  refine ⟨s.values, by simp only [upstreamGatesOf, hrun], ?_⟩
  have hindex : ∀ i, i < (needsIndices steps).length → ∀ g b, (gateIndices steps)[b]? = some g →
      (b ∈ bitSet (s.values.getD i 0) ↔ TransGen (Needs (needsIndices steps)) i g) := by
    apply (dag hv).induct (P := fun i => ∀ g b, (gateIndices steps)[b]? = some g →
      (b ∈ bitSet (s.values.getD i 0) ↔ TransGen (Needs (needsIndices steps)) i g))
    intro i hi ih g b hb
    have hvalue : s.values.getD i 0 = gatesUnion (needsIndices steps) (bitOf steps) i s.values := by
      rw [List.getD, hvalues i (by omega), Option.getD_some]
    rw [hvalue, mem_gatesUnion, transGen_needs_iff]
    constructor
    · rintro ⟨n, hn, hin | hin⟩
      · exact ⟨n, hn, .inl ((ih n hn g b hb).mp hin)⟩
      · exact ⟨n, hn, .inr ((mem_lookup h hb).mp hin)⟩
    · rintro ⟨n, hn, hpath | heq⟩
      · exact ⟨n, hn, .inl ((ih n hn g b hb).mpr hpath)⟩
      · exact ⟨n, hn, .inr ((mem_lookup h hb).mpr heq)⟩
  intro i t hi g u b hg hb
  have hlt : i < steps.length := (List.getElem?_eq_some_iff.mp hi).1
  rw [hindex i (by omega) g b hb, transGen_iff hv hi hg]

end graph

open Classical in
/-- The gates reachable from a step through needs, in pipeline order. -/
noncomputable def gatesAbove (steps : List StepSpec) (id : Text) : List Text :=
  (steps.filter fun g => decide (g.isGate = true ∧ TransGen (Edge steps) id g.id)).map (·.id)

section lists

variable {steps : List StepSpec}

/-- Sorting undoes the order a hash map yields the gates in. -/
theorem gateOrder_eq (order : HashOrder) (steps : List StepSpec) :
    gateOrder order (bitOf steps) = bitOf steps := by
  have hsorted : (bitOf steps).Pairwise fun a b => a.1 < b.1 := by
    have hkeys := gateIndices_sorted steps
    rw [← bitOf_keys] at hkeys
    exact List.pairwise_map.mp hkeys
  have hunique : ∀ a ∈ bitOf steps, ∀ b ∈ bitOf steps, a.1 = b.1 → a = b := by
    intro a ha b hb hab
    have hnodup : ((bitOf steps).map (·.1)).Nodup := by
      rw [bitOf_keys]
      exact (gateIndices_sorted steps).imp fun hlt => hlt.ne
    have hla := (lookup_eq_some hnodup).mpr ha
    have hlb := (lookup_eq_some hnodup).mpr hb
    rw [hab, hlb] at hla
    exact Prod.ext hab (Option.some.inj hla).symm
  have hperm : (gateOrder order (bitOf steps)).Perm (bitOf steps) :=
    (List.mergeSort_perm _ _).trans (order.perm _)
  apply @List.Perm.eq_of_pairwise _
    (fun a b => decide (a.1 < b.1 ∨ a.1 = b.1 ∧ a.2.toNat ≤ b.2.toNat) = true) _ _ _ _ _ hperm
  · intro a b ha hb hab hba
    simp only [decide_eq_true_eq] at hab hba
    exact hunique a (hperm.mem_iff.mp ha) b hb (by omega)
  · apply List.pairwise_mergeSort
    · intro a b c hab hbc
      simp only [decide_eq_true_eq] at hab hbc ⊢
      omega
    · intro a b
      simp only [Bool.or_eq_true, decide_eq_true_eq]
      omega
  · exact hsorted.imp fun hlt => by simp [hlt]

theorem hasGate_iff {sets : List (BitVec 64)} {i b : ℕ} :
    hasGate sets i (1#64 <<< b) = true ↔ b ∈ bitSet (sets.getD i 0) := mask_ne_zero_iff

theorem mem_gatesAbove {id : Text} {gid : Text} :
    gid ∈ gatesAbove steps id ↔
      ∃ g ∈ steps, g.isGate = true ∧ g.id = gid ∧ TransGen (Edge steps) id gid := by
  simp only [gatesAbove, List.mem_map, List.mem_filter, decide_eq_true_eq]
  constructor
  · rintro ⟨g, ⟨hg, hgate, hpath⟩, rfl⟩
    exact ⟨g, hg, hgate, rfl, hpath⟩
  · rintro ⟨g, hg, hgate, rfl, hpath⟩
    exact ⟨g, ⟨hg, hgate, hpath⟩, rfl⟩

/-- A list of steps with their indices, filtered by the step. -/
theorem filter_zipIdx {p : StepSpec × ℕ → Bool} {q : StepSpec → Bool}
    (h : ∀ s i, steps[i]? = some s → p (s, i) = q s) :
    (steps.zipIdx.filter p).map (·.1.id) = (steps.filter q).map (·.id) := by
  have hfilter : steps.zipIdx.filter p = steps.zipIdx.filter (q ∘ Prod.fst) := by
    apply List.filter_congr
    rintro ⟨s, i⟩ hmem
    exact h s i (List.mem_zipIdx_iff_getElem?.mp hmem)
  have hmap : (fun e : StepSpec × ℕ => e.1.id) = (fun s : StepSpec => s.id) ∘ Prod.fst := rfl
  rw [hfilter, hmap, ← List.map_map, ← List.filter_map, List.zipIdx_map_fst]

/-- One step is added to the dependents of each gate upstream of it. -/
theorem addDependent_get {sets : List (BitVec 64)} {i g : ℕ} {id : Text}
    {es : List (ℕ × BitVec 64)} (hes : (es.map (·.1)).Nodup) (m : SortedMap ℕ (List Text)) :
    ((es.foldl
      (fun m e => if hasGate sets i e.2 then m.insert e.1 ((m.get e.1).getD [] ++ [id]) else m)
      m).get g).getD [] =
      (m.get g).getD [] ++ if es.any (fun e => decide (e.1 = g) && hasGate sets i e.2) then [id]
        else [] := by
  induction es generalizing m with
  | nil => simp
  | cons e es ih =>
    simp only [List.map_cons, List.nodup_cons] at hes
    rw [List.foldl_cons, ih hes.2, List.any_cons]
    by_cases heg : e.1 = g
    · have hnone : es.any (fun e => decide (e.1 = g) && hasGate sets i e.2) = false := by
        rw [List.any_eq_false]
        intro e' he' hand
        simp only [Bool.and_eq_true, decide_eq_true_eq] at hand
        exact hes.1 (List.mem_map.mpr ⟨e', he', by rw [hand.1, heg]⟩)
      rw [hnone]
      subst heg
      cases hasGate sets i e.2 <;> simp
    · cases hasGate sets i e.2 with
      | false => simp [heg]
      | true =>
        have hge : ¬ g = e.1 := fun h => heg h.symm
        simp [heg, hge]

/-- The dependents kept for a gate are the steps with its bit, in pipeline order. -/
theorem dependentsOf_get (order : HashOrder) {sets : List (BitVec 64)} {g b : ℕ}
    (hb : (gateIndices steps)[b]? = some g) :
    ((dependentsOf order steps (bitOf steps) sets).get g).getD [] =
      (steps.zipIdx.filter fun p => !p.1.isGate && hasGate sets p.2 (1#64 <<< b)).map (·.1.id) := by
  have hperm := order.perm (bitOf steps)
  have hnodup : ((bitOf steps).map (·.1)).Nodup := by
    rw [bitOf_keys]
    exact (gateIndices_sorted steps).imp fun hlt => hlt.ne
  have hkeys : ((order.visit (bitOf steps)).map (·.1)).Nodup :=
    (hperm.map _).nodup_iff.mpr hnodup
  have hany : ∀ i, (order.visit (bitOf steps)).any
      (fun e => decide (e.1 = g) && hasGate sets i e.2) = hasGate sets i (1#64 <<< b) := by
    intro i
    rw [Bool.eq_iff_iff, List.any_eq_true]
    have hmem : (g, 1#64 <<< b) ∈ bitOf steps := mem_bitOf.mpr ⟨b, hb, rfl⟩
    constructor
    · rintro ⟨⟨g', bit⟩, he, hand⟩
      simp only [Bool.and_eq_true, decide_eq_true_eq] at hand
      obtain ⟨rfl, hbit⟩ := hand
      have hl := (lookup_eq_some hnodup).mpr (hperm.mem_iff.mp he)
      rw [(lookup_eq_some hnodup).mpr hmem] at hl
      rw [Option.some.inj hl]
      exact hbit
    · intro hbit
      exact ⟨(g, 1#64 <<< b), hperm.mem_iff.mpr hmem, by simp [hbit]⟩
  have hfold : ∀ (ps : List (StepSpec × ℕ)) (m : SortedMap ℕ (List Text)),
      ((ps.foldl
        (fun m p =>
          if p.1.isGate then m
          else (order.visit (bitOf steps)).foldl
            (fun m g =>
              if hasGate sets p.2 g.2 then m.insert g.1 ((m.get g.1).getD [] ++ [p.1.id]) else m) m)
        m).get g).getD [] = (m.get g).getD [] ++
          (ps.filter fun p => !p.1.isGate && hasGate sets p.2 (1#64 <<< b)).map (·.1.id) := by
    intro ps
    induction ps with
    | nil => intro m; simp
    | cons p ps ih =>
      intro m
      rw [List.foldl_cons, ih]
      cases hgate : p.1.isGate with
      | true => simp [hgate]
      | false =>
        rw [if_neg (by simp), addDependent_get hkeys, hany, List.filter_cons]
        cases hasGate sets p.2 (1#64 <<< b) <;> simp [hgate]
  unfold dependentsOf
  rw [hfold, SortedMap.get_empty]
  simp

/-- The gates read back for a step. -/
theorem upstreamGates_ids {sets : List (BitVec 64)} {i : ℕ} {l : List (ℕ × BitVec 64)}
    {gates : List UpstreamGate} (h : upstreamGates steps sets i l = .ok gates) :
    gates.map (·.id) =
      (l.filter fun e => hasGate sets i e.2).filterMap fun e => (steps[e.1]?).map (·.id) := by
  induction l generalizing gates with
  | nil =>
    cases h
    rfl
  | cons e l ih =>
    obtain ⟨g, bit⟩ := e
    rw [upstreamGates] at h
    cases hbit : hasGate sets i bit with
    | false =>
      simp only [hbit] at h
      simp [hbit, ih h]
    | true =>
      simp only [hbit, if_true] at h
      cases hg : steps[g]? with
      | none => simp [hg] at h
      | some gate =>
        simp only [hg, Bind.bind, Except.bind] at h
        cases hk : gateKind gate with
        | error e => simp [hk] at h
        | ok kind =>
          cases hrest : upstreamGates steps sets i l with
          | error e => simp [hk, hrest] at h
          | ok rest =>
            simp only [hk, hrest, Except.ok.injEq] at h
            subst h
            simp [hbit, hg, ih hrest]

/-- The gates read back for a step are those it reaches. -/
theorem upstream_eq {sets : List (BitVec 64)} (hr : Reaches steps sets) {i : ℕ} {s : StepSpec}
    (hs : steps[i]? = some s) :
    ((bitOf steps).filter fun e => hasGate sets i e.2).filterMap
      (fun e => (steps[e.1]?).map (·.id)) = gatesAbove steps s.id := by
  classical
  let reached : ℕ → Bool := fun g =>
    decide (∃ t, steps[g]? = some t ∧ TransGen (Edge steps) s.id t.id)
  have hbits : (bitOf steps).filter (fun e => hasGate sets i e.2) =
      (bitOf steps).filter (reached ∘ Prod.fst) := by
    apply List.filter_congr
    rintro ⟨g, bit⟩ hmem
    obtain ⟨b, hb, rfl⟩ := mem_bitOf.mp hmem
    obtain ⟨t, ht, _⟩ := mem_gateIndices.mp (List.mem_of_getElem? hb)
    rw [Bool.eq_iff_iff, hasGate_iff, hr i s hs g t b ht hb]
    simp [reached, ht]
  have hkeys : ((bitOf steps).filter (reached ∘ Prod.fst)).map (·.1) =
      ((steps.zipIdx.filter fun p => p.1.isGate).filter (reached ∘ Prod.snd)).map (·.2) := by
    rw [← List.filter_map, ← List.filter_map, bitOf_keys]
    rfl
  have hread : ∀ l : List (ℕ × BitVec 64),
      l.filterMap (fun e => (steps[e.1]?).map (·.id)) =
        (l.map (·.1)).filterMap fun g => (steps[g]?).map (·.id) := by
    intro l
    rw [List.filterMap_map]
    rfl
  have hsome : ∀ l : List (StepSpec × ℕ), (∀ p ∈ l, p ∈ steps.zipIdx) →
      (l.map (·.2)).filterMap (fun g => (steps[g]?).map (·.id)) = l.map (·.1.id) := by
    intro l hl
    rw [List.filterMap_map, ← List.filterMap_eq_map]
    apply List.filterMap_congr
    rintro ⟨t, j⟩ hmem
    simp [List.mem_zipIdx_iff_getElem?.mp (hl _ hmem)]
  rw [hbits, hread, hkeys, hsome _ fun p hp => (List.mem_filter.mp (List.mem_filter.mp hp).1).1,
    List.filter_filter]
  apply filter_zipIdx
  intro t j ht
  rw [Bool.eq_iff_iff]
  simp [reached, ht, and_comm]

end lists

section input

variable {τ ι : Type} {host : Host} {ir : PipelineIr} {facts : RunCreateFacts τ ι}

theorem bind_eq_ok {ε α β : Type} {x : Except ε α} {f : α → Except ε β} {b : β} :
    (x >>= f) = .ok b ↔ ∃ a, x = .ok a ∧ f a = .ok b := by
  cases x with
  | error e => simp [Bind.bind, Except.bind]
  | ok a => simp [Bind.bind, Except.bind]

theorem capped_items {α : Type} {cap : ℕ} {items : List α} {owner : Owner} {noun : Text}
    {c : Capped α cap} (h : capped cap items owner noun = .ok c) : c.items = items := by
  unfold capped at h
  split_ifs at h
  cases h
  rfl

theorem stepInput_ok {sets : List (BitVec 64)} {order : List (ℕ × BitVec 64)} {s : StepSpec}
    {i : ℕ} {out : Step} (h : stepInput host ir facts sets order s i = .ok out) :
    out.id = s.id ∧ upstreamGates ir.steps sets i order = .ok out.upstreamGates.items := by
  unfold stepInput at h
  obtain ⟨upstream, hup, h⟩ := bind_eq_ok.mp h
  obtain ⟨grants, _, h⟩ := bind_eq_ok.mp h
  obtain ⟨secrets, _, h⟩ := bind_eq_ok.mp h
  obtain ⟨profiles, _, h⟩ := bind_eq_ok.mp h
  obtain ⟨origin, _, h⟩ := bind_eq_ok.mp h
  obtain ⟨gates, hgates, h⟩ := bind_eq_ok.mp h
  cases h
  exact ⟨rfl, by rw [capped_items hgates]; exact hup⟩

theorem gateInput_ok {dependents : SortedMap ℕ (List Text)} {s : StepSpec} {i : ℕ} {out : Gate}
    (h : gateInput dependents s i = .ok out) :
    out.id = s.id ∧ out.dependents.items = (dependents.get i).getD [] := by
  unfold gateInput at h
  obtain ⟨kind, _, h⟩ := bind_eq_ok.mp h
  obtain ⟨origin, _, h⟩ := bind_eq_ok.mp h
  obtain ⟨deps, hdeps, h⟩ := bind_eq_ok.mp h
  cases h
  exact ⟨rfl, capped_items hdeps⟩

/-- Steps and gates come out in the order they went in. -/
theorem inputsOf_ok {sets : List (BitVec 64)} {order : List (ℕ × BitVec 64)}
    {dependents : SortedMap ℕ (List Text)} {ps : List (StepSpec × ℕ)} {steps : List Step}
    {gates : List Gate} (h : inputsOf host ir facts sets order dependents ps = .ok (steps, gates)) :
    steps.map (·.id) = (ps.filter fun p => !p.1.isGate).map (·.1.id) ∧
    gates.map (·.id) = (ps.filter fun p => p.1.isGate).map (·.1.id) ∧
    (∀ out ∈ steps, ∃ p ∈ ps, p.1.isGate = false ∧
      stepInput host ir facts sets order p.1 p.2 = .ok out) ∧
    ∀ out ∈ gates, ∃ p ∈ ps, p.1.isGate = true ∧ gateInput dependents p.1 p.2 = .ok out := by
  induction ps generalizing steps gates with
  | nil =>
    cases h
    simp
  | cons p ps ih =>
    obtain ⟨s, i⟩ := p
    rw [inputsOf] at h
    cases hgate : s.isGate with
    | true =>
      simp only [hgate, if_true] at h
      obtain ⟨gate, hg, h⟩ := bind_eq_ok.mp h
      obtain ⟨⟨steps', gates'⟩, hrest, h⟩ := bind_eq_ok.mp h
      cases h
      obtain ⟨hsteps, hgates, hs, hgs⟩ := ih hrest
      refine ⟨by simp [hgate, hsteps], by simp [hgate, hgates, (gateInput_ok hg).1], ?_, ?_⟩
      · intro out hout
        obtain ⟨p, hp, hpout⟩ := hs out hout
        exact ⟨p, List.mem_cons_of_mem _ hp, hpout⟩
      · intro out hout
        rcases List.mem_cons.mp hout with rfl | hout
        · exact ⟨(s, i), List.mem_cons_self, hgate, hg⟩
        · obtain ⟨p, hp, hpout⟩ := hgs out hout
          exact ⟨p, List.mem_cons_of_mem _ hp, hpout⟩
    | false =>
      simp only [hgate, Bool.false_eq_true, if_false] at h
      obtain ⟨step, hst, h⟩ := bind_eq_ok.mp h
      obtain ⟨⟨steps', gates'⟩, hrest, h⟩ := bind_eq_ok.mp h
      cases h
      obtain ⟨hsteps, hgates, hs, hgs⟩ := ih hrest
      refine ⟨by simp [hgate, hsteps, (stepInput_ok hst).1], by simp [hgate, hgates], ?_, ?_⟩
      · intro out hout
        rcases List.mem_cons.mp hout with rfl | hout
        · exact ⟨(s, i), List.mem_cons_self, hgate, hst⟩
        · obtain ⟨p, hp, hpout⟩ := hs out hout
          exact ⟨p, List.mem_cons_of_mem _ hp, hpout⟩
      · intro out hout
        obtain ⟨p, hp, hpout⟩ := hgs out hout
        exact ⟨p, List.mem_cons_of_mem _ hp, hpout⟩

/-- A computation that does not panic. -/
def Calm {α : Type} (x : Except Refusal α) : Prop := x ≠ .error .overflow

theorem Calm.bind {α β : Type} {x : Except Refusal α} {f : α → Except Refusal β} (hx : Calm x)
    (hf : ∀ a, x = .ok a → Calm (f a)) : Calm (x >>= f) := by
  cases x with
  | error e => exact fun h => hx (by cases h; rfl)
  | ok a => exact hf a rfl

theorem calm_ok {α : Type} (a : α) : Calm (.ok a : Except Refusal α) := by simp [Calm]

theorem calm_capped {α : Type} {cap : ℕ} {items : List α} {owner : Owner} {noun : Text} :
    Calm (capped cap items owner noun) := by
  unfold Calm capped
  split_ifs <;> simp

theorem calm_gateKind {s : StepSpec} : Calm (gateKind s) := by
  unfold Calm gateKind
  split_ifs <;> simp

theorem calm_upstreamGates {steps : List StepSpec} {sets : List (BitVec 64)} {i : ℕ}
    {l : List (ℕ × BitVec 64)} (hl : ∀ e ∈ l, e.1 < steps.length) :
    Calm (upstreamGates steps sets i l) := by
  induction l with
  | nil => exact calm_ok _
  | cons e l ih =>
    obtain ⟨g, bit⟩ := e
    have hrest := ih fun e he => hl e (List.mem_cons_of_mem _ he)
    rw [upstreamGates]
    cases hasGate sets i bit with
    | false => simpa using hrest
    | true =>
      have hlt : g < steps.length := hl _ List.mem_cons_self
      have hg : steps[g]? = some steps[g] := List.getElem?_eq_getElem hlt
      simp only [if_true, hg]
      exact calm_gateKind.bind fun _ _ => hrest.bind fun _ _ => calm_ok _

theorem calm_inputsOf {sets : List (BitVec 64)} {order : List (ℕ × BitVec 64)}
    {dependents : SortedMap ℕ (List Text)} (horder : ∀ e ∈ order, e.1 < ir.steps.length)
    (ps : List (StepSpec × ℕ)) : Calm (inputsOf host ir facts sets order dependents ps) := by
  induction ps with
  | nil => exact calm_ok _
  | cons p ps ih =>
    obtain ⟨s, i⟩ := p
    rw [inputsOf]
    split_ifs
    · have hgate : Calm (gateInput dependents s i) :=
        calm_gateKind.bind fun _ _ => calm_capped.bind fun _ _ => calm_capped.bind fun _ _ =>
          calm_ok _
      exact hgate.bind fun _ _ => ih.bind fun _ _ => calm_ok _
    · have hstep : Calm (stepInput host ir facts sets order s i) :=
        (calm_upstreamGates horder).bind fun _ _ => calm_capped.bind fun _ _ =>
          calm_capped.bind fun _ _ => calm_capped.bind fun _ _ => calm_capped.bind fun _ _ =>
            calm_capped.bind fun _ _ => calm_ok _
      exact hstep.bind fun _ _ => ih.bind fun _ _ => calm_ok _

theorem gates_le_of_caps (h : checkRunCaps ir = .ok ()) : ir.steps.countP (·.isGate) ≤ maxGates := by
  simp only [checkRunCaps] at h
  split_ifs at h
  omega

theorem bitOf_lt {steps : List StepSpec} : ∀ e ∈ bitOf steps, e.1 < steps.length := by
  rintro ⟨g, bit⟩ hmem
  obtain ⟨b, hb, _⟩ := mem_bitOf.mp hmem
  obtain ⟨t, ht, _⟩ := mem_gateIndices.mp (List.mem_of_getElem? hb)
  exact (List.getElem?_eq_some_iff.mp ht).1

theorem calm_inputFromPipeline (hv : ValidPipeline ir.steps) (order : HashOrder)
    (name : Option Text) : Calm (inputFromPipeline host ir facts order name) := by
  unfold inputFromPipeline
  apply Calm.bind
  · unfold Calm checkRunCaps
    dsimp only
    split_ifs <;> simp
  · intro _ hcaps
    have hgates := gates_le_of_caps hcaps
    obtain ⟨sets, hsets, _⟩ := upstreamGatesOf_eq hv hgates
    rw [gateBits_eq hgates]
    show Calm (upstreamGatesOf ir.steps (bitOf ir.steps) >>= _)
    rw [hsets]
    show Calm (inputsOf host ir facts sets (gateOrder order (bitOf ir.steps)) _ _ >>= _)
    rw [gateOrder_eq]
    exact (calm_inputsOf bitOf_lt _).bind fun _ _ => calm_capped.bind fun _ _ =>
      calm_capped.bind fun _ _ => calm_ok _

/-- Every step and gate once, a step with the gates it reaches, a gate with the steps that list it,
all in pipeline order, and no overflow on the way. -/
theorem input_exact (hv : ValidPipeline ir.steps) (order : HashOrder) (name : Option Text) :
    inputFromPipeline host ir facts order name ≠ .error .overflow ∧
    ∀ input, inputFromPipeline host ir facts order name = .ok input →
      input.steps.items.map (·.id) = (ir.steps.filter fun s => !s.isGate).map (·.id) ∧
      input.gates.items.map (·.id) = (ir.steps.filter fun s => s.isGate).map (·.id) ∧
      (∀ s ∈ input.steps.items,
        s.upstreamGates.items.map (·.id) = gatesAbove ir.steps s.id ∧
          (s.upstreamGates.items.map (·.id)).Nodup) ∧
      ∀ g ∈ input.gates.items, g.dependents.items =
        (input.steps.items.filter fun s => g.id ∈ s.upstreamGates.items.map (·.id)).map (·.id) := by
  refine ⟨calm_inputFromPipeline hv order name, ?_⟩
  intro input h
  unfold inputFromPipeline at h
  obtain ⟨_, hcaps, h⟩ := bind_eq_ok.mp h
  have hgates := gates_le_of_caps hcaps
  obtain ⟨sets, hsets, hreach⟩ := upstreamGatesOf_eq hv hgates
  obtain ⟨bits, hbits, h⟩ := bind_eq_ok.mp h
  rw [gateBits_eq hgates] at hbits
  cases hbits
  obtain ⟨sets', hsets', h⟩ := bind_eq_ok.mp h
  rw [hsets] at hsets'
  cases hsets'
  obtain ⟨⟨steps, gates⟩, hinputs, h⟩ := bind_eq_ok.mp h
  obtain ⟨csteps, hcsteps, h⟩ := bind_eq_ok.mp h
  obtain ⟨cgates, hcgates, h⟩ := bind_eq_ok.mp h
  cases h
  simp only [capped_items hcsteps, capped_items hcgates]
  rw [gateOrder_eq] at hinputs
  obtain ⟨hstepIds, hgateIds, hsteps, hgateOuts⟩ := inputsOf_ok hinputs
  rw [filter_zipIdx (q := fun s => !s.isGate) fun _ _ _ => rfl] at hstepIds
  rw [filter_zipIdx (q := fun s => s.isGate) fun _ _ _ => rfl] at hgateIds
  have hupstream : ∀ s ∈ steps, s.upstreamGates.items.map (·.id) = gatesAbove ir.steps s.id := by
    intro out hout
    obtain ⟨⟨s, i⟩, hp, _, hstep⟩ := hsteps out hout
    obtain ⟨hid, hup⟩ := stepInput_ok hstep
    rw [upstreamGates_ids hup, hid]
    exact upstream_eq hreach (List.mem_zipIdx_iff_getElem?.mp hp)
  refine ⟨hstepIds, hgateIds, fun s hs => ⟨hupstream s hs, ?_⟩, ?_⟩
  · rw [hupstream s hs]
    exact (List.filter_sublist.map _).nodup hv.unique
  · intro out hout
    obtain ⟨⟨g, j⟩, hp, hgate, hgateInput⟩ := hgateOuts out hout
    obtain ⟨hid, hdeps⟩ := gateInput_ok hgateInput
    have hj := List.mem_zipIdx_iff_getElem?.mp hp
    obtain ⟨b, hb⟩ := List.mem_iff_getElem?.mp (mem_gateIndices.mpr ⟨g, hj, hgate⟩)
    classical
    let lists : Text → Bool := fun id => decide (out.id ∈ gatesAbove ir.steps id)
    have hlisted : steps.filter (fun s => out.id ∈ s.upstreamGates.items.map (·.id)) =
        steps.filter (lists ∘ (·.id)) := by
      apply List.filter_congr
      intro s hs
      rw [hupstream s hs]
      rfl
    have hfilter : (steps.filter (lists ∘ (·.id))).map (·.id) =
        (ir.steps.filter fun s => !s.isGate && lists s.id).map (·.id) := by
      rw [← List.filter_map, hstepIds, List.filter_map, List.filter_filter]
      congr 1
      apply List.filter_congr
      intro s _
      exact Bool.and_comm _ _
    rw [hdeps, dependentsOf_get order hb, hlisted, hfilter]
    apply filter_zipIdx
    intro s i hs
    have hreaches : hasGate sets i (1#64 <<< b) = lists s.id := by
      rw [Bool.eq_iff_iff, hasGate_iff, hreach i s hs j g b hj hb, decide_eq_true_eq,
        mem_gatesAbove, hid]
      exact ⟨fun hpath => ⟨g, List.mem_of_getElem? hj, hgate, rfl, hpath⟩,
        fun ⟨_, _, _, _, hpath⟩ => hpath⟩
    rw [hreaches]

end input

/-- A build, an approval that waits for it twice, and a deploy behind the approval. -/
def approvedSteps : List StepSpec :=
  [{ StepSpec.named "build".toList with image := "busybox".toList },
    { StepSpec.named "approve".toList with
      gate := some "manual".toList
      needs := ["build".toList, "build".toList] },
    { StepSpec.named "deploy".toList with image := "busybox".toList, needs := ["approve".toList] }]

def approvedDeploy : PipelineIr := ⟨3, false, false, ⟨[], []⟩, [], approvedSteps⟩

theorem approvedSteps_valid : ValidPipeline approvedSteps where
  unique := by decide
  resolved := by decide
  acyclic := acyclic_of_findCycle (by decide +kernel)

/-- A hash map that yields its entries backwards. -/
def backwards : HashOrder := ⟨List.reverse, List.reverse_perm⟩

theorem input_exact_approved :
    ∃ input, inputFromPipeline (pathHost []) approvedDeploy
        ⟨[], [], (), (), [], none, none, ∅, ∅⟩ backwards none = .ok input ∧
      input.steps.items.map (·.id) = ["build".toList, "deploy".toList] ∧
      ∀ s ∈ input.steps.items,
        s.upstreamGates.items.map (·.id) = gatesAbove approvedSteps s.id := by
  have hsome : (inputFromPipeline (pathHost []) approvedDeploy
      ⟨[], [], (), (), [], none, none, ∅, ∅⟩ backwards none).toOption.isSome = true := by
    decide +kernel
  cases h : inputFromPipeline (pathHost []) approvedDeploy
      ⟨[], [], (), (), [], none, none, ∅, ∅⟩ backwards none with
  | error e => simp [h, Except.toOption] at hsome
  | ok input =>
    obtain ⟨hsteps, -, hgates, -⟩ := (input_exact approvedSteps_valid backwards none).2 input h
    exact ⟨input, rfl, hsteps, fun s hs => (hgates s hs).1⟩

example : (inputFromPipeline (pathHost []) approvedDeploy
    ⟨[], [], (), (), [], none, none, ∅, ∅⟩ backwards none).toOption.map
      (fun i => i.gates.items.map (·.dependents.items)) = some [["deploy".toList]] := by
  decide +kernel

end Scarab.RunCreate
