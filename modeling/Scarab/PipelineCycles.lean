import Scarab.PipelineNames

/-!
# Compiled pipelines have no dependency cycle

`findCycle` removes free steps until none is left. Each removed step's needs were removed before
it, so a pipeline it removes entirely has no cycle.
-/
namespace Scarab.Pipeline

open Relation

/-- `a` needs `b` in a list of steps. -/
def Edge (steps : List StepSpec) (a b : Text) : Prop := ∃ n ∈ steps, n.id = a ∧ b ∈ n.needs

/-- The needs of the steps with an id, in order. -/
def needsOf (steps : List StepSpec) (v : Text) : List Text :=
  (steps.filter fun s => s.id = v).flatMap (·.needs)

theorem mem_needsOf {steps : List StepSpec} {a b : Text} : b ∈ needsOf steps a ↔ Edge steps a b := by
  simp [needsOf, Edge, and_assoc]

theorem indegrees_get {steps : List StepSpec} {v : Text} :
    ((indegrees steps).get v).getD 0 = (needsOf steps v).length := by
  have hfold : ∀ m : SortedMap Text ℕ, ((steps.foldl (fun m s =>
      m.insert s.id ((m.get s.id).getD 0 + s.needs.length)) m).get v).getD 0 =
        (m.get v).getD 0 + (needsOf steps v).length := by
    induction steps with
    | nil => simp [needsOf]
    | cons s ss ih =>
      intro m
      rw [List.foldl_cons, ih, SortedMap.get_insert]
      by_cases hv : s.id = v
      · subst hv
        simp [needsOf]
        omega
      · have hv' : ¬ v = s.id := fun h => hv h.symm
        simp [needsOf, hv, hv']
  have hzero : ∀ es : List StepSpec,
      ((SortedMap.ofList (es.map fun s => (s.id, 0))).get v).getD 0 = 0 := by
    intro es
    cases hget : (SortedMap.ofList (es.map fun s => (s.id, 0))).get v with
    | none => rfl
    | some d =>
      rcases SortedMap.get_insertAll hget with hmem | hmem
      · obtain ⟨s, -, hs⟩ := List.mem_map.mp hmem
        exact (Prod.mk.inj hs).2.symm
      · cases hmem
  unfold indegrees
  rw [hfold, hzero, Nat.zero_add]

theorem addDependents_count {needs : List Text} {id u v : Text} (m : SortedMap Text (List Text)) :
    (((needs.foldl (fun m n => m.insert n ((m.get n).getD [] ++ [id])) m).get u).getD []).count v =
      ((m.get u).getD []).count v + if id = v then needs.count u else 0 := by
  induction needs generalizing m with
  | nil => simp
  | cons n ns ih =>
    rw [List.foldl_cons, ih, SortedMap.get_insert]
    by_cases hn : u = n
    · subst hn
      by_cases hid : id = v
      · subst hid
        simp
        omega
      · simp [hid]
    · have hn' : ¬ n = u := fun h => hn h.symm
      simp [hn, hn']

theorem dependents_count {steps : List StepSpec} {u v : Text} :
    (((dependentsOf steps).get u).getD []).count v = (needsOf steps v).count u := by
  have hfold : ∀ m : SortedMap Text (List Text), (((steps.foldl (fun m s =>
      s.needs.foldl (fun m n => m.insert n ((m.get n).getD [] ++ [s.id])) m) m).get u).getD []).count v =
        ((m.get u).getD []).count v + (needsOf steps v).count u := by
    induction steps with
    | nil => simp [needsOf]
    | cons s ss ih =>
      intro m
      rw [List.foldl_cons, ih, addDependents_count]
      by_cases hv : s.id = v
      · simp [needsOf, hv]
        omega
      · simp [needsOf, hv]
  unfold dependentsOf
  rw [hfold]
  simp

/-- How many needs of a step are left. -/
def Kahn.left (k : Kahn) (v : Text) : ℕ := (k.indegree.get v).getD 0

theorem relax_left (k : Kahn) (dep v : Text) :
    (relax k dep).left v = if v = dep then k.left dep - 1 else k.left v := by
  simp only [relax, Kahn.left, SortedMap.get_insert]
  split_ifs <;> rfl

/-- Meeting one need of each step of a list: the steps with none left join the queue. -/
theorem foldl_relax {deps : List Text} {k : Kahn} (h : ∀ v, deps.count v ≤ k.left v) :
    (∀ v, (deps.foldl relax k).left v = k.left v - deps.count v) ∧
      (deps.foldl relax k).removed = k.removed ∧
      ∃ new, (deps.foldl relax k).queue = new ++ k.queue ∧ new.Nodup ∧
        ∀ v ∈ new, 0 < deps.count v ∧ k.left v = deps.count v := by
  induction deps generalizing k with
  | nil => exact ⟨fun v => by simp, rfl, [], rfl, List.nodup_nil, by simp⟩
  | cons d ds ih =>
    have hleft := relax_left k d
    have hd : ds.count d + 1 ≤ k.left d := by simpa using h d
    have hds : ∀ v, ds.count v ≤ (relax k d).left v := by
      intro v
      rw [hleft]
      split_ifs with hv
      · subst hv
        omega
      · have hv' := h v
        rwa [List.count_cons_of_ne fun h => hv h.symm] at hv'
    obtain ⟨hl, hr, new, hq, hnodup, hnew⟩ := ih hds
    have hnew' : ∀ v ∈ new, 0 < (d :: ds).count v ∧ k.left v = (d :: ds).count v := by
      intro v hv
      obtain ⟨hpos, heq⟩ := hnew v hv
      rw [hleft] at heq
      by_cases hvd : v = d
      · subst hvd
        rw [if_pos rfl] at heq
        rw [List.count_cons_self]
        omega
      · rw [if_neg hvd] at heq
        rw [List.count_cons_of_ne fun h => hvd h.symm]
        exact ⟨hpos, heq⟩
    refine ⟨fun v => ?_, hr, ?_⟩
    · rw [List.foldl_cons, hl, hleft]
      split_ifs with hv
      · subst hv
        rw [List.count_cons_self]
        omega
      · rw [List.count_cons_of_ne fun h => hv h.symm]
    · rw [List.foldl_cons, hq]
      by_cases hzero : k.left d - 1 = 0
      · -- the last need of `d` is met, so no later one is
        have hcount : ds.count d = 0 := by omega
        have hqueue : (relax k d).queue = d :: k.queue := by
          have hz : (k.indegree.get d).getD 0 - 1 = 0 := hzero
          simp [relax, hz]
        refine ⟨new ++ [d], by simp [hqueue], ?_, fun v hv => ?_⟩
        · refine List.nodup_append.mpr ⟨hnodup, List.nodup_singleton d, fun v hv w hw => ?_⟩
          obtain rfl := List.mem_singleton.mp hw
          rintro rfl
          have := (hnew v hv).1
          omega
        · rcases List.mem_append.mp hv with hv | hv
          · exact hnew' v hv
          · obtain rfl := List.mem_singleton.mp hv
            rw [List.count_cons_self]
            omega
      · have hqueue : (relax k d).queue = k.queue := by
          have hz : ¬ (k.indegree.get d).getD 0 - 1 = 0 := hzero
          simp [relax, hz]
        exact ⟨new, by rw [hqueue], hnodup, hnew'⟩

/-- The removed steps `gone` and the queue: their needs are gone, and none is on a cycle. -/
structure KahnInv (steps : List StepSpec) (gone : List Text) (k : Kahn) : Prop where
  left : ∀ v, k.left v = (needsOf steps v).countP fun u => decide (u ∉ gone)
  nodup : (gone ++ k.queue).Nodup
  mem : ∀ v ∈ gone ++ k.queue, v ∈ steps.map (·.id)
  free : ∀ v ∈ gone ++ k.queue, ∀ u ∈ needsOf steps v, u ∈ gone
  acyclic : ∀ v ∈ gone ++ k.queue, ¬ TransGen (Edge steps) v v
  removed : k.removed = gone.length

/-- A step on a cycle needs a step on a cycle. -/
theorem exists_need_on_cycle {steps : List StepSpec} {v : Text} (h : TransGen (Edge steps) v v) :
    ∃ u ∈ needsOf steps v, TransGen (Edge steps) u u := by
  obtain ⟨u, hvu, huv⟩ := TransGen.head'_iff.mp h
  exact ⟨u, mem_needsOf.mpr hvu, TransGen.tail' huv hvu⟩

theorem countP_gone {needs gone : List Text} {u : Text} (hu : u ∉ gone) :
    (needs.countP fun w => decide (w ∉ gone)) =
      (needs.countP fun w => decide (w ∉ gone ++ [u])) + needs.count u := by
  induction needs with
  | nil => simp
  | cons n ns ih =>
    rw [List.countP_cons, List.countP_cons, List.count_cons, ih]
    by_cases hn : n = u
    · subst hn
      simp [hu]
      omega
    · simp [hn]
      omega

/-- Removing the first step of the queue. -/
theorem KahnInv.pop {steps : List StepSpec} {gone rest : List Text} {k : Kahn} {u : Text}
    (h : KahnInv steps gone k) (hq : k.queue = u :: rest) :
    KahnInv steps (gone ++ [u]) ((((dependentsOf steps).get u).getD []).foldl relax
      { k with queue := rest, removed := k.removed + 1 }) := by
  have hnodup := h.nodup
  rw [hq] at hnodup
  have hu : u ∉ gone :=
    fun hmem => (List.nodup_append.mp hnodup).2.2 u hmem u List.mem_cons_self rfl
  set deps := ((dependentsOf steps).get u).getD []
  set k₁ : Kahn := { k with queue := rest, removed := k.removed + 1 }
  have hleft : ∀ v, k₁.left v = k.left v := fun v => rfl
  have hcount : ∀ v, deps.count v = (needsOf steps v).count u := fun v => dependents_count
  have hle : ∀ v, deps.count v ≤ k₁.left v := by
    intro v
    rw [hleft, h.left, hcount, countP_gone hu]
    omega
  obtain ⟨hl, hr, new, hnewq, hnewnodup, hnew⟩ := foldl_relax hle
  have hneeds : ∀ v ∈ new, u ∈ needsOf steps v := by
    intro v hv
    have hpos := (hnew v hv).1
    rw [hcount] at hpos
    exact List.count_pos_iff.mp hpos
  have hfree : ∀ v ∈ new, ∀ w ∈ needsOf steps v, w ∈ gone ++ [u] := by
    intro v hv w hw
    have hzero : ((needsOf steps v).countP fun w => decide (w ∉ gone ++ [u])) = 0 := by
      have hall := (hnew v hv).2
      rw [hleft, h.left, hcount, countP_gone hu] at hall
      omega
    have hmem := List.countP_eq_zero.mp hzero w hw
    simpa only [decide_eq_true_eq, not_not] using hmem
  have hold : ∀ v ∈ gone ++ [u] ++ rest, v ∈ gone ++ k.queue := by
    intro v hv
    rw [hq]
    simpa using hv
  have hcases : ∀ v ∈ gone ++ [u] ++ (new ++ rest), v ∈ new ∨ v ∈ gone ++ k.queue := by
    intro v hv
    rcases List.mem_append.mp hv with hv | hv
    · exact .inr (hold v (List.mem_append_left _ hv))
    · rcases List.mem_append.mp hv with hv | hv
      · exact .inl hv
      · exact .inr (hold v (List.mem_append_right _ hv))
  refine ⟨fun v => ?_, ?_, fun v hv => ?_, fun v hv w hw => ?_, fun v hv hcycle => ?_, ?_⟩
  · rw [hl, hleft, h.left, hcount, countP_gone hu]
    omega
  · have hperm : (gone ++ [u] ++ (new ++ rest)).Perm (new ++ (gone ++ u :: rest)) := by
      simpa using List.perm_append_comm_assoc (gone ++ [u]) new rest
    rw [hnewq, hperm.nodup_iff]
    refine List.nodup_append.mpr ⟨hnewnodup, hnodup, fun v hv w hw => ?_⟩
    rintro rfl
    exact hu (h.free v (hq ▸ hw) u (hneeds v hv))
  · rw [hnewq] at hv
    rcases hcases v hv with hv | hv
    · obtain ⟨n, hn, hid, -⟩ := mem_needsOf.mp (hneeds v hv)
      exact List.mem_map.mpr ⟨n, hn, hid⟩
    · exact h.mem v hv
  · rw [hnewq] at hv
    rcases hcases v hv with hv | hv
    · exact hfree v hv w hw
    · exact List.mem_append_left _ (h.free v hv w hw)
  · rw [hnewq] at hv
    rcases hcases v hv with hv | hv
    · obtain ⟨w, hw, hwcycle⟩ := exists_need_on_cycle hcycle
      exact h.acyclic w (hold w (List.mem_append_left _ (hfree v hv w hw))) hwcycle
    · exact h.acyclic v hv hcycle
  · rw [hr]
    simp [k₁, h.removed]

theorem removeFree_inv {steps : List StepSpec} {fuel : ℕ} {gone : List Text} {k : Kahn}
    (h : KahnInv steps gone k) :
    ∃ gone', KahnInv steps gone' (removeFree (dependentsOf steps) fuel k) := by
  induction fuel generalizing gone k with
  | zero => exact ⟨gone, h⟩
  | succ fuel ih =>
    cases hq : k.queue with
    | nil => exact ⟨gone, by simpa [removeFree, hq] using h⟩
    | cons u rest =>
      simp only [removeFree, hq]
      exact ih (h.pop hq)

theorem indegrees_keys {steps : List StepSpec} {v : Text} (h : v ∈ (indegrees steps).keys) :
    v ∈ steps.map (·.id) := by
  have hfold : ∀ (ss : List StepSpec) (m : SortedMap Text ℕ) d, (ss.foldl (fun m s =>
      m.insert s.id ((m.get s.id).getD 0 + s.needs.length)) m).get v = some d →
        v ∈ ss.map (·.id) ∨ ∃ d', m.get v = some d' := by
    intro ss
    induction ss with
    | nil => exact fun m d h => .inr ⟨d, h⟩
    | cons s ss ih =>
      intro m d h
      rcases ih _ d h with h | ⟨d', h⟩
      · exact .inl (List.mem_cons_of_mem _ h)
      · rw [SortedMap.get_insert] at h
        split_ifs at h with hv
        · exact .inl (hv ▸ List.mem_cons_self)
        · exact .inr ⟨d', h⟩
  obtain ⟨d, hd⟩ := SortedMap.mem_keys.mp h
  rcases hfold steps _ d hd with h | ⟨d', h⟩
  · exact h
  · rcases SortedMap.get_insertAll h with hmem | hmem
    · obtain ⟨s, hs, heq⟩ := List.mem_map.mp hmem
      exact List.mem_map.mpr ⟨s, hs, (Prod.mk.inj heq).1⟩
    · cases hmem

/-- The steps without needs are where the removal starts. -/
theorem kahnInv_start (steps : List StepSpec) :
    KahnInv steps [] ⟨indegrees steps,
      (((indegrees steps).entries.filter (·.2 = 0)).map (·.1)).reverse, 0⟩ := by
  have hfree : ∀ v ∈ ((indegrees steps).entries.filter (·.2 = 0)).map (·.1),
      v ∈ (indegrees steps).keys ∧ needsOf steps v = [] := by
    intro v hv
    obtain ⟨e, he, rfl⟩ := List.mem_map.mp hv
    obtain ⟨hmem, hzero⟩ := List.mem_filter.mp he
    have hget : (indegrees steps).get e.1 = some e.2 := SortedMap.get_eq_some.mpr hmem
    have hlen : (needsOf steps e.1).length = 0 := by
      rw [← indegrees_get, hget]
      simpa using hzero
    exact ⟨List.mem_map.mpr ⟨e, hmem, rfl⟩, List.length_eq_zero_iff.mp hlen⟩
  have hnodup : (((indegrees steps).entries.filter (·.2 = 0)).map (·.1)).Nodup :=
    List.pairwise_map.mpr (((indegrees steps).sorted.filter _).imp fun h => h.ne)
  refine ⟨fun v => ?_, ?_, fun v hv => ?_, fun v hv u hu => ?_, fun v hv hcycle => ?_, rfl⟩
  · have hall : ∀ u ∈ needsOf steps v, decide (u ∉ ([] : List Text)) = true := by simp
    rw [List.countP_eq_length.mpr hall]
    exact indegrees_get
  · simpa using hnodup
  · exact indegrees_keys (hfree v (by simpa using hv)).1
  · rw [(hfree v (by simpa using hv)).2] at hu
    cases hu
  · obtain ⟨u, hu, -⟩ := exists_need_on_cycle hcycle
    rw [(hfree v (by simpa using hv)).2] at hu
    cases hu

theorem acyclic_of_findCycle {steps : List StepSpec} (h : findCycle steps = none) (v : Text) :
    ¬ TransGen (Edge steps) v v := by
  obtain ⟨gone, hinv⟩ : ∃ gone, KahnInv steps gone (removeFree (dependentsOf steps) steps.length _) :=
    removeFree_inv (kahnInv_start steps)
  have hremoved : gone.length = steps.length := by
    rw [← hinv.removed]
    unfold findCycle at h
    by_contra hne
    simp only [hne, if_false] at h
    cases h
  have hnodup : gone.Nodup := (List.nodup_append.mp hinv.nodup).1
  have hsub : gone ⊆ steps.map (·.id) := fun u hu => hinv.mem u (List.mem_append_left _ hu)
  have hperm : gone.Perm (steps.map (·.id)) :=
    (hnodup.subperm hsub).perm_of_length_le (by simp [hremoved])
  intro hcycle
  obtain ⟨u, ⟨n, hn, hid, -⟩, -⟩ := TransGen.head'_iff.mp hcycle
  have hmem : v ∈ gone := hperm.mem_iff.mpr (List.mem_map.mpr ⟨n, hn, hid⟩)
  exact hinv.acyclic v (List.mem_append_left _ hmem) hcycle

end Scarab.Pipeline
