import Mathlib

/-!
# Finite maps and sets

A map is the list of its entries with strictly ascending keys, so its keys are distinct
and an iteration meets them in order. A set of small numbers is the bits of a word.
-/
namespace Scarab

structure SortedMap (α β : Type) [LinearOrder α] where
  entries : List (α × β)
  sorted : entries.Pairwise fun a b => a.1 < b.1

namespace SortedMap

variable {α β γ ε : Type} [LinearOrder α]

def empty : SortedMap α β := ⟨[], List.Pairwise.nil⟩

instance : EmptyCollection (SortedMap α β) := ⟨empty⟩

def getEntry (k : α) : List (α × β) → Option β
  | [] => none
  | e :: es => if e.1 = k then some e.2 else getEntry k es

def get (m : SortedMap α β) (k : α) : Option β := getEntry k m.entries

def keys (m : SortedMap α β) : List α := m.entries.map (·.1)

def values (m : SortedMap α β) : List β := m.entries.map (·.2)

def contains (m : SortedMap α β) (k : α) : Bool := decide (k ∈ m.keys)

def insertEntry (k : α) (v : β) : List (α × β) → List (α × β)
  | [] => [(k, v)]
  | e :: es =>
      if k < e.1 then (k, v) :: e :: es
      else if k = e.1 then (k, v) :: es
      else e :: insertEntry k v es

theorem mem_insertEntry {k : α} {v : β} {e : α × β} :
    ∀ {es : List (α × β)}, e ∈ insertEntry k v es → e = (k, v) ∨ e ∈ es
  | [], h => by simpa [insertEntry] using h
  | x :: es, h => by
      simp only [insertEntry] at h
      split_ifs at h with h₁ h₂
      · simpa using h
      · rcases List.mem_cons.mp h with h | h
        · exact .inl h
        · exact .inr (List.mem_cons_of_mem _ h)
      · rcases List.mem_cons.mp h with h | h
        · exact .inr (h ▸ List.mem_cons_self)
        · exact (mem_insertEntry h).imp_right (List.mem_cons_of_mem _)

theorem sorted_insertEntry {k : α} {v : β} : ∀ {es : List (α × β)},
    es.Pairwise (fun a b => a.1 < b.1) → (insertEntry k v es).Pairwise fun a b => a.1 < b.1
  | [], _ => List.pairwise_singleton _ _
  | x :: es, h => by
      obtain ⟨hx, hes⟩ := List.pairwise_cons.mp h
      simp only [insertEntry]
      split_ifs with h₁ h₂
      · refine List.pairwise_cons.mpr ⟨fun e he => ?_, h⟩
        rcases List.mem_cons.mp he with rfl | he
        · exact h₁
        · exact h₁.trans (hx e he)
      · exact List.pairwise_cons.mpr ⟨fun e he => h₂ ▸ hx e he, hes⟩
      · refine List.pairwise_cons.mpr ⟨fun e he => ?_, sorted_insertEntry hes⟩
        rcases mem_insertEntry he with rfl | he
        · exact lt_of_le_of_ne (not_lt.mp h₁) (Ne.symm h₂)
        · exact hx e he

def insert (m : SortedMap α β) (k : α) (v : β) : SortedMap α β :=
  ⟨insertEntry k v m.entries, sorted_insertEntry m.sorted⟩

/-- Insert only where the key has no value. -/
def insertNew (m : SortedMap α β) (k : α) (v : β) : SortedMap α β :=
  if m.contains k then m else m.insert k v

/-- Insert the entries of a list in order: of two with one key, the later stays. -/
def insertAll (m : SortedMap α β) (es : List (α × β)) : SortedMap α β :=
  es.foldl (fun m e => m.insert e.1 e.2) m

def ofList (es : List (α × β)) : SortedMap α β := empty.insertAll es

def remove (m : SortedMap α β) (k : α) : SortedMap α β :=
  ⟨m.entries.filter (·.1 ≠ k), m.sorted.filter _⟩

def map (f : β → γ) (m : SortedMap α β) : SortedMap α γ :=
  ⟨m.entries.map fun e => (e.1, f e.2), List.pairwise_map.mpr m.sorted⟩

/-- Run `f` on each entry in key order, keeping the entries it gives a value and stopping at
the first error. -/
def filterMapEntries (f : α → β → Except ε (Option γ)) : List (α × β) → Except ε (List (α × γ))
  | [] => .ok []
  | e :: es =>
      match f e.1 e.2 with
      | .error x => .error x
      | .ok none => filterMapEntries f es
      | .ok (some c) =>
          match filterMapEntries f es with
          | .error x => .error x
          | .ok cs => .ok ((e.1, c) :: cs)

omit [LinearOrder α] in
theorem keys_filterMapEntries {f : α → β → Except ε (Option γ)} :
    ∀ {es : List (α × β)} {cs : List (α × γ)}, filterMapEntries f es = .ok cs →
      (cs.map (·.1)).Sublist (es.map (·.1))
  | [], cs, h => by
      obtain rfl : [] = cs := by simpa [filterMapEntries] using h
      exact List.Sublist.refl _
  | e :: es, cs, h => by
      simp only [filterMapEntries] at h
      split at h
      · cases h
      · exact (keys_filterMapEntries h).cons _
      · split at h
        · cases h
        · next cs' hcs =>
          obtain rfl : _ = cs := Except.ok.inj h
          exact (keys_filterMapEntries hcs).cons_cons _

theorem sorted_filterMapEntries {f : α → β → Except ε (Option γ)} {m : SortedMap α β}
    {cs : List (α × γ)} (h : filterMapEntries f m.entries = .ok cs) :
    cs.Pairwise fun a b => a.1 < b.1 := by
  have hm : (m.entries.map (·.1)).Pairwise (· < ·) := List.pairwise_map.mpr m.sorted
  exact List.pairwise_map.mp (hm.sublist (keys_filterMapEntries h))

def filterMapM (f : α → β → Except ε (Option γ)) (m : SortedMap α β) :
    Except ε (SortedMap α γ) :=
  match h : filterMapEntries f m.entries with
  | .error x => .error x
  | .ok cs => .ok ⟨cs, sorted_filterMapEntries h⟩

theorem getEntry_eq_some {k : α} {v : β} : ∀ {es : List (α × β)},
    es.Pairwise (fun a b => a.1 < b.1) → (getEntry k es = some v ↔ (k, v) ∈ es)
  | [], _ => by simp [getEntry]
  | e :: es, h => by
      obtain ⟨he, hes⟩ := List.pairwise_cons.mp h
      simp only [getEntry, List.mem_cons]
      split_ifs with hk
      · constructor
        · intro hv
          exact .inl (Prod.ext hk.symm (Option.some.inj hv).symm)
        · rintro (rfl | hmem)
          · rfl
          · exact absurd hk (he _ hmem).ne
      · rw [getEntry_eq_some hes]
        constructor
        · exact .inr
        · rintro (rfl | hmem)
          · exact absurd rfl hk
          · exact hmem

theorem get_eq_some {m : SortedMap α β} {k : α} {v : β} : m.get k = some v ↔ (k, v) ∈ m.entries :=
  getEntry_eq_some m.sorted

theorem mem_keys {m : SortedMap α β} {k : α} : k ∈ m.keys ↔ ∃ v, m.get k = some v := by
  simp [keys, get_eq_some]

theorem contains_iff {m : SortedMap α β} {k : α} : m.contains k = true ↔ ∃ v, m.get k = some v := by
  rw [contains, decide_eq_true_iff, mem_keys]

theorem mem_values {m : SortedMap α β} {v : β} : v ∈ m.values ↔ ∃ k, m.get k = some v := by
  simp [values, get_eq_some]

theorem getEntry_insertEntry {k k' : α} {v : β} : ∀ {es : List (α × β)},
    getEntry k' (insertEntry k v es) = if k' = k then some v else getEntry k' es
  | [] => by simp [insertEntry, getEntry, eq_comm]
  | e :: es => by
      have ih : getEntry k' (insertEntry k v es) = if k' = k then some v else getEntry k' es :=
        getEntry_insertEntry
      by_cases hk : k' = k
      · subst hk
        rw [if_pos rfl] at ih ⊢
        simp only [insertEntry]
        split_ifs with h₁ h₂
        · simp [getEntry]
        · simp [getEntry]
        · simp only [getEntry, if_neg (Ne.symm h₂), ih]
      · rw [if_neg hk] at ih ⊢
        simp only [insertEntry]
        split_ifs with h₁ h₂
        · simp [getEntry, Ne.symm hk]
        · have he : e.1 ≠ k' := fun h => hk (h.symm.trans h₂.symm)
          simp [getEntry, Ne.symm hk, he]
        · simp only [getEntry, ih]

@[simp] theorem get_insert {m : SortedMap α β} {k k' : α} {v : β} :
    (m.insert k v).get k' = if k' = k then some v else m.get k' :=
  getEntry_insertEntry

@[simp] theorem get_empty {k : α} : (∅ : SortedMap α β).get k = none := rfl

@[simp] theorem get_remove {m : SortedMap α β} {k k' : α} :
    (m.remove k).get k' = if k' = k then none else m.get k' := by
  refine Option.ext fun v => ?_
  rw [get_eq_some]
  split_ifs with hk
  · simp [remove, hk]
  · rw [get_eq_some]
    simp [remove, hk]

theorem get_map {f : β → γ} {m : SortedMap α β} {k : α} : (m.map f).get k = (m.get k).map f := by
  have haux : ∀ es : List (α × β),
      getEntry k (es.map fun e => (e.1, f e.2)) = (getEntry k es).map f := by
    intro es
    induction es with
    | nil => rfl
    | cons e es ih =>
      simp only [List.map_cons, getEntry]
      split_ifs
      · rfl
      · exact ih
  exact haux m.entries

theorem get_insertAll {es : List (α × β)} {k : α} {v : β} : ∀ {m : SortedMap α β},
    (m.insertAll es).get k = some v → (k, v) ∈ es ∨ m.get k = some v := by
  induction es with
  | nil => exact fun h => .inr h
  | cons e es ih =>
    intro m h
    rcases ih h with h | h
    · exact .inl (List.mem_cons_of_mem _ h)
    · rw [get_insert] at h
      split_ifs at h with hk
      · left
        rw [hk, ← Option.some.inj h]
        exact List.mem_cons_self
      · exact .inr h

theorem get_insertAll_of_notMem {es : List (α × β)} {k : α} (h : k ∉ es.map (·.1)) :
    ∀ m : SortedMap α β, (m.insertAll es).get k = m.get k := by
  induction es with
  | nil => exact fun m => rfl
  | cons e es ih =>
    intro m
    rw [List.map_cons, List.mem_cons, not_or] at h
    have htail : ((m.insert e.1 e.2).insertAll es).get k = (m.insert e.1 e.2).get k := ih h.2 _
    calc (m.insertAll (e :: es)).get k = ((m.insert e.1 e.2).insertAll es).get k := rfl
      _ = m.get k := by rw [htail, get_insert, if_neg h.1]

/-- Of entries with distinct keys, every one is found. -/
theorem get_insertAll_of_mem {es : List (α × β)} (hkeys : (es.map (·.1)).Nodup) {k : α} {v : β}
    (h : (k, v) ∈ es) : ∀ m : SortedMap α β, (m.insertAll es).get k = some v := by
  induction es with
  | nil => cases h
  | cons e es ih =>
    intro m
    rw [List.map_cons, List.nodup_cons] at hkeys
    have hnext : m.insertAll (e :: es) = (m.insert e.1 e.2).insertAll es := rfl
    rw [hnext]
    rcases List.mem_cons.mp h with rfl | h
    · rw [get_insertAll_of_notMem hkeys.1, get_insert, if_pos rfl]
    · exact ih hkeys.2 h _

/-- Two maps that find the same values are the same. -/
theorem ext_get {m m' : SortedMap α β} (h : ∀ k, m.get k = m'.get k) : m = m' := by
  have hmem : ∀ e, e ∈ m.entries ↔ e ∈ m'.entries := by
    rintro ⟨k, v⟩
    rw [← get_eq_some, ← get_eq_some, h]
  have hnodup : ∀ m : SortedMap α β, m.entries.Nodup := by
    intro m
    refine m.sorted.imp fun {a b} hab heq => ?_
    exact absurd (heq ▸ hab) (lt_irrefl _)
  have hperm : m.entries.Perm m'.entries := (List.perm_ext_iff_of_nodup (hnodup m) (hnodup m')).mpr hmem
  have heq : m.entries = m'.entries := by
    refine hperm.eq_of_pairwise (fun a b _ _ hab hba => ?_) m.sorted m'.sorted
    exact absurd (hab.trans hba) (lt_irrefl _)
  cases m
  cases m'
  simpa using heq

theorem getEntry_filterMapEntries {f : α → β → Except ε (Option γ)} {k : α} :
    ∀ {es : List (α × β)} {cs : List (α × γ)}, es.Pairwise (fun a b => a.1 < b.1) →
      filterMapEntries f es = .ok cs →
      ∀ b, getEntry k es = some b → f k b = .ok (getEntry k cs)
  | [], _, _, _, _, hb => by cases hb
  | e :: es, cs, hsort, h, b, hb => by
      obtain ⟨he, hes⟩ := List.pairwise_cons.mp hsort
      have hnone : ∀ cs', filterMapEntries f es = .ok cs' → getEntry e.1 cs' = none := by
        intro cs' hcs
        cases hg : getEntry e.1 cs' with
        | none => rfl
        | some c =>
          have hsub := keys_filterMapEntries hcs
          have hcsort : cs'.Pairwise fun a b => a.1 < b.1 :=
            sorted_filterMapEntries (m := ⟨es, hes⟩) hcs
          have hmem := (getEntry_eq_some hcsort).mp hg
          obtain ⟨x, hx, hkx⟩ :=
            List.mem_map.mp (hsub.subset (List.mem_map.mpr ⟨_, hmem, rfl⟩))
          exact absurd hkx (he x hx).ne'
      simp only [getEntry] at hb
      simp only [filterMapEntries] at h
      split_ifs at hb with hk
      · obtain rfl : e.2 = b := Option.some.inj hb
        subst hk
        split at h
        · cases h
        · next hf => rw [hf, hnone cs h]
        · next c hf =>
          split at h
          · cases h
          · next cs' hcs =>
            obtain rfl : _ = cs := Except.ok.inj h
            rw [hf]
            simp [getEntry]
      · split at h
        · cases h
        · exact getEntry_filterMapEntries hes h b hb
        · split at h
          · cases h
          · next cs' hcs =>
            obtain rfl : _ = cs := Except.ok.inj h
            simp only [getEntry, hk, if_false]
            exact getEntry_filterMapEntries hes hcs b hb

section filterMapM

variable {f : α → β → Except ε (Option γ)} {m : SortedMap α β} {m' : SortedMap α γ}

theorem entries_of_filterMapM (h : m.filterMapM f = .ok m') :
    filterMapEntries f m.entries = .ok m'.entries := by
  unfold filterMapM at h
  split at h
  · cases h
  · next cs hcs =>
    obtain rfl : _ = m' := Except.ok.inj h
    exact hcs

omit [LinearOrder α] in
theorem filterMapEntries_congr {f' : α → β → Except ε (Option γ)} :
    ∀ {es : List (α × β)} {cs : List (α × γ)}, filterMapEntries f es = .ok cs →
      (∀ e ∈ es, ∀ o, f e.1 e.2 = .ok o → f' e.1 e.2 = .ok o) → filterMapEntries f' es = .ok cs
  | [], _, h, _ => h
  | e :: es, cs, h, hf => by
      have htail : ∀ cs', filterMapEntries f es = .ok cs' → filterMapEntries f' es = .ok cs' :=
        fun cs' h => filterMapEntries_congr h fun x hx => hf x (List.mem_cons_of_mem _ hx)
      simp only [filterMapEntries] at h ⊢
      split at h
      · cases h
      · next he => rw [hf e List.mem_cons_self _ he]; exact htail cs h
      · next c he =>
        rw [hf e List.mem_cons_self _ he]
        split at h
        · cases h
        · next cs' hcs =>
          simp only [htail cs' hcs]
          exact h

theorem apply_of_filterMapM (h : m.filterMapM f = .ok m') {k : α} {b : β} (hb : m.get k = some b) :
    f k b = .ok (m'.get k) :=
  getEntry_filterMapEntries m.sorted (entries_of_filterMapM h) b hb

theorem get_filterMapM_none (h : m.filterMapM f = .ok m') {k : α} (hk : m.get k = none) :
    m'.get k = none := by
  have hsub := keys_filterMapEntries (entries_of_filterMapM h)
  by_contra hne
  obtain ⟨c, hc⟩ := Option.ne_none_iff_exists'.mp hne
  obtain ⟨b, hb⟩ := mem_keys.mp (hsub.subset (mem_keys.mpr ⟨c, hc⟩))
  rw [hk] at hb
  cases hb

omit [LinearOrder α] in
theorem keys_filterMapEntries_eq {p : α → β → Bool} : ∀ {es : List (α × β)} {cs : List (α × γ)},
    filterMapEntries f es = .ok cs → (∀ k b o, f k b = .ok o → o.isSome = p k b) →
      cs.map (·.1) = (es.filter fun e => p e.1 e.2).map (·.1)
  | [], cs, h, _ => by
      obtain rfl : [] = cs := by simpa [filterMapEntries] using h
      rfl
  | e :: es, cs, h, hp => by
      simp only [filterMapEntries] at h
      split at h
      · cases h
      · next hf =>
        have hpe : p e.1 e.2 = false := (hp _ _ _ hf).symm
        simpa [hpe] using keys_filterMapEntries_eq h hp
      · next c hf =>
        have hpe : p e.1 e.2 = true := (hp _ _ _ hf).symm
        split at h
        · cases h
        · next cs' hcs =>
          obtain rfl : _ = cs := Except.ok.inj h
          simpa [hpe] using keys_filterMapEntries_eq hcs hp

theorem keys_of_filterMapM {p : α → β → Bool} (h : m.filterMapM f = .ok m')
    (hp : ∀ k b o, f k b = .ok o → o.isSome = p k b) :
    m'.keys = (m.entries.filter fun e => p e.1 e.2).map (·.1) :=
  keys_filterMapEntries_eq (entries_of_filterMapM h) hp

end filterMapM

end SortedMap

/-- The values a word has as bits. -/
def bitSet {w : ℕ} (bits : BitVec w) : Set ℕ := {k | bits.getLsbD k = true}

theorem mask_ne_zero_iff {w : ℕ} {bits : BitVec w} {k : ℕ} :
    (bits &&& (1#w <<< k) != 0) = true ↔ k ∈ bitSet bits := by
  show (bits &&& (1#w <<< k) != 0) = true ↔ bits.getLsbD k = true
  rw [bne_iff_ne, ← BitVec.twoPow_eq, BitVec.and_twoPow]
  cases hbit : bits.getLsbD k with
  | false => simp
  | true =>
    have hk : k < w := BitVec.lt_of_getLsbD hbit
    simp only [if_true, iff_true, ne_eq]
    intro hzero
    have hget := congrArg (fun b => b.getLsbD k) hzero
    simp [hk] at hget

theorem mem_or {w : ℕ} {a b : BitVec w} {k : ℕ} :
    k ∈ bitSet (a ||| b) ↔ k ∈ bitSet a ∨ k ∈ bitSet b := by
  show (a ||| b).getLsbD k = true ↔ a.getLsbD k = true ∨ b.getLsbD k = true
  rw [BitVec.getLsbD_or, Bool.or_eq_true]

theorem not_mem_zero {w k : ℕ} : k ∉ bitSet (0 : BitVec w) := by simp [bitSet]

theorem mem_shiftLeft {w v k : ℕ} (hv : v < w) : k ∈ bitSet (1#w <<< v) ↔ k = v := by
  show (1#w <<< v).getLsbD k = true ↔ k = v
  rw [← BitVec.twoPow_eq, BitVec.getLsbD_twoPow]
  by_cases hkv : k = v
  · subst hkv
    simp [hv]
  · simp [hkv, Ne.symm hkv]

theorem mem_setWidth {w v : ℕ} {bits : BitVec w} {k : ℕ} :
    k ∈ bitSet (bits.setWidth v) ↔ k < v ∧ k ∈ bitSet bits := by
  show (bits.setWidth v).getLsbD k = true ↔ k < v ∧ bits.getLsbD k = true
  rw [BitVec.getLsbD_setWidth]
  simp

end Scarab
