import Mathlib

/-!
# Mixed-radix numbering

A vector has one digit for each length of a list, each digit below its length. A vector is
numbered with the last digit changing fastest.
-/
namespace Scarab.MixedRadix

/-- The weight of each digit, found from the last one backwards. -/
def strides : List ℕ → List ℕ
  | [] => []
  | _ :: ns =>
      (match strides ns, ns with
        | s :: _, m :: _ => s * m
        | _, _ => 1) :: strides ns

theorem strides_cons (n : ℕ) (ns : List ℕ) : strides (n :: ns) = ns.prod :: strides ns := by
  induction ns generalizing n with
  | nil => rfl
  | cons m ms ih =>
    have hstep : strides (n :: m :: ms) =
        (match strides (m :: ms), m :: ms with
          | s :: _, m :: _ => s * m
          | _, _ => 1) :: strides (m :: ms) := rfl
    rw [hstep, ih m, List.prod_cons, Nat.mul_comm m]

/-- The digits of a number. -/
def digits (ns : List ℕ) (c : ℕ) : List ℕ := List.zipWith (fun s n => c / s % n) (strides ns) ns

@[simp] theorem digits_nil (c : ℕ) : digits [] c = [] := rfl

@[simp] theorem digits_cons (n : ℕ) (ns : List ℕ) (c : ℕ) :
    digits (n :: ns) c = c / ns.prod % n :: digits ns c := by
  simp [digits, strides_cons]

/-- A multiple of the product does not show in the digits. -/
theorem digits_add_mul (ns : List ℕ) (k r : ℕ) : digits ns (k * ns.prod + r) = digits ns r := by
  induction ns generalizing k with
  | nil => rfl
  | cons m ms ih =>
    have hmul : k * (m :: ms).prod = k * m * ms.prod := by simp [Nat.mul_assoc]
    rw [digits_cons, digits_cons, hmul, ih]
    congr 1
    rcases Nat.eq_zero_or_pos ms.prod with hzero | hpos
    · simp [hzero]
    · rw [Nat.mul_comm (k * m), Nat.mul_add_div hpos, Nat.mul_comm k, Nat.mul_add_mod]

/-- Every vector, in lexicographic order. -/
def vectors : List ℕ → List (List ℕ)
  | [] => [[]]
  | n :: ns => (List.range n).flatMap fun i => (vectors ns).map (i :: ·)

theorem range_mul (n m : ℕ) :
    List.range (n * m) = (List.range n).flatMap fun i => (List.range m).map (i * m + ·) := by
  induction n with
  | zero => simp
  | succ n ih => simp [Nat.succ_mul, List.range_add, List.range_succ, ih]

/-- The numbers below the product have the vectors as digits, in order. -/
theorem map_digits_range (ns : List ℕ) : (List.range ns.prod).map (digits ns) = vectors ns := by
  induction ns with
  | nil => rfl
  | cons n ns ih =>
    rw [List.prod_cons, range_mul, vectors, List.map_flatMap]
    refine List.flatMap_congr fun i hi => ?_
    have hi : i < n := List.mem_range.mp hi
    rw [← ih, List.map_map, List.map_map]
    refine List.map_congr_left fun r hr => ?_
    have hr : r < ns.prod := List.mem_range.mp hr
    have hdigit : (i * ns.prod + r) / ns.prod = i := by
      rw [Nat.mul_comm, Nat.mul_add_div (by omega), Nat.div_eq_of_lt hr, Nat.add_zero]
    simp only [Function.comp_apply, digits_cons, digits_add_mul, hdigit, Nat.mod_eq_of_lt hi]

theorem mem_vectors {ns v : List ℕ} : v ∈ vectors ns ↔ List.Forall₂ (· < ·) v ns := by
  induction ns generalizing v with
  | nil => simp [vectors]
  | cons n ns ih =>
    simp only [vectors, List.mem_flatMap, List.mem_range, List.mem_map, ih]
    constructor
    · rintro ⟨i, hi, w, hw, rfl⟩
      exact .cons hi hw
    · intro h
      cases h with
      | cons hi hw => exact ⟨_, hi, _, hw, rfl⟩

theorem vectors_sorted (ns : List ℕ) : (vectors ns).Pairwise (· < ·) := by
  induction ns with
  | nil => simp [vectors]
  | cons n ns ih =>
    rw [vectors, List.pairwise_flatMap]
    refine ⟨fun i _ => ?_, ?_⟩
    · refine List.pairwise_map.mpr (ih.imp fun {v w} h => ?_)
      exact List.Lex.cons h
    · refine List.pairwise_lt_range.imp fun {i j} hij v hv w hw => ?_
      obtain ⟨_, -, rfl⟩ := List.mem_map.mp hv
      obtain ⟨_, -, rfl⟩ := List.mem_map.mp hw
      exact List.Lex.rel hij

/-- The number of a vector, given the number its first digits have. -/
def numberFrom (p : ℕ) (ns v : List ℕ) : ℕ := (ns.zip v).foldl (fun p e => p * e.1 + e.2) p

/-- The digits of a number from the last to the first, the lengths given in that order. -/
def digitsBack : List ℕ → ℕ → List ℕ
  | [], _ => []
  | n :: ns, p => p % n :: digitsBack ns (p / n)

theorem numberFrom_lt {ns v : List ℕ} (h : List.Forall₂ (· < ·) v ns) (p : ℕ) :
    numberFrom p ns v < (p + 1) * ns.prod := by
  induction h generalizing p with
  | nil => simp [numberFrom]
  | @cons d n v ns hd _ ih =>
    have hstep : p * n + d + 1 ≤ (p + 1) * n := by
      rw [Nat.succ_mul]
      omega
    calc numberFrom p (n :: ns) (d :: v) = numberFrom (p * n + d) ns v := rfl
      _ < (p * n + d + 1) * ns.prod := ih _
      _ ≤ (p + 1) * n * ns.prod := Nat.mul_le_mul_right _ hstep
      _ = (p + 1) * (n :: ns).prod := by rw [List.prod_cons, Nat.mul_assoc]

/-- Reading a number back gives the digits it was made of. -/
theorem digitsBack_numberFrom {ns v : List ℕ} (h : List.Forall₂ (· < ·) v ns) (p : ℕ)
    (rest : List ℕ) :
    digitsBack (ns.reverse ++ rest) (numberFrom p ns v) = v.reverse ++ digitsBack rest p := by
  induction h generalizing p rest with
  | nil => rfl
  | @cons d n v ns hd _ ih =>
    have hmod : (p * n + d) % n = d := by
      rw [Nat.mul_comm, Nat.mul_add_mod, Nat.mod_eq_of_lt hd]
    have hdiv : (p * n + d) / n = p := by
      rw [Nat.mul_comm, Nat.mul_add_div (by omega), Nat.div_eq_of_lt hd, Nat.add_zero]
    have hnext : numberFrom p (n :: ns) (d :: v) = numberFrom (p * n + d) ns v := rfl
    rw [hnext, List.reverse_cons, List.append_assoc, List.singleton_append, ih (p * n + d)]
    simp [digitsBack, hmod, hdiv]

end Scarab.MixedRadix
