import Scarab.TextEncoding

/-!
# Replacing and reading texts

`str::replace`, hex read back into bytes, and decimal integers in the range of an `i64`.
-/
namespace Scarab

/-- Every `pat` from left to right, none overlapping another, becomes `rep`. The number counts the
characters of a match that are still to be passed over. -/
def replaceFrom (pat rep : Text) : ℕ → Text → Text
  | _, [] => []
  | skip + 1, _ :: t => replaceFrom pat rep skip t
  | 0, c :: t =>
      if pat.isPrefixOf (c :: t) then rep ++ replaceFrom pat rep (pat.length - 1) t
      else c :: replaceFrom pat rep 0 t

/-- `str::replace`, of a pattern that is not empty. -/
def replaceText (pat rep t : Text) : Text := replaceFrom pat rep 0 t

theorem replaceFrom_skip (pat rep x t : Text) :
    replaceFrom pat rep x.length (x ++ t) = replaceText pat rep t := by
  induction x with
  | nil => rfl
  | cons c x ih => exact ih

/-- A match at the front is replaced. -/
theorem replaceText_match (c : Char) (pat rep t : Text) :
    replaceText (c :: pat) rep (c :: (pat ++ t)) = rep ++ replaceText (c :: pat) rep t := by
  have hprefix : (c :: pat).isPrefixOf (c :: (pat ++ t)) = true :=
    List.isPrefixOf_iff_prefix.mpr (List.prefix_append (c :: pat) t)
  rw [replaceText, replaceFrom, if_pos hprefix]
  exact congrArg (rep ++ ·) (replaceFrom_skip (c :: pat) rep pat t)

theorem replaceText_step {pat rep t : Text} {c : Char}
    (h : pat.isPrefixOf (c :: t) = false) :
    replaceText pat rep (c :: t) = c :: replaceText pat rep t := by
  rw [replaceText, replaceFrom, if_neg (by simp [h])]
  rfl

/-- Replacing a single character replaces every character on its own. -/
theorem replaceText_char (p : Char) (rep t : Text) :
    replaceText [p] rep t = t.flatMap fun c => if c = p then rep else [c] := by
  induction t with
  | nil => rfl
  | cons c t ih =>
    by_cases hc : c = p
    · subst hc
      simpa [ih] using replaceText_match c [] rep t
    · have hno : [p].isPrefixOf (c :: t) = false := by simp [List.isPrefixOf, Ne.symm hc]
      simp [replaceText_step hno, ih, hc]

def hexDigit (c : Char) : Option ℕ :=
  if '0' ≤ c ∧ c ≤ '9' then some (c.toNat - 48)
  else if 'a' ≤ c ∧ c ≤ 'f' then some (c.toNat - 87)
  else if 'A' ≤ c ∧ c ≤ 'F' then some (c.toNat - 55)
  else none

/-- `u8::from_str_radix` of two characters, in which a plus sign may stand first. -/
def hexPair (a b : Char) : Option UInt8 :=
  if a = '+' then (hexDigit b).map UInt8.ofNat
  else (hexDigit a).bind fun hi => (hexDigit b).map fun lo => UInt8.ofNat (16 * hi + lo)

/-- The bytes of an even number of hex digits. What is not ASCII is refused. -/
def decodeHex : Text → Option (List UInt8)
  | [] => some []
  | [_] => none
  | a :: b :: t => (hexPair a b).bind fun byte => (decodeHex t).map (byte :: ·)

theorem hexDigit_digitChar {n : ℕ} (h : n < 16) : hexDigit (Nat.digitChar n) = some n := by
  have hdigits : ∀ k : Fin 16, hexDigit (Nat.digitChar k) = some k.val := by decide
  exact hdigits ⟨n, h⟩

theorem digitChar_ne_plus {n : ℕ} (h : n < 16) : Nat.digitChar n ≠ '+' := by
  have hdigits : ∀ k : Fin 16, Nat.digitChar k ≠ '+' := by decide
  exact hdigits ⟨n, h⟩

theorem decodeHex_hexText (bs : List UInt8) : decodeHex (hexText bs) = some bs := by
  induction bs with
  | nil => rfl
  | cons b bs ih =>
    have hb := b.toNat_lt
    have hhi : b.toNat / 16 < 16 := by omega
    have hlo : b.toNat % 16 < 16 := by omega
    have hbyte : UInt8.ofNat (16 * (b.toNat / 16) + b.toNat % 16) = b := by
      rw [Nat.div_add_mod]
      exact UInt8.ofNat_toNat
    have hpair : hexPair (Nat.digitChar (b.toNat / 16)) (Nat.digitChar (b.toNat % 16)) =
        some b := by
      simp only [hexPair, digitChar_ne_plus hhi, if_false, hexDigit_digitChar hhi,
        hexDigit_digitChar hlo, Option.bind_some, Option.map_some, hbyte]
    change (hexPair (Nat.digitChar (b.toNat / 16)) (Nat.digitChar (b.toNat % 16))).bind _ = _
    rw [hpair]
    change (decodeHex (hexText bs)).map (b :: ·) = _
    rw [ih]
    rfl

theorem mem_hexText {c : Char} {bs : List UInt8} (h : c ∈ hexText bs) :
    ∃ n < 16, c = Nat.digitChar n := by
  obtain ⟨b, -, hc⟩ := List.mem_flatMap.mp h
  have hb := b.toNat_lt
  rcases List.mem_cons.mp hc with rfl | hc
  · exact ⟨_, by omega, rfl⟩
  · exact ⟨_, Nat.mod_lt _ (by omega), List.mem_singleton.mp hc⟩

/-- The integers of an `i64`. -/
def InI64 (n : ℤ) : Prop := -2 ^ 63 ≤ n ∧ n < 2 ^ 63

def intText (n : ℤ) : Text := if n < 0 then '-' :: natText n.natAbs else natText n.natAbs

def decimal (t : Text) : Option ℕ :=
  if t ≠ [] ∧ t.all Char.isDigit then some (Nat.ofDigitChars 10 t 0) else none

/-- `str::parse::<i64>`. -/
def readI64 (t : Text) : Option ℤ :=
  match t with
  | '-' :: ds => (decimal ds).bind fun n => if n ≤ 2 ^ 63 then some (-(n : ℤ)) else none
  | '+' :: ds => (decimal ds).bind fun n => if n < 2 ^ 63 then some (n : ℤ) else none
  | ds => (decimal ds).bind fun n => if n < 2 ^ 63 then some (n : ℤ) else none

theorem decimal_natText (n : ℕ) : decimal (natText n) = some n := by
  have hne : natText n ≠ [] := Nat.toDigits_ne_nil
  have hall : (natText n).all Char.isDigit = true :=
    List.all_eq_true.mpr fun c hc => isDigit_of_mem_natText hc
  rw [decimal, if_pos ⟨hne, hall⟩]
  exact congrArg some Nat.ofDigitChars_ten_toDigits

/-- A number without its sign starts with a digit. -/
theorem readI64_natText (n : ℕ) :
    readI64 (natText n) = if n < 2 ^ 63 then some (n : ℤ) else none := by
  have hdecimal := decimal_natText n
  cases ht : natText n with
  | nil => exact absurd ht Nat.toDigits_ne_nil
  | cons c ds =>
    have hdigit : c.isDigit = true := isDigit_of_mem_natText (n := n) (by simp [ht])
    have hminus : c ≠ '-' := by
      rintro rfl
      exact absurd hdigit (by decide)
    have hplus : c ≠ '+' := by
      rintro rfl
      exact absurd hdigit (by decide)
    rw [ht] at hdecimal
    simp [readI64, hminus, hplus, hdecimal]

theorem readI64_intText {n : ℤ} (h : InI64 n) : readI64 (intText n) = some n := by
  obtain ⟨hlow, hhigh⟩ := h
  by_cases hneg : n < 0
  · have hfits : n.natAbs ≤ 2 ^ 63 := by omega
    have hback : -(n.natAbs : ℤ) = n := by omega
    simp only [intText, if_pos hneg, readI64, decimal_natText, Option.bind_some, if_pos hfits,
      hback]
  · have hfits : n.natAbs < 2 ^ 63 := by omega
    have hback : (n.natAbs : ℤ) = n := by omega
    simp only [intText, if_neg hneg, readI64_natText, if_pos hfits, hback]

theorem mem_intText {c : Char} {n : ℤ} (h : c ∈ intText n) : c = '-' ∨ c.isDigit = true := by
  rw [intText] at h
  split at h
  · rcases List.mem_cons.mp h with h | h
    · exact .inl h
    · exact .inr (isDigit_of_mem_natText h)
  · exact .inr (isDigit_of_mem_natText h)

end Scarab
