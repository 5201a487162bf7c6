import Mathlib

/-!
# Texts

A text is a list of characters. Splitting, trimming and searching as the standard string
functions do them.
-/
namespace Scarab

abbrev Text := List Char

instance Text.decidableMem (t : Text) (ts : List Text) : Decidable (t ∈ ts) :=
  List.instDecidableMemOfLawfulBEq t ts

/-- Non-negative integers in decimal. -/
def natText (n : ℕ) : Text := Nat.toDigits 10 n

/-- A hash from its value, in 64 hex digits. -/
def addressText (n : ℕ) : Text :=
  (List.range 64).reverse.map fun i => Nat.digitChar (n / 16 ^ i % 16)

/-- The text of these lines. -/
def textLines (lines : List String) : Text := lines.flatMap fun line => line.toList ++ ['\n']

/-- Unicode `White_Space`. -/
def isWhitespace (c : Char) : Bool :=
  let n := c.toNat
  (9 ≤ n && n ≤ 13) || n = 32 || n = 0x85 || n = 0xA0 || n = 0x1680 ||
    (0x2000 ≤ n && n ≤ 0x200A) || n = 0x2028 || n = 0x2029 || n = 0x202F || n = 0x205F ||
    n = 0x3000

def trim (t : Text) : Text :=
  ((t.dropWhile isWhitespace).reverse.dropWhile isWhitespace).reverse

/-- The bytes of a text in UTF-8. -/
def byteLen (t : Text) : ℕ := (t.map Char.utf8Size).sum

/-- The text before and after the first `pat`. -/
def splitOnce (pat : Text) : Text → Option (Text × Text)
  | [] => if pat = [] then some ([], []) else none
  | c :: cs =>
      if pat.isPrefixOf (c :: cs) then some ([], (c :: cs).drop pat.length)
      else (splitOnce pat cs).map fun r => (c :: r.1, r.2)

/-- Whether `pat` occurs in the text. -/
def containsText (pat t : Text) : Bool := (splitOnce pat t).isSome

/-- The text before and after the last `c`. -/
def rsplitOnce (c : Char) (t : Text) : Option (Text × Text) :=
  (splitOnce [c] t.reverse).map fun r => (r.2.reverse, r.1.reverse)

theorem splitOnce_eq_some {pat t a b : Text} (h : splitOnce pat t = some (a, b)) :
    t = a ++ pat ++ b := by
  induction t generalizing a with
  | nil =>
    simp only [splitOnce] at h
    split_ifs at h with hp
    obtain ⟨rfl, rfl⟩ := Prod.mk.inj (Option.some.inj h)
    simp [hp]
  | cons c cs ih =>
    simp only [splitOnce] at h
    split_ifs at h with hp
    · obtain ⟨rfl, rfl⟩ := Prod.mk.inj (Option.some.inj h)
      obtain ⟨rest, hrest⟩ := List.isPrefixOf_iff_prefix.mp hp
      simp [← hrest]
    · obtain ⟨r, hr, he⟩ := Option.map_eq_some_iff.mp h
      obtain ⟨rfl, rfl⟩ := Prod.mk.inj he
      simpa using ih hr

theorem splitOnce_isSome_of_isPrefix {pat t : Text} (h : pat <+: t) :
    (splitOnce pat t).isSome = true := by
  cases t with
  | nil =>
    obtain rfl : pat = [] := List.prefix_nil.mp h
    rfl
  | cons c cs => simp [splitOnce, List.isPrefixOf_iff_prefix.mpr h]

theorem containsText_of_isInfix {pat t : Text} (h : pat <:+: t) : containsText pat t = true := by
  induction t with
  | nil => exact splitOnce_isSome_of_isPrefix (List.infix_nil.mp h ▸ List.prefix_rfl)
  | cons c cs ih =>
    rcases List.infix_cons_iff.mp h with hp | hi
    · exact splitOnce_isSome_of_isPrefix hp
    · have hcs := ih hi
      rw [containsText] at hcs ⊢
      simp only [splitOnce]
      split_ifs with hp
      · rfl
      · simpa using hcs

theorem not_isInfix_of_containsText {pat t : Text} (h : containsText pat t = false) :
    ¬ pat <:+: t := fun hi => by simp [containsText_of_isInfix hi] at h

end Scarab
