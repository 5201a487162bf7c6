import Scarab.TextBasics

/-!
# Texts as bytes

UTF-8 and lowercase hex, both undone by what reads them. A text framed by the number of its bytes
can be told from whatever follows it.
-/
namespace Scarab

def utf8Bytes (t : Text) : List UInt8 := t.flatMap String.utf8EncodeChar

theorem utf8Bytes_length_le (t : Text) : (utf8Bytes t).length ≤ 4 * t.length := by
  induction t with
  | nil => exact Nat.zero_le _
  | cons c cs ih =>
    have hc : (String.utf8EncodeChar c).length ≤ 4 := by
      rw [String.length_utf8EncodeChar]
      exact c.utf8Size_le_four
    have hcons : (utf8Bytes (c :: cs)).length =
        (String.utf8EncodeChar c).length + (utf8Bytes cs).length := by
      simp [utf8Bytes]
    rw [hcons, List.length_cons]
    omega

/-- The text whose bytes these are, if they are valid UTF-8. -/
def fromUtf8 (bs : List UInt8) : Option Text := bs.toByteArray.utf8Decode?.map Array.toList

theorem fromUtf8_utf8Bytes (t : Text) : fromUtf8 (utf8Bytes t) = some t := by
  have hencode : (utf8Bytes t).toByteArray = t.utf8Encode := rfl
  rw [fromUtf8, hencode, List.utf8Decode?_utf8Encode]
  rfl

theorem utf8Bytes_injective : Function.Injective utf8Bytes := by
  intro a b h
  have hdecode := congrArg fromUtf8 h
  rw [fromUtf8_utf8Bytes, fromUtf8_utf8Bytes] at hdecode
  exact Option.some.inj hdecode

/-- Two lowercase hex digits. -/
def hexByte (b : UInt8) : Text := [Nat.digitChar (b.toNat / 16), Nat.digitChar (b.toNat % 16)]

def hexText (bs : List UInt8) : Text := bs.flatMap hexByte

theorem digitChar_injOn {m n : ℕ} (hm : m < 16) (hn : n < 16)
    (h : Nat.digitChar m = Nat.digitChar n) : m = n := by
  have hdigits : ∀ a b : Fin 16, Nat.digitChar a = Nat.digitChar b → a = b := by decide
  exact congrArg Fin.val (hdigits ⟨m, hm⟩ ⟨n, hn⟩ h)

theorem hexByte_injective : Function.Injective hexByte := by
  intro a b h
  obtain ⟨hhi, hlo⟩ := List.cons.inj h
  have ha := a.toNat_lt
  have hb := b.toNat_lt
  have hdiv := digitChar_injOn (by omega) (by omega) hhi
  have hmod := digitChar_injOn (Nat.mod_lt _ (by omega)) (Nat.mod_lt _ (by omega))
    (List.cons.inj hlo).1
  exact UInt8.toNat_inj.mp (by omega)

theorem hexText_injective : Function.Injective hexText := by
  intro as
  induction as with
  | nil =>
    intro bs h
    cases bs with
    | nil => rfl
    | cons b bs => cases h
  | cons a as ih =>
    intro bs h
    cases bs with
    | nil => cases h
    | cons b bs =>
      have happend : hexByte a ++ hexText as = hexByte b ++ hexText bs := h
      obtain ⟨hhead, htail⟩ := List.append_inj happend rfl
      rw [hexByte_injective hhead, ih htail]

theorem natText_injective : Function.Injective natText := by
  intro m n h
  have hdigits := congrArg (fun t => Nat.ofDigitChars 10 t 0) h
  simpa [natText, Nat.ofDigitChars_ten_toDigits] using hdigits

theorem isDigit_of_mem_natText {n : ℕ} {c : Char} (h : c ∈ natText n) : c.isDigit = true :=
  Nat.isDigit_of_mem_toDigits (by decide) le_rfl h

/-- A separator that is in neither first part tells the parts apart. -/
theorem split_first {c : Char} {x x' z z' : Text} (hx : c ∉ x) (hx' : c ∉ x')
    (h : x ++ c :: z = x' ++ c :: z') : x = x' ∧ z = z' := by
  rcases List.append_eq_append_iff.mp h with ⟨y, rfl, hy⟩ | ⟨y, rfl, hy⟩
  · cases y with
    | nil => simpa using hy
    | cons b y => simp [(List.cons.inj hy).1] at hx'
  · cases y with
    | nil => simpa [eq_comm] using hy
    | cons b y => simp [(List.cons.inj hy).1] at hx

theorem eq_nil_of_byteLen {t : Text} (h : byteLen t = 0) : t = [] := by
  cases t with
  | nil => rfl
  | cons c cs =>
    have hpos := c.utf8Size_pos
    simp only [byteLen, List.map_cons, List.sum_cons] at h
    omega

theorem byteLen_append (a b : Text) : byteLen (a ++ b) = byteLen a + byteLen b := by
  simp [byteLen]

/-- Two texts of as many bytes that start the same are the same. -/
theorem append_inj_of_byteLen {a b x y : Text} (h : a ++ x = b ++ y)
    (hlen : byteLen a = byteLen b) : a = b ∧ x = y := by
  rcases List.append_eq_append_iff.mp h with ⟨c, rfl, rfl⟩ | ⟨c, rfl, rfl⟩
  · rw [byteLen_append] at hlen
    obtain rfl := eq_nil_of_byteLen (t := c) (by omega)
    simp
  · rw [byteLen_append] at hlen
    obtain rfl := eq_nil_of_byteLen (t := c) (by omega)
    simp

/-- A text behind the number of its bytes. -/
def framed (t : Text) : Text := natText (byteLen t) ++ ':' :: t

theorem framed_append_inj {a b x y : Text} (h : framed a ++ x = framed b ++ y) : a = b ∧ x = y := by
  have hcolon : ∀ n, ':' ∉ natText n := fun n hmem => by
    have hdigit := isDigit_of_mem_natText hmem
    simp at hdigit
  simp only [framed, List.append_assoc, List.cons_append] at h
  obtain ⟨hlen, hrest⟩ := split_first (hcolon _) (hcolon _) h
  exact append_inj_of_byteLen hrest (natText_injective hlen)

end Scarab
