import Scarab.DepotPacks

/-!
# Reading a pack's footer back

`pack_index` finds the footer from the last sixteen bytes of an object, whoever wrote them. Its
`u64` arithmetic is checked, as a build that traps overflow checks it.
-/
namespace Scarab.Packs
open Depot

/-- An object of the bucket, whose size is a `u64`. -/
structure StoredObject where
  bytes : Bytes
  fits : bytes.length < 2 ^ 64

def StoredObject.size (o : StoredObject) : ℕ := o.bytes.length

/-- serde_json on footers. -/
structure FooterCodec where
  write : List PackMember → Bytes
  read : Bytes → Option (List PackMember)

/-- The reads the bucket refuses. -/
structure Refusals where
  head : Bool
  range : ℕ → ℕ → Bool

def Refusals.none : Refusals := ⟨false, fun _ _ => false⟩

inductive PackError where
  | backend
  | smallerThanTrailer (size : ℕ)
  | shortTrailer (length : ℕ)
  | noMagic
  | newerVersion (version : ℕ)
  | footerTooLong (footerLen size : ℕ)
  | badFooter
  | overflow
  deriving DecidableEq, Repr

def addU64 (a b : ℕ) : Except PackError ℕ :=
  if a + b < 2 ^ 64 then .ok (a + b) else .error .overflow

def subU64 (a b : ℕ) : Except PackError ℕ := if b ≤ a then .ok (a - b) else .error .overflow

def ofLeBytes : Bytes → ℕ
  | [] => 0
  | b :: bs => b.toNat + 256 * ofLeBytes bs

def getRange (refusals : Refusals) (o : StoredObject) (offset len : ℕ) : Except PackError Bytes :=
  if len = 0 then .ok []
  else do
    let stop ← addU64 offset len
    if refusals.range offset stop then .error .backend
    else .ok ((o.bytes.drop offset).take (stop - offset))

def footerLenOf (trailer : Bytes) : ℕ := ofLeBytes (trailer.take 8)
def versionOf (trailer : Bytes) : ℕ := ofLeBytes ((trailer.drop 8).take 4)
def magicOf (trailer : Bytes) : Bytes := (trailer.drop 12).take 4

/-- The footer of an object with this trailer. -/
def readFooter (codec : FooterCodec) (refusals : Refusals) (o : StoredObject) (trailer : Bytes) :
    Except PackError (List PackMember) :=
  if magicOf trailer ≠ packMagic then .error .noMagic
  else if packFormatVersion < versionOf trailer then .error (.newerVersion (versionOf trailer))
  else do
    let footerLen := footerLenOf trailer
    let claimed ← addU64 footerLen packTrailerBytes
    if o.size < claimed then .error (.footerTooLong footerLen o.size)
    else do
      let body ← subU64 o.size packTrailerBytes
      let start ← subU64 body footerLen
      let footer ← getRange refusals o start footerLen
      match codec.read footer with
      | none => .error .badFooter
      | some members => .ok members

/-- The members of the pack stored as this object. -/
def packIndex (codec : FooterCodec) (refusals : Refusals) (o : StoredObject) :
    Except PackError (List PackMember) :=
  if refusals.head then .error .backend
  else if o.size < packTrailerBytes then .error (.smallerThanTrailer o.size)
  else do
    let start ← subU64 o.size packTrailerBytes
    let trailer ← getRange refusals o start packTrailerBytes
    if trailer.length ≠ packTrailerBytes then .error (.shortTrailer trailer.length)
    else readFooter codec refusals o trailer

@[simp] theorem ok_bind {α β : Type} (a : α) (f : α → Except PackError β) :
    (Except.ok a >>= f) = f a := rfl

@[simp] theorem error_bind {α β : Type} (e : PackError) (f : α → Except PackError β) :
    (Except.error e >>= f) = Except.error e := rfl

theorem addU64_eq {a b : ℕ} (h : a + b < 2 ^ 64) : addU64 a b = .ok (a + b) := if_pos h

theorem subU64_eq {a b : ℕ} (h : b ≤ a) : subU64 a b = .ok (a - b) := if_pos h

theorem leBytes_length (w n : ℕ) : (leBytes w n).length = w := by
  induction w generalizing n with
  | zero => rfl
  | succ w ih => simp [leBytes, ih]

theorem ofLeBytes_leBytes (w n : ℕ) (h : n < 256 ^ w) : ofLeBytes (leBytes w n) = n := by
  induction w generalizing n with
  | zero =>
    have hn : n = 0 := by simpa using h
    simp [leBytes, ofLeBytes, hn]
  | succ w ih =>
    have hdiv : n / 256 < 256 ^ w := by
      rw [pow_succ] at h
      omega
    have hdigit : (UInt8.ofNat (n % 256)).toNat = n % 256 := by simp
    simp only [leBytes, ofLeBytes, ih _ hdiv, hdigit]
    omega

theorem leBytes_ofLeBytes (bs : Bytes) : leBytes bs.length (ofLeBytes bs) = bs := by
  induction bs with
  | nil => rfl
  | cons b bs ih =>
    have hb := b.toNat_lt
    have hmod : (b.toNat + 256 * ofLeBytes bs) % 256 = b.toNat := by omega
    have hdiv : (b.toNat + 256 * ofLeBytes bs) / 256 = ofLeBytes bs := by omega
    simp only [List.length_cons, ofLeBytes, leBytes, hmod, hdiv, ih, UInt8.ofNat_toNat]

theorem getRange_eq (refusals : Refusals) (o : StoredObject) {offset len : ℕ}
    (h : offset + len ≤ o.size) : getRange refusals o offset len =
      if len = 0 then .ok []
      else if refusals.range offset (offset + len) then .error .backend
      else .ok ((o.bytes.drop offset).take len) := by
  have hfits : offset + len < 2 ^ 64 := lt_of_le_of_lt h o.fits
  simp [getRange, addU64_eq hfits]

/-- The sixteen bytes an object of that size ends in. -/
def trailerOf (o : StoredObject) : Bytes := o.bytes.drop (o.size - packTrailerBytes)

/-- The bytes the footer's length points at. -/
def footerOf (o : StoredObject) (footerLen : ℕ) : Bytes :=
  (o.bytes.drop (o.size - packTrailerBytes - footerLen)).take footerLen

/-- The members are the JSON just before the trailer. -/
def Describes (codec : FooterCodec) (o : StoredObject) (members : List PackMember) : Prop :=
  ∃ body footer version, o.bytes = body ++ footer ++ leBytes 8 footer.length ++
      leBytes 4 version ++ packMagic ∧
    version ≤ packFormatVersion ∧ codec.read footer = some members

/-- No arithmetic leaves `u64`, and what is returned is what the object says. -/
def ReadsSafely (codec : FooterCodec) (o : StoredObject) : Prop :=
  ∀ refusals, packIndex codec refusals o ≠ .error .overflow ∧
    ∀ members, packIndex codec refusals o = .ok members → Describes codec o members

/-- The reader refuses the object before it adds to the footer's length, or the sum is a `u64`. -/
def FooterLenAdds (o : StoredObject) : Prop :=
  o.size < packTrailerBytes ∨ magicOf (trailerOf o) ≠ packMagic ∨
    packFormatVersion < versionOf (trailerOf o) ∨
    footerLenOf (trailerOf o) + packTrailerBytes < 2 ^ 64

variable {codec : FooterCodec} {refusals : Refusals} {o : StoredObject}

theorem trailerOf_length (h : packTrailerBytes ≤ o.size) :
    (trailerOf o).length = packTrailerBytes := by
  rw [trailerOf, List.length_drop]
  change o.size - (o.size - packTrailerBytes) = packTrailerBytes
  omega

theorem split_trailer {t : Bytes} (ht : t.length = packTrailerBytes) :
    t = leBytes 8 (footerLenOf t) ++ leBytes 4 (versionOf t) ++ magicOf t := by
  have hlen : (t.take 8).length = 8 := by simp [ht, packTrailerBytes]
  have hver : ((t.drop 8).take 4).length = 4 := by simp [ht, packTrailerBytes]
  have hfirst : leBytes 8 (footerLenOf t) = t.take 8 := by
    have h := leBytes_ofLeBytes (t.take 8)
    rwa [hlen] at h
  have hsecond : leBytes 4 (versionOf t) = (t.drop 8).take 4 := by
    have h := leBytes_ofLeBytes ((t.drop 8).take 4)
    rwa [hver] at h
  have hthird : magicOf t = t.drop 12 := by
    rw [magicOf, List.take_of_length_le (by simp [ht, packTrailerBytes])]
  have hrest : (t.drop 8).take 4 ++ t.drop 12 = t.drop 8 := by
    rw [show t.drop 12 = (t.drop 8).drop 4 by rw [List.drop_drop], List.take_append_drop]
  rw [hfirst, hsecond, hthird, List.append_assoc, hrest, List.take_append_drop]

/-- The reader stops at the trailer, or goes on with all sixteen bytes of it. -/
theorem packIndex_eq (h : packTrailerBytes ≤ o.size) :
    packIndex codec refusals o =
      if refusals.head ∨ refusals.range (o.size - packTrailerBytes) o.size then .error .backend
      else readFooter codec refusals o (trailerOf o) := by
  have hsmall : ¬ o.size < packTrailerBytes := by omega
  have hstop : o.size - packTrailerBytes + packTrailerBytes = o.size := by omega
  have hpos : packTrailerBytes ≠ 0 := by decide
  have htake : (o.bytes.drop (o.size - packTrailerBytes)).take packTrailerBytes = trailerOf o :=
    List.take_of_length_le (trailerOf_length h).le
  by_cases hhead : refusals.head
  · simp [packIndex, hhead]
  · by_cases hrange : refusals.range (o.size - packTrailerBytes) o.size
    · simp [packIndex, hhead, hsmall, subU64_eq h, getRange_eq refusals o hstop.le, hstop, hpos,
        hrange]
    · simp [packIndex, hhead, hsmall, subU64_eq h, getRange_eq refusals o hstop.le, hstop, hpos,
        hrange, htake, trailerOf_length h]

theorem packIndex_small (h : o.size < packTrailerBytes) : packIndex codec refusals o =
    if refusals.head then .error .backend else .error (.smallerThanTrailer o.size) := by
  simp [packIndex, h]

section Footer

variable {t : Bytes}

theorem readFooter_refused (h : magicOf t ≠ packMagic ∨ packFormatVersion < versionOf t) :
    readFooter codec refusals o t = .error .noMagic ∨
      readFooter codec refusals o t = .error (.newerVersion (versionOf t)) := by
  by_cases hmagic : magicOf t = packMagic
  · have hversion := h.resolve_left (not_not.mpr hmagic)
    exact .inr (by rw [readFooter, if_neg (not_not.mpr hmagic), if_pos hversion])
  · exact .inl (if_pos hmagic)

variable (hmagic : magicOf t = packMagic) (hversion : versionOf t ≤ packFormatVersion)
include hmagic hversion

/-- A footer length at the top of the range, and the sum is no `u64`. -/
theorem readFooter_overflows (h : 2 ^ 64 ≤ footerLenOf t + packTrailerBytes) :
    readFooter codec refusals o t = .error .overflow := by
  have hadd : addU64 (footerLenOf t) packTrailerBytes = .error .overflow := if_neg (by omega)
  rw [readFooter, if_neg (not_not.mpr hmagic), if_neg (not_lt.mpr hversion)]
  change (addU64 (footerLenOf t) packTrailerBytes >>= _) = _
  rw [hadd]
  rfl

theorem readFooter_eq (h : footerLenOf t + packTrailerBytes < 2 ^ 64) :
    readFooter codec refusals o t =
      if o.size < footerLenOf t + packTrailerBytes then
        .error (.footerTooLong (footerLenOf t) o.size)
      else getRange refusals o (o.size - packTrailerBytes - footerLenOf t) (footerLenOf t) >>=
        fun footer => (codec.read footer).elim (.error .badFooter) .ok := by
  have hadd := addU64_eq h
  rw [readFooter, if_neg (not_not.mpr hmagic), if_neg (not_lt.mpr hversion)]
  change (addU64 (footerLenOf t) packTrailerBytes >>= _) = _
  rw [hadd, ok_bind]
  split
  · rfl
  · rename_i hsize
    rw [subU64_eq (by omega), ok_bind]
    rw [subU64_eq (by omega), ok_bind]
    congr 1
    funext footer
    cases codec.read footer <;> rfl

end Footer

/-- A footer that is read lies in the object, right before the trailer. -/
theorem describes_of_readFooter (hsize : packTrailerBytes ≤ o.size) {members : List PackMember}
    (hmagic : magicOf (trailerOf o) = packMagic)
    (hversion : versionOf (trailerOf o) ≤ packFormatVersion)
    (hfooter : footerLenOf (trailerOf o) + packTrailerBytes ≤ o.size)
    (hread : codec.read (footerOf o (footerLenOf (trailerOf o))) = some members) :
    Describes codec o members := by
  have hsplit := split_trailer (trailerOf_length hsize)
  rw [hmagic] at hsplit
  generalize footerLenOf (trailerOf o) = n at hsplit hfooter hread
  generalize versionOf (trailerOf o) = version at hsplit hversion
  have hbody : o.bytes.take (o.size - packTrailerBytes) ++ trailerOf o = o.bytes :=
    List.take_append_drop _ _
  have hlen : o.bytes.length = o.size := rfl
  have hfooterLen : (footerOf o n).length = n := by
    rw [footerOf, List.length_take, List.length_drop]
    omega
  have hcut : o.bytes.take (o.size - packTrailerBytes) =
      o.bytes.take (o.size - packTrailerBytes - n) ++ footerOf o n := by
    have hadd : o.bytes.take (o.size - packTrailerBytes - n + n) = _ := List.take_add
    rwa [show o.size - packTrailerBytes - n + n = o.size - packTrailerBytes by omega] at hadd
  refine ⟨o.bytes.take (o.size - packTrailerBytes - n), _, version, ?_, hversion, hread⟩
  rw [hfooterLen, ← hcut]
  simp only [List.append_assoc] at hsplit ⊢
  rw [← hsplit, hbody]

theorem readFooter_ok {t : Bytes} {members : List PackMember}
    (h : readFooter codec refusals o t = .ok members) :
    magicOf t = packMagic ∧ versionOf t ≤ packFormatVersion ∧
      footerLenOf t + packTrailerBytes ≤ o.size ∧
      codec.read (footerOf o (footerLenOf t)) = some members := by
  by_cases hbad : magicOf t ≠ packMagic ∨ packFormatVersion < versionOf t
  · rcases @readFooter_refused codec refusals o t hbad with hr | hr <;>
      rw [hr] at h <;> cases h
  · push Not at hbad
    obtain ⟨hmagic, hversion⟩ := hbad
    refine ⟨hmagic, hversion, ?_⟩
    by_cases hadds : footerLenOf t + packTrailerBytes < 2 ^ 64
    · rw [readFooter_eq hmagic hversion hadds] at h
      split at h
      · cases h
      · rename_i hfooter
        have hin : o.size - packTrailerBytes - footerLenOf t + footerLenOf t ≤ o.size := by omega
        rw [getRange_eq refusals o hin] at h
        refine ⟨by omega, ?_⟩
        cases hread : codec.read (footerOf o (footerLenOf t)) <;> simp only [footerOf] at hread <;>
          split_ifs at h <;> simp_all
    · rw [readFooter_overflows hmagic hversion (by omega)] at h
      cases h

theorem parsed_ne_overflow (footer : Bytes) :
    (codec.read footer).elim (.error .badFooter) .ok ≠
      (.error .overflow : Except PackError _) := by
  cases codec.read footer <;> simp

theorem readFooter_ne_overflow {t : Bytes}
    (h : magicOf t ≠ packMagic ∨ packFormatVersion < versionOf t ∨
      footerLenOf t + packTrailerBytes < 2 ^ 64) :
    readFooter codec refusals o t ≠ .error .overflow := by
  by_cases hbad : magicOf t ≠ packMagic ∨ packFormatVersion < versionOf t
  · rcases @readFooter_refused codec refusals o t hbad with hr | hr <;>
      simp [hr]
  · push Not at hbad
    obtain ⟨hmagic, hversion⟩ := hbad
    have hadds : footerLenOf t + packTrailerBytes < 2 ^ 64 := by
      rcases h with h | h | h
      · exact absurd hmagic h
      · omega
      · exact h
    rw [readFooter_eq hmagic hversion hadds]
    split
    · simp
    · rename_i hfooter
      have hin : o.size - packTrailerBytes - footerLenOf t + footerLenOf t ≤ o.size := by omega
      rw [getRange_eq refusals o hin]
      split_ifs
      · exact parsed_ne_overflow []
      · simp
      · exact parsed_ne_overflow _

theorem packIndex_ok {members : List PackMember}
    (h : packIndex codec refusals o = .ok members) : Describes codec o members := by
  by_cases hsize : o.size < packTrailerBytes
  · rw [packIndex_small hsize] at h
    split at h <;> cases h
  · have hle : packTrailerBytes ≤ o.size := by omega
    rw [packIndex_eq hle] at h
    split at h
    · cases h
    · obtain ⟨hmagic, hversion, hfooter, hread⟩ := readFooter_ok h
      exact describes_of_readFooter hle hmagic hversion hfooter hread

theorem packIndex_ne_overflow (h : FooterLenAdds o) :
    packIndex codec refusals o ≠ .error .overflow := by
  by_cases hsize : o.size < packTrailerBytes
  · rw [packIndex_small hsize]
    split <;> simp
  · rw [packIndex_eq (by omega)]
    split
    · simp
    · exact readFooter_ne_overflow (h.resolve_left hsize)

/-- A forged length within sixteen of `2 ^ 64` overflows before anything refuses it. -/
theorem packIndex_overflows (h : ¬ FooterLenAdds o) :
    packIndex codec Refusals.none o = .error .overflow := by
  simp only [FooterLenAdds, not_or, not_lt, not_not] at h
  obtain ⟨hsize, hmagic, hversion, hfooter⟩ := h
  rw [packIndex_eq hsize]
  simp [Refusals.none, readFooter_overflows hmagic hversion hfooter]

/-- The reader is safe on exactly the objects whose claimed footer it can add to. -/
theorem pack_index_safe_iff (codec : FooterCodec) (o : StoredObject) :
    ReadsSafely codec o ↔ FooterLenAdds o := by
  constructor
  · intro h
    by_contra hadds
    exact (h Refusals.none).1 (packIndex_overflows hadds)
  · intro h refusals
    exact ⟨packIndex_ne_overflow h, fun members hok => packIndex_ok hok⟩

/-- A lone trailer that claims `2 ^ 64 - 1` bytes of footer. -/
def forgedTrailer : StoredObject where
  bytes := [0xff, 0xff, 0xff, 0xff, 0xff, 0xff, 0xff, 0xff, 1, 0, 0, 0, 0x53, 0x50, 0x41, 0x4B]
  fits := by decide

theorem forgedTrailer_overflows : ¬ ReadsSafely ⟨fun _ => [], fun _ => none⟩ forgedTrailer := by
  intro h
  exact (h Refusals.none).1 rfl

end Scarab.Packs
