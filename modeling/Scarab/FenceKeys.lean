import Scarab.TextEncoding
import Mathlib.Data.List.Sort
import Mathlib.Data.Prod.Lex

/-!
# Fence keys and cache keys

The texts both keys hash are read back uniquely, whatever characters the fields hold, so two keys
agree only where their fields do.
-/
namespace Scarab.Keys

/-- A key-file's path and the hash of its content. -/
abbrev KeyFile := Text × Text

/-- SHA-256. -/
structure Sha where
  digest : List UInt8 → List UInt8

def Sha.CollisionFree (sha : Sha) : Prop := Function.Injective sha.digest

def Sha.hex (sha : Sha) (t : Text) : Text := hexText (sha.digest (utf8Bytes t))

theorem Sha.CollisionFree.hex {sha : Sha} (hsha : sha.CollisionFree) :
    Function.Injective sha.hex := fun _ _ h =>
  utf8Bytes_injective (hsha (hexText_injective h))

/-- The text `drain_fence_key` formats: no newline after the attempt. -/
def fenceText (run step attempt : Text) : Text :=
  framed run ++ '\n' :: (framed step ++ '\n' :: framed attempt)

def drainFenceKey (sha : Sha) (run step attempt : Text) : Text :=
  sha.hex (fenceText run step attempt)

theorem fenceText_inj {r r' s s' a a' : Text} (h : fenceText r s a = fenceText r' s' a') :
    r = r' ∧ s = s' ∧ a = a' := by
  obtain ⟨hrun, hrest⟩ := framed_append_inj h
  obtain ⟨hstep, hlast⟩ := framed_append_inj (List.cons.inj hrest).2
  have hattempt : framed a ++ [] = framed a' ++ [] := by simpa using (List.cons.inj hlast).2
  exact ⟨hrun, hstep, (framed_append_inj hattempt).1⟩

def line (t : Text) : Text := framed t ++ ['\n']

def pairText (pair : KeyFile) : Text := line pair.1 ++ line pair.2

/-- Rust's order on pairs of strings: by the path, then by the hash. -/
def sortPairs (pairs : List KeyFile) : List KeyFile :=
  pairs.insertionSort fun a b => toLex a ≤ toLex b

/-- The text `cache_key` feeds to the hasher. -/
def cacheText (project scope : Text) (resolved : List KeyFile) : Text :=
  line project ++ line scope ++ (sortPairs resolved).flatMap pairText

def cacheKey (sha : Sha) (project scope : Text) (resolved : List KeyFile) : Text :=
  sha.hex (cacheText project scope resolved)

theorem line_append_inj {a b x y : Text} (h : line a ++ x = line b ++ y) : a = b ∧ x = y := by
  simp only [line, List.append_assoc] at h
  obtain ⟨hfield, hrest⟩ := framed_append_inj h
  exact ⟨hfield, by simpa using hrest⟩

theorem pairText_append_inj {p q : KeyFile} {x y : Text}
    (h : pairText p ++ x = pairText q ++ y) : p = q ∧ x = y := by
  simp only [pairText, List.append_assoc] at h
  obtain ⟨hpath, hrest⟩ := line_append_inj h
  obtain ⟨hblob, htail⟩ := line_append_inj hrest
  exact ⟨Prod.ext hpath hblob, htail⟩

theorem pairText_ne_nil (p : KeyFile) : pairText p ≠ [] := by
  simp [pairText, line]

theorem flatMap_pairText_injective :
    Function.Injective fun ps : List KeyFile => ps.flatMap pairText := by
  intro ps
  induction ps with
  | nil =>
    intro qs h
    cases qs with
    | nil => rfl
    | cons q qs => simp [pairText_ne_nil] at h
  | cons p ps ih =>
    intro qs h
    cases qs with
    | nil => simp [pairText_ne_nil] at h
    | cons q qs =>
      have happend : pairText p ++ ps.flatMap pairText = pairText q ++ qs.flatMap pairText := h
      obtain ⟨hpair, hrest⟩ := pairText_append_inj happend
      rw [hpair, ih hrest]

theorem sortPairs_eq_iff {L L' : List KeyFile} : sortPairs L = sortPairs L' ↔ L.Perm L' := by
  have hperm : ∀ l : List KeyFile, (sortPairs l).Perm l := List.perm_insertionSort _
  have hsorted : ∀ l : List KeyFile, (sortPairs l).Pairwise fun a b => toLex a ≤ toLex b :=
    List.pairwise_insertionSort _
  constructor
  · intro h
    have hmid := hperm L'
    rw [← h] at hmid
    exact (hperm L).symm.trans hmid
  · intro h
    have hsame : (sortPairs L).Perm (sortPairs L') := (hperm L).trans (h.trans (hperm L').symm)
    exact hsame.eq_of_pairwise (fun a b _ _ hab hba => toLex.injective (le_antisymm hab hba))
      (hsorted L) (hsorted L')

theorem cacheText_inj {p p' c c' : Text} {L L' : List KeyFile}
    (h : cacheText p c L = cacheText p' c' L') : p = p' ∧ c = c' ∧ L.Perm L' := by
  simp only [cacheText, List.append_assoc] at h
  obtain ⟨hproject, hrest⟩ := line_append_inj h
  obtain ⟨hscope, hpairs⟩ := line_append_inj hrest
  exact ⟨hproject, hscope, sortPairs_eq_iff.mp (flatMap_pairText_injective hpairs)⟩

theorem cacheText_perm (p c : Text) {L L' : List KeyFile} (h : L.Perm L') :
    cacheText p c L = cacheText p c L' := by
  rw [cacheText, cacheText, sortPairs_eq_iff.mpr h]

/-- Keys collide only where everything they were made of agrees. -/
theorem keys_injective (sha : Sha) (hsha : sha.CollisionFree) :
    (∀ r s a r' s' a', drainFenceKey sha r s a = drainFenceKey sha r' s' a' →
      r = r' ∧ s = s' ∧ a = a') ∧
    ∀ p c L p' c' L', cacheKey sha p c L = cacheKey sha p' c' L' ↔
      p = p' ∧ c = c' ∧ L.Perm L' := by
  constructor
  · intro r s a r' s' a' h
    exact fenceText_inj (hsha.hex h)
  · intro p c L p' c' L'
    constructor
    · intro h
      exact cacheText_inj (hsha.hex h)
    · rintro ⟨rfl, rfl, hperm⟩
      exact congrArg sha.hex (cacheText_perm p c hperm)

def sampleFence : Text := fenceText ['r', ':', '1'] ['s'] ['1']

def sampleCache : Text := cacheText ['p'] [] [(['b'], ['y']), (['a'], ['x'])]

def fenceDigest : List UInt8 :=
  [0x75, 0x32, 0xf1, 0xbc, 0x97, 0x22, 0xda, 0x85, 0xe2, 0xfa, 0xc8, 0x46,
  0xbc, 0x07, 0xaa, 0x86, 0x16, 0x18, 0xec, 0x5f, 0xd2, 0x34, 0x03, 0x3e,
  0x13, 0x33, 0x40, 0x73, 0xa6, 0x71, 0x3c, 0xf6]

def cacheDigest : List UInt8 :=
  [0x8b, 0x0a, 0xab, 0x99, 0x35, 0xd1, 0xeb, 0x96, 0xa1, 0xda, 0xd2, 0x1e,
  0x21, 0x7e, 0x70, 0x42, 0xe5, 0x97, 0xae, 0x6a, 0xe7, 0x92, 0x2e, 0x7d,
  0xef, 0x81, 0x2d, 0x90, 0xab, 0x00, 0x78, 0xc8]

/-- The real digest of two texts, and longer ones that tell all other bytes apart. -/
def sampleSha : Sha where
  digest b :=
    if b = utf8Bytes sampleFence then fenceDigest
    else if b = utf8Bytes sampleCache then cacheDigest
    else List.replicate 33 0 ++ b

theorem sampleSha_collisionFree : sampleSha.CollisionFree := by
  intro a b h
  have hne : fenceDigest ≠ cacheDigest := by decide
  have hlong : ∀ c : List UInt8, List.replicate 33 0 ++ c ≠ fenceDigest ∧
      List.replicate 33 0 ++ c ≠ cacheDigest := by
    intro c
    constructor <;> intro hc <;> simpa [fenceDigest, cacheDigest] using congrArg List.length hc
  have hcancel : List.replicate 33 0 ++ a = List.replicate 33 0 ++ b → a = b :=
    List.append_cancel_left
  simp only [sampleSha] at h
  split_ifs at h <;> grind

theorem keys_injective_sample :
    drainFenceKey sampleSha ['r', ':', '1'] ['s'] ['1'] = hexText fenceDigest ∧
    cacheKey sampleSha ['p'] [] [(['a'], ['x']), (['b'], ['y'])] = hexText cacheDigest := by
  have hkeys := keys_injective sampleSha sampleSha_collisionFree
  constructor
  · simp [drainFenceKey, Sha.hex, sampleSha, sampleFence]
  · have hswap : cacheKey sampleSha ['p'] [] [(['a'], ['x']), (['b'], ['y'])] =
        cacheKey sampleSha ['p'] [] [(['b'], ['y']), (['a'], ['x'])] :=
      (hkeys.2 _ _ _ _ _ _).mpr ⟨rfl, rfl, List.Perm.swap _ _ _⟩
    have hother : utf8Bytes sampleCache ≠ utf8Bytes sampleFence := by
      intro h
      exact absurd (utf8Bytes_injective h) (by decide)
    rw [hswap]
    change hexText (sampleSha.digest (utf8Bytes sampleCache)) = hexText cacheDigest
    simp [sampleSha, hother]

end Scarab.Keys
