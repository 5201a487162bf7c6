import Mathlib.Data.List.Basic
import Mathlib.Tactic

/-!
# Wildcard patterns

A scan with one mark, kept at the last `*` passed, and the relation it decides. A `*` of the
pattern that meets a `*` of the text stands for it alone.
-/
namespace Scarab

/-- What bounds the retries: the text at the mark, or all of it before the first `*`. -/
def globRoom (t : List Char) : Option (List Char × List Char) → ℕ
  | none => t.length + 1
  | some star => max star.2.length t.length

/-- The rest of the scan: what is left of the pattern and of the text, and after a `*` was passed
the pattern behind it and the text at the mark. -/
def globScan (p t : List Char) (star : Option (List Char × List Char)) : Bool :=
  match t with
  | [] => p.all (· = '*')
  | d :: t' =>
      match p with
      | c :: p' =>
          if c = d then globScan p' t' star
          else if c = '*' then globScan p' (d :: t') (some (p', d :: t'))
          else
            match star with
            | some (sp, _ :: st) => globScan sp st (some (sp, st))
            | some (sp, []) => sp.all (· = '*')
            | none => false
      | [] =>
          match star with
          | some (sp, _ :: st) => globScan sp st (some (sp, st))
          | some (sp, []) => sp.all (· = '*')
          | none => false
termination_by (globRoom t star, p.length + t.length)
decreasing_by
  all_goals simp only [globRoom, Prod.lex_def, List.length_cons]
  · cases star
    · simp
    · simp
      omega
  · cases star <;> simp
    omega
  · simp
  · simp

def globMatch (pattern text : List Char) : Bool := globScan pattern text none

/-- A `*` stands for any text where the text does not go on with a `*`. -/
inductive GlobMatches : List Char → List Char → Prop
  | nil : GlobMatches [] []
  | char {c : Char} {p t : List Char} (h : GlobMatches p t) : GlobMatches (c :: p) (c :: t)
  | star {p u v : List Char} (hhead : (u ++ v).head? ≠ some '*') (h : GlobMatches p v) :
      GlobMatches ('*' :: p) (u ++ v)

namespace GlobMatches

theorem refl (p : List Char) : GlobMatches p p := by
  induction p with
  | nil => exact .nil
  | cons c p ih => exact .char ih

theorem nil_left {t : List Char} (h : GlobMatches [] t) : t = [] := by
  cases h with
  | nil => rfl

theorem nil_right {p : List Char} : GlobMatches p [] ↔ ∀ c ∈ p, c = '*' := by
  constructor
  · intro h
    generalize ht : ([] : List Char) = t at h
    induction h with
    | nil => simp
    | char => cases ht
    | star hhead h ih =>
      obtain ⟨-, rfl⟩ := List.append_eq_nil_iff.mp ht.symm
      simpa using ih rfl
  · intro h
    induction p with
    | nil => exact .nil
    | cons c p ih =>
      obtain rfl := h c List.mem_cons_self
      have hp : GlobMatches p [] := ih fun c hc => h c (List.mem_cons_of_mem _ hc)
      have hstar : GlobMatches ('*' :: p) ([] ++ []) := .star (by simp) hp
      exact hstar

/-- What a pattern's first character other than `*` matches. -/
theorem cons_iff {c d : Char} {p t : List Char} (h : c ≠ '*' ∨ d = '*') :
    GlobMatches (c :: p) (d :: t) ↔ c = d ∧ GlobMatches p t := by
  constructor
  · intro hm
    generalize ht : d :: t = text at hm
    cases hm with
    | char hm =>
      obtain ⟨rfl, rfl⟩ := List.cons.inj ht
      exact ⟨rfl, hm⟩
    | star hhead hm =>
      rw [← ht] at hhead
      rcases h with h | rfl
      · exact absurd rfl h
      · exact absurd rfl hhead
  · rintro ⟨rfl, hm⟩
    exact .char hm

theorem star_iff {p t : List Char} (hhead : t.head? ≠ some '*') :
    GlobMatches ('*' :: p) t ↔ ∃ u v, t = u ++ v ∧ GlobMatches p v := by
  constructor
  · intro hm
    generalize ht : t = text at hm
    cases hm with
    | char hm =>
      rw [ht] at hhead
      exact absurd rfl hhead
    | star _ hm => exact ⟨_, _, rfl, hm⟩
  · rintro ⟨u, v, rfl, hm⟩
    exact .star hhead hm

/-- What a `*` matches ends in what the rest of its pattern matches. -/
theorem star_suffix {p t : List Char} (h : GlobMatches ('*' :: p) t) :
    ∃ u v, t = u ++ v ∧ GlobMatches p v := by
  cases h with
  | char h => exact ⟨['*'], _, rfl, h⟩
  | star _ h => exact ⟨_, _, rfl, h⟩

theorem append_left {p p' t : List Char} (h : GlobMatches (p ++ p') t) :
    ∃ u v, t = u ++ v ∧ GlobMatches p u ∧ GlobMatches p' v := by
  generalize hq : p ++ p' = q at h
  induction h generalizing p with
  | nil =>
    obtain ⟨rfl, rfl⟩ := List.append_eq_nil_iff.mp hq
    exact ⟨[], [], rfl, .nil, .nil⟩
  | @char c q t h ih =>
    rcases List.append_eq_cons_iff.mp hq with ⟨rfl, rfl⟩ | ⟨p, rfl, hrest⟩
    · exact ⟨[], _, rfl, .nil, .char h⟩
    · obtain ⟨u, v, rfl, hu, hv⟩ := ih hrest.symm
      exact ⟨c :: u, v, rfl, .char hu, hv⟩
  | @star q u v hhead h ih =>
    rcases List.append_eq_cons_iff.mp hq with ⟨rfl, rfl⟩ | ⟨p, rfl, hrest⟩
    · exact ⟨[], _, rfl, .nil, .star hhead h⟩
    · obtain ⟨v₁, v₂, rfl, hv₁, hv₂⟩ := ih hrest.symm
      refine ⟨u ++ v₁, v₂, by simp, .star ?_ hv₁, hv₂⟩
      intro hu
      rw [← List.append_assoc, List.head?_append_of_ne_nil] at hhead
      · exact hhead hu
      · rintro hnil
        simp [hnil] at hu

/-- How many characters are not a wildcard. -/
def literals (t : List Char) : ℕ := t.countP (· ≠ '*')

theorem literals_append (u v : List Char) : literals (u ++ v) = literals u + literals v :=
  List.countP_append

/-- Every other character of a pattern is one of the text. -/
theorem literals_le {p t : List Char} (h : GlobMatches p t) : literals p ≤ literals t := by
  induction h with
  | nil => exact le_rfl
  | @char c p t h ih =>
    simp only [literals, List.countP_cons] at ih ⊢
    omega
  | @star p u v _ h ih =>
    have hstar : literals ('*' :: p) = literals p := by simp [literals]
    rw [literals_append, hstar]
    omega

/-- Whatever a pattern stands for, a pattern that matches it as text stands for too: a `*` of the
inner one is met only by a `*` of the outer one. -/
theorem trans {outer inner t : List Char} (h : GlobMatches outer inner) (h' : GlobMatches inner t) :
    GlobMatches outer t := by
  induction h generalizing t with
  | nil => exact h'
  | @char c p q h ih =>
    cases h' with
    | char h' => exact .char (ih h')
    | star hhead h' => exact .star hhead (ih h')
  | @star p u v hhead h ih =>
    obtain ⟨t₁, t₂, rfl, ht₁, ht₂⟩ := append_left h'
    refine .star ?_ (ih ht₂)
    -- the first character of `u ++ v` is no wildcard, so it is the first one of the text
    generalize u ++ v = w, t₁ ++ t₂ = text at hhead h'
    cases h' with
    | nil => simp
    | char h' => simpa using hhead
    | star => exact absurd rfl hhead

end GlobMatches

/-- The pattern behind the last `*` matches a later part of the text at its mark. -/
def GlobLater (star : Option (List Char × List Char)) : Prop :=
  ∃ sp st, star = some (sp, st) ∧ ∃ u v, u ≠ [] ∧ st = u ++ v ∧ GlobMatches sp v

/-- Since the last `*`, the scan has read the same characters in the pattern and in the text, and
the first of them was no wildcard. -/
def GlobReached (p t : List Char) (star : Option (List Char × List Char)) : Prop :=
  ∀ sp st, star = some (sp, st) → ∃ q, sp = q ++ p ∧ st = q ++ t ∧ q.head? ≠ some '*' ∧
    (q = [] → p.head? = some '*' → t.head? ≠ some '*')

theorem globLater_some {sp st : List Char} :
    GlobLater (some (sp, st)) ↔ ∃ u v, u ≠ [] ∧ st = u ++ v ∧ GlobMatches sp v := by
  constructor
  · rintro ⟨_, _, h, hlater⟩
    obtain ⟨rfl, rfl⟩ := Prod.mk.inj (Option.some.inj h)
    exact hlater
  · intro h
    exact ⟨sp, st, rfl, h⟩

theorem globLater_cons {sp st : List Char} {c : Char} :
    GlobLater (some (sp, c :: st)) ↔ GlobMatches sp st ∨ GlobLater (some (sp, st)) := by
  rw [globLater_some, globLater_some]
  constructor
  · rintro ⟨u, v, hu, hst, hm⟩
    cases u with
    | nil => exact absurd rfl hu
    | cons d u =>
      obtain ⟨rfl, rfl⟩ := List.cons.inj hst
      cases u with
      | nil => exact .inl hm
      | cons e u => exact .inr ⟨_, v, List.cons_ne_nil e u, rfl, hm⟩
  · rintro (hm | ⟨u, v, -, rfl, hm⟩)
    · exact ⟨[c], st, by simp, rfl, hm⟩
    · exact ⟨c :: u, v, by simp, rfl, hm⟩

/-- A later start for the pattern read so far ends later too: a start inside what was read would
leave it too few characters. -/
theorem globReached_suffix {q t u v₁ v₂ : List Char} (hhead : q.head? ≠ some '*')
    (ht : q ++ t = u ++ (v₁ ++ v₂)) (hu : u ≠ []) (hm : GlobMatches q v₁) : ∃ x, t = x ++ v₂ := by
  rw [← List.append_assoc] at ht
  rcases List.append_eq_append_iff.mp ht with ⟨w, hq, rfl⟩ | ⟨w, hq, rfl⟩
  · exact ⟨w, rfl⟩
  · cases w with
    | nil => exact ⟨[], rfl⟩
    | cons c w =>
      exfalso
      have hle := hm.literals_le
      rw [hq, GlobMatches.literals_append, GlobMatches.literals_append] at hle
      cases u with
      | nil => exact hu rfl
      | cons d u =>
        have hd : d ≠ '*' := by
          intro h
          simp [hq, h] at hhead
        simp [GlobMatches.literals, hd] at hle
        omega

theorem GlobReached.later_end {p : List Char} {star : Option (List Char × List Char)}
    (hreached : GlobReached p [] star) : ¬ GlobLater star := by
  rintro ⟨sp, st, rfl, u, v, hu, hst, hm⟩
  obtain ⟨q, rfl, hq, hhead, -⟩ := hreached sp st rfl
  obtain ⟨v₁, v₂, rfl, hv₁, hv₂⟩ := GlobMatches.append_left hm
  have hle := hv₁.literals_le
  rw [List.append_nil] at hq
  have hlen : GlobMatches.literals q =
      GlobMatches.literals u + (GlobMatches.literals v₁ + GlobMatches.literals v₂) := by
    rw [← GlobMatches.literals_append, ← GlobMatches.literals_append, ← hst, hq]
  cases u with
  | nil => exact hu rfl
  | cons d u =>
    have hd : d ≠ '*' := by
      intro h
      rw [← hq, hst, h] at hhead
      exact hhead rfl
    have hone : GlobMatches.literals (d :: u) = GlobMatches.literals u + 1 := by
      simp [GlobMatches.literals, hd]
    omega

/-- A later start after the previous `*` is no more than the `*` at hand can pass. -/
theorem GlobReached.later_star {p t : List Char} {d : Char}
    {star : Option (List Char × List Char)} (hreached : GlobReached ('*' :: p) (d :: t) star)
    (hlater : GlobLater star) : ∃ u v, d :: t = u ++ v ∧ GlobMatches p v := by
  obtain ⟨sp, st, rfl, u, v, hu, hst, hm⟩ := hlater
  obtain ⟨q, rfl, rfl, hhead, -⟩ := hreached sp st rfl
  obtain ⟨v₁, v₂, rfl, hv₁, hv₂⟩ := GlobMatches.append_left hm
  obtain ⟨x, hx⟩ := globReached_suffix hhead hst hu hv₁
  obtain ⟨y, z, rfl, hz⟩ := hv₂.star_suffix
  exact ⟨x ++ y, z, by rw [hx, List.append_assoc], hz⟩

theorem GlobReached.next {c : Char} {p t : List Char} {star : Option (List Char × List Char)}
    (hreached : GlobReached (c :: p) (c :: t) star) : GlobReached p t star := by
  intro sp st hstar
  obtain ⟨q, rfl, rfl, hhead, hfirst⟩ := hreached sp st hstar
  refine ⟨q ++ [c], by simp, by simp, ?_, by simp⟩
  cases q with
  | nil =>
    intro hc
    obtain rfl : c = '*' := by simpa using hc
    exact hfirst rfl rfl rfl
  | cons e q => simpa using hhead

/-- A retry starts over behind a `*` whose next character is no wildcard. -/
theorem GlobReached.retry {p t st : List Char} {sp : List Char}
    {e : Char} (hreached : GlobReached p t (some (sp, e :: st))) (hp : p.head? ≠ some '*') :
    GlobReached sp st (some (sp, st)) := by
  intro sp' st' hstar
  obtain ⟨rfl, rfl⟩ := Prod.mk.inj (Option.some.inj hstar)
  obtain ⟨q, rfl, -, hhead, -⟩ := hreached _ _ rfl
  refine ⟨[], rfl, rfl, by simp, fun _ hsp => absurd hsp ?_⟩
  cases q with
  | nil => exact hp
  | cons c q => simpa using hhead

theorem GlobReached.mark_ne_nil {p t sp : List Char} {d : Char}
    (hreached : GlobReached p (d :: t) (some (sp, []))) : False := by
  obtain ⟨q, -, hq, -⟩ := hreached _ _ rfl
  simp at hq

theorem globScan_iff {p t : List Char} {star : Option (List Char × List Char)}
    (hreached : GlobReached p t star) :
    globScan p t star = true ↔ GlobMatches p t ∨ GlobLater star := by
  fun_induction globScan p t star with
  | case1 p star => simp [GlobMatches.nil_right, hreached.later_end]
  | case2 star t c p ih =>
    have hsame : c ≠ '*' ∨ c = '*' := ne_or_eq c '*'
    rw [ih hreached.next, GlobMatches.cons_iff hsame]
    simp
  | case3 star d t p hne ih =>
    have hd : (d :: t).head? ≠ some '*' := by simpa using Ne.symm hne
    have hstart : GlobReached p (d :: t) (some (p, d :: t)) := by
      intro sp st hstar
      obtain ⟨rfl, rfl⟩ := Prod.mk.inj (Option.some.inj hstar)
      exact ⟨[], rfl, rfl, by simp, fun _ _ => hd⟩
    rw [ih hstart, globLater_some, GlobMatches.star_iff hd]
    constructor
    · rintro (hm | ⟨u, v, -, hu, hm⟩)
      · exact .inl ⟨[], d :: t, rfl, hm⟩
      · exact .inl ⟨u, v, hu, hm⟩
    · intro h
      obtain ⟨u, v, hu, hm⟩ := h.elim id hreached.later_star
      cases u with
      | nil => exact .inl (hu ▸ hm)
      | cons e u => exact .inr ⟨e :: u, v, by simp, hu, hm⟩
  | case4 d t c p hne hstar sp e st ih =>
    rw [ih (hreached.retry (by simpa using hstar)), globLater_cons, GlobMatches.cons_iff (.inl hstar)]
    simp [hne]
  | case5 d t c p hne hstar sp => exact hreached.mark_ne_nil.elim
  | case6 d t c p hne hstar =>
    rw [GlobMatches.cons_iff (.inl hstar)]
    simp [hne, GlobLater]
  | case7 d t sp e st ih =>
    rw [ih (hreached.retry (by simp)), globLater_cons]
    constructor
    · exact .inr
    · rintro (hm | h)
      · cases hm.nil_left
      · exact h
  | case8 d t sp => exact hreached.mark_ne_nil.elim
  | case9 d t =>
    constructor
    · intro h
      cases h
    · rintro (hm | ⟨sp, st, h, -⟩)
      · cases hm.nil_left
      · cases h

/-- The scan decides the relation: backing up to the last `*` alone loses no match. -/
theorem globMatch_iff {pattern text : List Char} :
    globMatch pattern text = true ↔ GlobMatches pattern text := by
  have hreached : GlobReached pattern text none := by
    intro sp st h
    cases h
  have hlater : ¬ GlobLater none := by
    rintro ⟨sp, st, h, -⟩
    cases h
  rw [globMatch, globScan_iff hreached]
  simp [hlater]

end Scarab
