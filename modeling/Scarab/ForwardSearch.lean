import Mathlib

/-!
# Searching forward

A search over the integers that only moves up, past places it need not look at, until it finds
one or halts. Where no move passes a place that qualifies, what it finds is the first.
-/
namespace Scarab.ForwardSearch

/-- What a search does at the place it stands on. -/
inductive Move (ρ : Type) where
  | found
  | skip (next : ℤ)
  | halt (r : ρ)

/-- Where a search ends: at a place, or with the answer it halts with; `none` out of fuel. -/
def run {ρ : Type} (move : ℤ → Move ρ) : ℕ → ℤ → Option (ℤ ⊕ ρ)
  | 0, _ => none
  | fuel + 1, t =>
      match move t with
      | .found => some (.inl t)
      | .skip next => run move fuel next
      | .halt r => some (.inr r)

/-- Every move is right about the places that qualify. -/
structure Sound {ρ : Type} (P : ℤ → Prop) (move : ℤ → Move ρ) : Prop where
  found : ∀ t, move t = .found → P t
  up : ∀ t next, move t = .skip next → t < next
  skip : ∀ t next, move t = .skip next → ∀ w, t ≤ w → w < next → ¬ P w

section

variable {ρ : Type} {P : ℤ → Prop} {move : ℤ → Move ρ}

theorem run_found (hs : Sound P move) {fuel : ℕ} {t u : ℤ}
    (h : run move fuel t = some (.inl u)) : t ≤ u ∧ P u ∧ ∀ w, t ≤ w → w < u → ¬ P w := by
  induction fuel generalizing t with
  | zero => simp [run] at h
  | succ fuel ih =>
    rw [run] at h
    cases hm : move t with
    | found =>
      simp only [hm, Option.some.injEq, Sum.inl.injEq] at h
      subst h
      exact ⟨le_rfl, hs.found t hm, fun w hle hlt => absurd hle (by omega)⟩
    | halt r => simp [hm] at h
    | skip next =>
      simp only [hm] at h
      have hup := hs.up t next hm
      obtain ⟨hle, hu, hfirst⟩ := ih h
      refine ⟨by omega, hu, ?_⟩
      intro w htw hwu
      rcases lt_or_ge w next with hlt | hge
      · exact hs.skip t next hm w htw hlt
      · exact hfirst w hge hwu

theorem run_halt (hs : Sound P move) {fuel : ℕ} {t : ℤ} {r : ρ}
    (h : run move fuel t = some (.inr r)) :
    ∃ e, t ≤ e ∧ move e = .halt r ∧ ∀ w, t ≤ w → w < e → ¬ P w := by
  induction fuel generalizing t with
  | zero => simp [run] at h
  | succ fuel ih =>
    rw [run] at h
    cases hm : move t with
    | found => simp [hm] at h
    | halt r' =>
      simp only [hm, Option.some.injEq, Sum.inr.injEq] at h
      subst h
      exact ⟨t, le_rfl, hm, fun w hle hlt => absurd hle (by omega)⟩
    | skip next =>
      simp only [hm] at h
      have hup := hs.up t next hm
      obtain ⟨e, hle, he, hpast⟩ := ih h
      refine ⟨e, by omega, he, ?_⟩
      intro w htw hwe
      rcases lt_or_ge w next with hlt | hge
      · exact hs.skip t next hm w htw hlt
      · exact hpast w hge hwe

/-- A search that halts from `bound` on ends within as many moves as there are places to it. -/
theorem run_isSome (hs : Sound P move) {bound : ℤ}
    (hbound : ∀ e, bound ≤ e → ∃ r, move e = .halt r) (fuel : ℕ) (t : ℤ)
    (hfuel : (bound - t).toNat < fuel) : (run move fuel t).isSome = true := by
  induction fuel generalizing t with
  | zero => omega
  | succ fuel ih =>
    rw [run]
    cases hm : move t with
    | found => rfl
    | halt r => rfl
    | skip next =>
      have hup := hs.up t next hm
      have hbelow : t < bound := by
        by_contra hge
        obtain ⟨r, hr⟩ := hbound t (by omega)
        rw [hm] at hr
        cases hr
      exact ih next (by omega)

end

end Scarab.ForwardSearch
