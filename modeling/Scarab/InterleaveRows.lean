import Scarab.InterleaveDebts

/-!
# Rows of a shared store

A row is put under an id of its own, from then on changes only as the commands allow, and is spent
at most once.
-/
namespace Scarab.Interleave

section rows

variable {M : Machine} {ρ ι : Type} {cond : Config M → Entry M → Prop} {g : Config M} {s : M.State}
  {log : List (Entry M)} {x : Exchange M.Cmd M.Resp}

/-- The exchanges of all calls in a log, newest first. -/
def exchanges (log : List (Entry M)) : List (Exchange M.Cmd M.Resp) :=
  log.filterMap fun e =>
    match e.what with
    | .did c r => some ⟨c, r⟩
    | _ => none

theorem exchanges_cons_did {e : Entry M} {c : M.Cmd} {r : M.Resp c} (hw : e.what = .did c r) :
    exchanges (e :: log) = ⟨c, r⟩ :: exchanges log := by
  simp [exchanges, hw]

theorem exchanges_cons_quiet {e : Entry M} (hw : ∀ c r, e.what ≠ .did c r) :
    exchanges (e :: log) = exchanges log := by
  cases hwhat : e.what with
  | did c r => exact absurd hwhat (hw c r)
  | started | returned | crashed => simp [exchanges, hwhat]

theorem mem_exchanges : x ∈ exchanges log ↔ ∃ pid, x ∈ ownOf log pid := by
  constructor
  · intro hx
    obtain ⟨e, he, hwhat⟩ := List.mem_filterMap.mp hx
    refine ⟨e.pid, mem_ownOf.mpr ⟨e, he, rfl, ?_⟩⟩
    cases hw : e.what with
    | did c r =>
      rw [hw] at hwhat
      obtain rfl := Option.some.inj hwhat
      rfl
    | started | returned | crashed => simp [hw] at hwhat
  · rintro ⟨pid, hx⟩
    obtain ⟨e, he, -, hw⟩ := mem_ownOf.mp hx
    exact List.mem_filterMap.mpr ⟨e, he, by simp [hw]⟩

theorem apart_iff {R : Exchange M.Cmd M.Resp → Exchange M.Cmd M.Resp → Prop} :
    Apart log R ↔ (exchanges log).Pairwise R := by
  rw [Apart, exchanges, List.pairwise_filterMap]
  refine List.Pairwise.iff_of_mem fun {e e'} _ _ => ?_
  constructor
  · intro h x hx y hy
    cases hw : e.what with
    | did c r =>
      cases hw' : e'.what with
      | did c' r' =>
        simp only [hw, hw', Option.some.injEq] at hx hy
        exact hx ▸ hy ▸ h c r c' r' hw hw'
      | started | returned | crashed => simp [hw'] at hy
    | started | returned | crashed => simp [hw] at hx
  · intro h c r c' r' hw hw'
    exact h ⟨c, r⟩ (by simp [hw]) ⟨c', r'⟩ (by simp [hw'])

/-- Every row was put by a call, and has become what the commands made of it. -/
theorem Reach.comes_from (rows : M.State → ρ → Prop) (puts : Exchange M.Cmd M.Resp → ρ → Prop)
    (becomes : ρ → ρ → Prop) (hrefl : ∀ y, becomes y y)
    (htrans : ∀ x y z, becomes x y → becomes y z → becomes x z)
    (hstep : ∀ c a s r s', M.respond c a s = (r, s') → ∀ y, rows s' y →
      puts ⟨c, r⟩ y ∨ ∃ y₀, rows s y₀ ∧ becomes y₀ y)
    (h0 : ∀ y, ¬ rows s y) (hr : Reach cond s g) :
    ∀ y, rows g.state y → ∃ pid, ∃ x ∈ ownOf g.log pid, ∃ y₀, puts x y₀ ∧ becomes y₀ y := by
  refine Runs.keeps (P := fun g : Config M => ∀ y, rows g.state y →
    ∃ pid, ∃ x ∈ ownOf g.log pid, ∃ y₀, puts x y₀ ∧ becomes y₀ y) ?_ hr fun y hy => absurd hy (h0 y)
  intro g e g₁ _ hs _ ih y hy
  have hkept : ∀ y₀, rows g.state y₀ → becomes y₀ y →
      ∃ pid, ∃ x ∈ ownOf (e :: g.log) pid, ∃ y₀, puts x y₀ ∧ becomes y₀ y := by
    intro y₀ hy₀ hb
    obtain ⟨pid, x, hx, y₁, hput, hb₁⟩ := ih y₀ hy₀
    exact ⟨pid, x, ownOf_subset (List.subset_cons_self _ _) hx, y₁, hput, htrans _ _ _ hb₁ hb⟩
  rw [hs.log_eq]
  rcases hs.state_cases with ⟨hstate, -⟩ | ⟨c, r, a, hw, hresp⟩
  · exact hkept y (hstate ▸ hy) (hrefl y)
  · rcases hstep c a g.state r g₁.state hresp y hy with hput | ⟨y₀, hy₀, hb⟩
    · refine ⟨e.pid, ⟨c, r⟩, ?_, y, hput, hrefl y⟩
      rw [ownOf_cons_did hw]
      exact List.mem_cons_self
    · exact hkept y₀ hy₀ hb

/-- Ids counted up are drawn once. -/
theorem Reach.draws_apart (count : M.State → ℕ) (draws : Exchange M.Cmd M.Resp → ℕ → Prop)
    (hdraw : ∀ c a s r s', M.respond c a s = (r, s') → ∀ i, draws ⟨c, r⟩ i →
      count s ≤ i ∧ i < count s')
    (hmono : ∀ c a s r s', M.respond c a s = (r, s') → count s ≤ count s') (hr : Reach cond s g)
    (i : ℕ) : Apart g.log fun x y => draws x i → ¬ draws y i := by
  suffices h : (∀ x ∈ exchanges g.log, draws x i → i < count g.state) ∧
      (exchanges g.log).Pairwise fun x y => draws x i → ¬ draws y i from apart_iff.mpr h.2
  refine Runs.keeps (P := fun g : Config M => (∀ x ∈ exchanges g.log, draws x i →
    i < count g.state) ∧ (exchanges g.log).Pairwise fun x y => draws x i → ¬ draws y i) ?_ hr
    ⟨by simp [exchanges, Config.init], List.Pairwise.nil⟩
  intro g e g₁ _ hs _ hI
  obtain ⟨hbelow, hpair⟩ := hI
  rw [hs.log_eq]
  rcases hs.state_cases with ⟨hstate, hquiet⟩ | ⟨c, r, a, hw, hresp⟩
  · rw [exchanges_cons_quiet hquiet, hstate]
    exact ⟨hbelow, hpair⟩
  · rw [exchanges_cons_did hw]
    have hle := hmono c a g.state r g₁.state hresp
    refine ⟨fun x hx hdx => ?_, List.pairwise_cons.mpr ⟨fun x hx hd hdx => ?_, hpair⟩⟩
    · rcases List.mem_cons.mp hx with rfl | hx
      · exact (hdraw c a g.state r g₁.state hresp i hdx).2
      · exact lt_of_lt_of_le (hbelow x hx hdx) hle
    · have hge := (hdraw c a g.state r g₁.state hresp i hd).1
      exact absurd (hbelow x hx hdx) (by omega)

/-- What is live was put and not spent since. -/
theorem Reach.live_owed {live : M.State → ι → Prop} {puts spends : Exchange M.Cmd M.Resp → ι → Prop}
    (hstep : ∀ c a s r s', M.respond c a s = (r, s') → ∀ i, live s' i →
      ¬ spends ⟨c, r⟩ i ∧ (puts ⟨c, r⟩ i ∨ live s i))
    (h0 : ∀ i, ¬ live s i) (hr : Reach cond s g) :
    ∀ i, live g.state i → Owes puts spends (exchanges g.log) i := by
  refine Runs.keeps (P := fun g : Config M => ∀ i, live g.state i →
    Owes puts spends (exchanges g.log) i) ?_ hr fun i hi => absurd hi (h0 i)
  intro g e g₁ _ hs _ ih i hi
  rw [hs.log_eq]
  rcases hs.state_cases with ⟨hstate, hquiet⟩ | ⟨c, r, a, hw, hresp⟩
  · rw [exchanges_cons_quiet hquiet]
    exact ih i (hstate ▸ hi)
  · rw [exchanges_cons_did hw]
    obtain ⟨hnot, hput | hlive⟩ := hstep c a g.state r g₁.state hresp i hi
    · exact owes_cons.mpr ⟨hnot, .inl hput⟩
    · exact owes_cons.mpr ⟨hnot, .inr (ih i hlive)⟩

/-- What is put once is spent once, when only what is live is spent and spending ends it. -/
theorem Reach.spent_once (live : M.State → ι → Prop)
    (puts spends : Exchange M.Cmd M.Resp → ι → Prop) {i : ι}
    (hstep : ∀ c a s r s', M.respond c a s = (r, s') → ∀ i, live s' i →
      ¬ spends ⟨c, r⟩ i ∧ (puts ⟨c, r⟩ i ∨ live s i))
    (hspend : ∀ c a s r s', M.respond c a s = (r, s') → spends ⟨c, r⟩ i → live s i)
    (h0 : ∀ i, ¬ live s i) (hr : Reach cond s g)
    (honce : Apart g.log fun x y => puts x i → ¬ puts y i) :
    Apart g.log fun x y => spends x i → ¬ spends y i := by
  rw [apart_iff] at honce ⊢
  refine pairwise_of_owes honce fun newer x older hsplit hx => ?_
  obtain ⟨c, r⟩ := x
  have hfound : ∃ newer' e older', g.log = newer' ++ e :: older' ∧ e.what = .did c r ∧
      exchanges older' = older := by
    clear honce hr
    generalize g.log = log at hsplit
    induction log generalizing newer with
    | nil => simp [exchanges] at hsplit
    | cons e log ih =>
      cases hw : e.what with
      | did c' r' =>
        rw [exchanges_cons_did hw] at hsplit
        cases newer with
        | nil =>
          obtain ⟨heq, rfl⟩ := List.cons.inj hsplit
          refine ⟨[], e, log, rfl, ?_, rfl⟩
          obtain ⟨rfl, hr⟩ := Sigma.mk.inj heq
          rw [hw, eq_of_heq hr]
        | cons y newer =>
          obtain ⟨-, hrest⟩ := List.cons.inj hsplit
          obtain ⟨n, e', o, rfl, hw', ho⟩ := ih newer hrest
          exact ⟨e :: n, e', o, rfl, hw', ho⟩
      | started | returned | crashed =>
        rw [exchanges_cons_quiet (by simp [hw])] at hsplit
        obtain ⟨n, e', o, rfl, hw', ho⟩ := ih newer hsplit
        exact ⟨e :: n, e', o, rfl, hw', ho⟩
  obtain ⟨newer', e, older', hlog, hw, rfl⟩ := hfound
  obtain ⟨g₀, g₁, hr₀, hs, -, -, rfl⟩ := hr.at_entry hlog
  rcases hs.state_cases with ⟨-, hquiet⟩ | ⟨c', r', a, hw', hresp⟩
  · exact absurd hw (hquiet c r)
  · obtain ⟨rfl, hr'⟩ : c' = c ∧ HEq r' r := by simpa [hw] using hw'.symm
    obtain rfl := eq_of_heq hr'
    exact hr₀.live_owed hstep h0 i (hspend c' a g₀.state r' g₁.state hresp hx)

end rows
end Scarab.Interleave
