import Scarab.InterleaveSystem

/-!
# Calls under a contract

An invariant of the shared state says what the commands on it answer, those answers what the
programs go on to ask, and what they have asked what they end with.
-/
namespace Scarab.Interleave

namespace Prog

variable {C : Type} {R : C → Type} {ε α β : Type}
variable (G : (c : C) → R c → Prop) (K : C → Prop)

/-- Every command is one of `K` and, with each answered as `G` says, the program ends in `Q`. -/
def meets : Prog C R ε α → List (Exchange C R) → (List (Exchange C R) → Except ε α → Prop) → Prop
  | ok a, h, Q => Q h (.ok a)
  | err e, h, Q => Q h (.error e)
  | call c k, h, Q => K c ∧ ∀ r, G c r → (k r).meets (⟨c, r⟩ :: h) Q

variable {G K} {h : List (Exchange C R)} {Q : List (Exchange C R) → Except ε α → Prop}

theorem meets_mono {p : Prog C R ε α} {Q' : List (Exchange C R) → Except ε α → Prop}
    (hp : p.meets G K h Q) (hQ : ∀ h' x, h <:+ h' → Q h' x → Q' h' x) : p.meets G K h Q' := by
  induction p generalizing h with
  | ok a => exact hQ h _ List.suffix_rfl hp
  | err e => exact hQ h _ List.suffix_rfl hp
  | call c k ih =>
    refine ⟨hp.1, fun r hr => ih r (hp.2 r hr) fun h' x hh hx => hQ h' x ?_ hx⟩
    exact (List.suffix_cons _ _).trans hh

theorem meets_bind {p : Prog C R ε α} {f : α → Prog C R ε β}
    {Q' : List (Exchange C R) → Except ε β → Prop} (hp : p.meets G K h Q)
    (hok : ∀ h' a, h <:+ h' → Q h' (.ok a) → (f a).meets G K h' Q')
    (herr : ∀ h' e, h <:+ h' → Q h' (.error e) → Q' h' (.error e)) :
    (p.bind f).meets G K h Q' := by
  induction p generalizing h with
  | ok a => exact hok h a List.suffix_rfl hp
  | err e => exact herr h e List.suffix_rfl hp
  | call c k ih =>
    refine ⟨hp.1, fun r hr => ih r (hp.2 r hr) (fun h' a hh => hok h' a ?_) fun h' e hh => ?_⟩
    · exact (List.suffix_cons _ _).trans hh
    · exact herr h' e ((List.suffix_cons _ _).trans hh)

theorem meets_attempt {p : Prog C R ε α} {F : List (Exchange C R) → Except ε (Except ε α) → Prop}
    (hp : p.meets G K h fun h' x => F h' (.ok x)) : p.attempt.meets G K h F := by
  induction p generalizing h with
  | ok a => exact hp
  | err e => exact hp
  | call c k ih => exact ⟨hp.1, fun r hr => ih r (hp.2 r hr)⟩

theorem foldlM_eq_foldEach (xs : List α) (acc : β) (body : β → α → Prog C R ε β) :
    xs.foldlM body acc = foldEach xs acc body := by
  induction xs generalizing acc with
  | nil => rfl
  | cons x xs ih =>
    rw [List.foldlM_cons, foldEach, bind_eq]
    congr 1
    funext acc'
    exact ih acc'

/-- A fold, by what holds once a prefix of the list is done. -/
theorem meets_foldEach {xs : List α} {acc : β} {body : β → α → Prog C R ε β}
    {I : List α → β → Prop} (hI : I [] acc)
    (hbody : ∀ done x rest, xs = done ++ x :: rest → ∀ acc h', I done acc →
      (body acc x).meets G K h' fun _ r => ∀ b, r = .ok b → I (done ++ [x]) b) :
    (foldEach xs acc body).meets G K h fun _ r => ∀ b, r = .ok b → I xs b := by
  suffices hgen : ∀ rest done acc h, xs = done ++ rest → I done acc →
      (foldEach rest acc body).meets G K h fun _ r => ∀ b, r = .ok b → I xs b from
    hgen xs [] acc h rfl hI
  intro rest
  induction rest with
  | nil =>
    intro done acc h hxs hI b hb
    rw [List.append_nil] at hxs
    obtain rfl := Except.ok.inj hb
    exact hxs ▸ hI
  | cons x rest ih =>
    intro done acc h hxs hI
    refine meets_bind (hbody done x rest hxs acc h hI) (fun h' b _ hb => ?_) fun h' e _ _ b hb => ?_
    · exact ih (done ++ [x]) b h' (by rw [hxs, List.append_assoc]; rfl) (hb b rfl)
    · cases hb

end Prog

/-- What holds of a machine's state, what its calls ask of it, what they are answered and what
each of them ends with. -/
structure Contract (M : Machine) where
  Inv : M.State → Prop
  Asks : M.Cmd → Prop
  Answers : (c : M.Cmd) → M.Resp c → Prop
  Ends : M.Call → List (Exchange M.Cmd M.Resp) → Except M.Err M.Value → Prop

/-- Every exchange of the run is one that `honest` allows. -/
def Honestly {M : Machine} (honest : (c : M.Cmd) → M.Resp c → Prop) (_ : Config M) (e : Entry M) :
    Prop :=
  ∀ c r, e.what = .did c r → honest c r

/-- What holds of every exchange of a run may be asked of its steps. -/
theorem Reach.honestly_and {M : Machine} {honest also : (c : M.Cmd) → M.Resp c → Prop} {s : M.State}
    {g : Config M} (h : Reach (Honestly honest) s g)
    (hlog : ∀ e ∈ g.log, ∀ c r, e.what = .did c r → also c r) :
    Reach (Honestly fun c r => honest c r ∧ also c r) s g := by
  unfold Reach at h
  induction h with
  | refl => exact Runs.refl
  | tail _ step hh ih =>
    rw [step.log_eq] at hlog
    have hold := ih fun x hx => hlog x (List.mem_cons_of_mem _ hx)
    exact hold.next step fun c r hdid => ⟨hh c r hdid, hlog _ List.mem_cons_self c r hdid⟩

/-- The commands keep the invariant and answer as agreed, and the calls keep to their part. -/
structure Contract.Kept {M : Machine} (P : Contract M) (honest : (c : M.Cmd) → M.Resp c → Prop) :
    Prop where
  respond : ∀ c w s r s', P.Inv s → P.Asks c → M.respond c w s = (r, s') → honest c r →
    P.Answers c r ∧ P.Inv s'
  body : ∀ l, (M.body l).meets P.Answers P.Asks [] (P.Ends l)

section contract

variable {M : Machine} {P : Contract M} {honest : (c : M.Cmd) → M.Resp c → Prop} {s : M.State}
  {g g₁ : Config M} {e : Entry M}

/-- What is known of a configuration of a run under the contract. -/
structure Contract.Held (P : Contract M) (g : Config M) : Prop where
  inv : P.Inv g.state
  rest : ∀ pid l p, g.procs pid = some (l, p) →
    p.meets P.Answers P.Asks (ownOf g.log pid) (P.Ends l)
  before : ∀ e ∈ g.log, P.Inv e.before
  answered : ∀ e ∈ g.log, ∀ c r, e.what = .did c r → P.Answers c r
  ended : ∀ e ∈ g.log, ∀ x, e.what = .returned x →
    ∃ l h, StartedAs g.log e.pid l ∧ h ⊆ ownOf g.log e.pid ∧ P.Ends l h x

/-- A step that ends a call leaves the rest of the others alone. -/
theorem Contract.Held.others (h : P.Held g) {pid : ℕ} {w : Occurrence M} : ∀ i l p, (g.record pid g.state w none).procs i = some (l, p) →
      p.meets P.Answers P.Asks (ownOf (g.record pid g.state w none).log i) (P.Ends l) := by
  intro i l p hp
  by_cases hi : i = pid
  · subst hi
    simp [Config.record] at hp
  · have hrest := h.rest i l p (by simpa [Config.record, Function.update_of_ne hi] using hp)
    rwa [Config.record, ownOf_cons_ne (Ne.symm hi)]

theorem Contract.Held.answered_cons (h : P.Held g) {x : Entry M} (hw : ∀ c r, x.what ≠ .did c r) :
    ∀ e ∈ x :: g.log, ∀ c r, e.what = .did c r → P.Answers c r := by
  intro e he c r hdid
  rcases List.mem_cons.mp he with rfl | he
  · exact absurd hdid (hw c r)
  · exact h.answered e he c r hdid

theorem Contract.Held.step (hk : P.Kept honest)
    (hj : g.Justified (fun _ _ _ => True) fun _ _ _ => True) (h : P.Held g) (hs : Step g e g₁)
    (hh : Honestly honest g e) : P.Held g₁ := by
  have hold : ∀ x ∈ g.log, ∀ y, x.what = .returned y →
      ∃ l h, StartedAs g₁.log x.pid l ∧ h ⊆ ownOf g₁.log x.pid ∧ P.Ends l h y := by
    intro x hx y hy
    obtain ⟨l, past, hl, hsub, hend⟩ := h.ended x hx y hy
    rw [hs.log_eq]
    exact ⟨l, past, hl.cons e, List.Subset.trans hsub (ownOf_subset (List.subset_cons_self e g.log)), hend⟩
  have hbefore : ∀ x ∈ g₁.log, P.Inv x.before := by
    rw [hs.log_eq]
    intro x hx
    rcases List.mem_cons.mp hx with rfl | hx
    · rw [hs.before_eq]
      exact h.inv
    · exact h.before x hx
  cases hs with
  | start l =>
    obtain ⟨hn, hlog⟩ := hj.fresh g.next le_rfl
    refine ⟨h.inv, fun i l' p hp => ?_, hbefore, fun x hx c r hw => ?_, fun x hx y hy => ?_⟩
    · by_cases hi : i = g.next
      · subst hi
        obtain ⟨rfl, rfl⟩ : l = l' ∧ M.body l = p := by simpa [Config.record] using hp
        have hown : ownOf (⟨g.next, g.state, g.state, .started l⟩ :: g.log) g.next = [] := by
          rw [← ownOf_eq_nil hlog]
          simp [ownOf]
        simpa only [Config.record, hown] using hk.body l
      · have hrest := h.rest i l' p (by simpa [Config.record, Function.update_of_ne hi] using hp)
        rwa [Config.record, ownOf_cons_ne (Ne.symm hi)]
    · rcases List.mem_cons.mp hx with rfl | hx
      · cases hw
      · exact h.answered x hx c r hw
    · rcases List.mem_cons.mp hx with rfl | hx
      · cases hy
      · exact hold x hx y hy
  | @act pid l c k a r t proc resp =>
    have hrest := h.rest pid l _ proc
    obtain ⟨hans, hinv⟩ := hk.respond c a g.state r t h.inv hrest.1 resp (hh c r rfl)
    refine ⟨hinv, fun i l' p hp => ?_, hbefore, fun x hx c' r' hw => ?_, fun x hx y hy => ?_⟩
    · by_cases hi : i = pid
      · subst hi
        obtain ⟨rfl, rfl⟩ : l = l' ∧ k r = p := by simpa [Config.record] using hp
        have hown : ownOf (⟨i, g.state, t, .did c r⟩ :: g.log) i = ⟨c, r⟩ :: ownOf g.log i := by
          simp [ownOf]
        simpa only [Config.record, hown] using hrest.2 r hans
      · have hrest := h.rest i l' p (by simpa [Config.record, Function.update_of_ne hi] using hp)
        rwa [Config.record, ownOf_cons_ne (Ne.symm hi)]
    · rcases List.mem_cons.mp hx with rfl | hx
      · obtain ⟨rfl, hr⟩ : c = c' ∧ HEq r r' := by simpa using hw
        exact eq_of_heq hr ▸ hans
      · exact h.answered x hx c' r' hw
    · rcases List.mem_cons.mp hx with rfl | hx
      · cases hy
      · exact hold x hx y hy
  | @finish pid l v proc =>
    refine ⟨h.inv, h.others, hbefore, h.answered_cons (by simp), fun x hx y hy => ?_⟩
    rcases List.mem_cons.mp hx with rfl | hx
    · obtain rfl := Occurrence.returned.inj hy
      exact ⟨l, _, (hj.started pid l _ proc).cons _, ownOf_subset (List.subset_cons_self _ _),
        h.rest pid l _ proc⟩
    · exact hold x hx y hy
  | @fail pid l err proc =>
    refine ⟨h.inv, h.others, hbefore, h.answered_cons (by simp), fun x hx y hy => ?_⟩
    rcases List.mem_cons.mp hx with rfl | hx
    · obtain rfl := Occurrence.returned.inj hy
      exact ⟨l, _, (hj.started pid l _ proc).cons _, ownOf_subset (List.subset_cons_self _ _),
        h.rest pid l _ proc⟩
    · exact hold x hx y hy
  | @crash pid l p proc =>
    refine ⟨h.inv, h.others, hbefore, h.answered_cons (by simp), fun x hx y hy => ?_⟩
    rcases List.mem_cons.mp hx with rfl | hx
    · cases hy
    · exact hold x hx y hy

/-- In every run whose exchanges are honest the contract holds. -/
theorem Reach.held (hk : P.Kept honest) (h0 : P.Inv s) (hr : Reach (Honestly honest) s g) :
    P.Held g := by
  refine Runs.keeps (P := fun g' : Config M => P.Held g') ?_ hr ?_
  · intro g₁ e g₂ hrun hs hh hheld
    have hj : g₁.Justified (fun _ _ _ => True) fun _ _ _ => True :=
      Reach.justified (fun l => Prog.wp_of_forall fun _ _ => trivial) hrun
    exact hheld.step hk hj hs hh
  · exact ⟨h0, by simp [Config.init], by simp [Config.init], by simp [Config.init],
      by simp [Config.init]⟩

end contract
end Scarab.Interleave
