import Scarab.InterleaveProgram

/-!
# A program running alone

One program run to its end on the shared state, with no other in between. The environment
still chooses how each command is answered.
-/
namespace Scarab.Interleave.Prog

variable {C A S ε α β : Type} {R : C → Type}

/-- Run a program to its end; `w i` is the environment's choice at its `i`-th command. -/
def alone (respond : (c : C) → A → S → R c × S) (w : ℕ → A) :
    Prog C R ε α → ℕ → S → Except ε α × S
  | ok a, _, s => (.ok a, s)
  | err e, _, s => (.error e, s)
  | call c k, i, s => (k (respond c (w i) s).1).alone respond w (i + 1) (respond c (w i) s).2

/-- Whatever the environment chooses among `calm`, the program ends in `Q`. -/
def solo (respond : (c : C) → A → S → R c × S) (calm : A → Prop) :
    Prog C R ε α → S → (Except ε α → S → Prop) → Prop
  | ok a, s, Q => Q (.ok a) s
  | err e, s, Q => Q (.error e) s
  | call c k, s, Q =>
      ∀ w, calm w → (k (respond c w s).1).solo respond calm (respond c w s).2 Q

variable {respond : (c : C) → A → S → R c × S} {calm : A → Prop} {s : S}

theorem alone_of_solo {p : Prog C R ε α} {Q : Except ε α → S → Prop}
    (h : p.solo respond calm s Q) {w : ℕ → A} (hw : ∀ i, calm (w i)) (i : ℕ) :
    Q (p.alone respond w i s).1 (p.alone respond w i s).2 := by
  induction p generalizing s i with
  | ok a => exact h
  | err e => exact h
  | call c k ih => exact ih _ (h (w i) (hw i)) (i + 1)

theorem solo_mono {p : Prog C R ε α} {Q Q' : Except ε α → S → Prop}
    (h : p.solo respond calm s Q) (hQ : ∀ r s', Q r s' → Q' r s') :
    p.solo respond calm s Q' := by
  induction p generalizing s with
  | ok a => exact hQ _ _ h
  | err e => exact hQ _ _ h
  | call c k ih => exact fun w hw => ih _ (h w hw)

/-- What every command keeps holds at the end as well. -/
theorem solo_keeps {p : Prog C R ε α} {Q : Except ε α → S → Prop} {I : S → Prop}
    (h : p.solo respond calm s Q) (hkeep : ∀ c w s, I s → I (respond c w s).2) (hs : I s) :
    p.solo respond calm s fun r s' => Q r s' ∧ I s' := by
  induction p generalizing s with
  | ok a => exact ⟨h, hs⟩
  | err e => exact ⟨h, hs⟩
  | call c k ih => exact fun w hw => ih _ (h w hw) (hkeep c w s hs)

theorem solo_bind {p : Prog C R ε α} {f : α → Prog C R ε β} {Q : Except ε α → S → Prop}
    {G : Except ε β → S → Prop} (h : p.solo respond calm s Q)
    (hok : ∀ a s', Q (.ok a) s' → (f a).solo respond calm s' G)
    (herr : ∀ e s', Q (.error e) s' → G (.error e) s') : (p.bind f).solo respond calm s G := by
  induction p generalizing s with
  | ok a => exact hok a s h
  | err e => exact herr e s h
  | call c k ih => exact fun w hw => ih _ (h w hw)

/-- A step of a program that returns, with what follows it. -/
theorem solo_seq {p : Prog C R ε α} {f : α → Prog C R ε β} {Q : α → S → Prop}
    {G : Except ε β → S → Prop}
    (h : p.solo respond calm s fun r s' => ∃ a, r = .ok a ∧ Q a s')
    (hok : ∀ a s', Q a s' → (f a).solo respond calm s' G) :
    (p.bind f).solo respond calm s G := by
  refine solo_bind h (fun a s' hx => ?_) fun e s' hx => ?_
  · obtain ⟨a', heq, hQ⟩ := hx
    rw [Except.ok.inj heq]
    exact hok a' s' hQ
  · obtain ⟨a', heq, -⟩ := hx
    cases heq

/-- A fold, by what holds once a prefix of the list is done. -/
theorem solo_foldEach {xs : List α} {acc : β} {body : β → α → Prog C R ε β}
    {I : List α → β → S → Prop} (hI : I [] acc s)
    (hbody : ∀ done x rest, xs = done ++ x :: rest → ∀ acc s', I done acc s' →
      (body acc x).solo respond calm s' fun r s'' => ∃ b, r = .ok b ∧ I (done ++ [x]) b s'') :
    (foldEach xs acc body).solo respond calm s fun r s' => ∃ b, r = .ok b ∧ I xs b s' := by
  suffices h : ∀ rest done acc s, xs = done ++ rest → I done acc s →
      (foldEach rest acc body).solo respond calm s fun r s' => ∃ b, r = .ok b ∧ I xs b s' from
    h xs [] acc s rfl hI
  intro rest
  induction rest with
  | nil =>
    intro done acc s hxs h
    rw [List.append_nil] at hxs
    exact ⟨acc, rfl, hxs ▸ h⟩
  | cons x rest ih =>
    intro done acc s hxs h
    refine solo_seq (hbody done x rest hxs acc s h) fun b s' hb => ?_
    exact ih (done ++ [x]) b s' (by rw [hxs, List.append_assoc]; rfl) hb

/-- A loop, by what holds once a prefix of the list is done. -/
theorem solo_forEach {xs : List α} {body : α → Prog C R ε Unit} {I : List α → S → Prop}
    (hI : I [] s)
    (hbody : ∀ done x rest, xs = done ++ x :: rest → ∀ s', I done s' →
      (body x).solo respond calm s' fun r s'' => ∃ b, r = .ok b ∧ I (done ++ [x]) s'') :
    (forEach xs body).solo respond calm s fun r s' => ∃ b, r = .ok b ∧ I xs s' := by
  suffices h : ∀ rest done s, xs = done ++ rest → I done s →
      (forEach rest body).solo respond calm s fun r s' => ∃ b, r = .ok b ∧ I xs s' from
    h xs [] s rfl hI
  intro rest
  induction rest with
  | nil =>
    intro done s hxs h
    rw [List.append_nil] at hxs
    exact ⟨(), rfl, hxs ▸ h⟩
  | cons x rest ih =>
    intro done s hxs h
    refine solo_seq (hbody done x rest hxs s h) fun _ s' hb => ?_
    exact ih (done ++ [x]) s' (by rw [hxs, List.append_assoc]; rfl) hb

/-- Collecting by a body that leaves the state alone. -/
theorem solo_collect {xs : List α} {body : α → Prog C R ε β}
    (hbody : ∀ x ∈ xs, (body x).solo respond calm s fun r s' => ∃ b, r = .ok b ∧ s' = s) :
    (collect xs body).solo respond calm s fun r s' => ∃ ys, r = .ok ys ∧ s' = s := by
  induction xs with
  | nil => exact ⟨[], rfl, rfl⟩
  | cons x xs ih =>
    refine solo_seq (hbody x (by simp)) fun y s' hy => ?_
    subst hy
    refine solo_seq (ih fun z hz => hbody z (by simp [hz])) fun ys s'' hys => ?_
    exact ⟨y :: ys, rfl, hys⟩

/-- What every command the program may issue keeps holds at its end, returned or not. -/
theorem solo_of_issues {K : C → Prop} {I : S → Prop} {p : Prog C R ε α} (hp : p.Issues K)
    (hkeep : ∀ c w s, calm w → K c → I s → I (respond c w s).2) (hs : I s) :
    p.solo respond calm s fun _ s' => I s' := by
  induction p generalizing s with
  | ok a => exact hs
  | err e => exact hs
  | call c k ih => exact fun w hw => ih _ (hp.2 _) (hkeep c w s hw hp.1 hs)

end Scarab.Interleave.Prog
