import Mathlib

/-!
# Programs that talk to a shared state one atomic command at a time

A program is the tree of commands it may issue, branching on each response. `Prog.wp`
walks that tree and asks every command to be justified by the program's own past.
-/
namespace Scarab.Interleave

/-- A program over commands `C`, where `c : C` is answered by an `R c`. -/
inductive Prog (C : Type) (R : C → Type) (ε α : Type) where
  | ok (a : α)
  | err (e : ε)
  | call (c : C) (k : R c → Prog C R ε α)

/-- One command a program issued and the response it got. -/
abbrev Exchange (C : Type) (R : C → Type) := (c : C) × R c

namespace Prog

variable {C : Type} {R : C → Type} {ε α β : Type}

def bind : Prog C R ε α → (α → Prog C R ε β) → Prog C R ε β
  | ok a, f => f a
  | err e, _ => err e
  | call c k, f => call c fun r => (k r).bind f

instance : Monad (Prog C R ε) where
  pure := ok
  bind := bind

/-- Run a program to its result and hand that result on as a value. -/
def attempt : Prog C R ε α → Prog C R ε (Except ε α)
  | ok a => ok (.ok a)
  | err e => ok (.error e)
  | call c k => call c fun r => (k r).attempt

/-- Run the body on each element in order, stopping at the first error. -/
def forEach : List α → (α → Prog C R ε Unit) → Prog C R ε Unit
  | [], _ => ok ()
  | x :: xs, body => (body x).bind fun _ => forEach xs body

/-- Collect the results of the body over a list, in order. -/
def collect : List α → (α → Prog C R ε β) → Prog C R ε (List β)
  | [], _ => ok []
  | x :: xs, body => (body x).bind fun y => (collect xs body).bind fun ys => ok (y :: ys)

/-- Thread an accumulator through the body over a list, in order. -/
def foldEach : List α → β → (β → α → Prog C R ε β) → Prog C R ε β
  | [], acc, _ => ok acc
  | x :: xs, acc, body => (body acc x).bind fun acc' => foldEach xs acc' body

@[simp] theorem pure_eq (a : α) : (pure a : Prog C R ε α) = ok a := rfl

@[simp] theorem bind_eq (p : Prog C R ε α) (f : α → Prog C R ε β) : (p >>= f) = p.bind f := rfl

@[simp] theorem map_eq (f : α → β) (p : Prog C R ε α) : f <$> p = p.bind fun a => ok (f a) := rfl

@[simp] theorem bind_ok (a : α) (f : α → Prog C R ε β) : (ok a).bind f = f a := rfl

@[simp] theorem bind_err (e : ε) (f : α → Prog C R ε β) :
    (err e : Prog C R ε α).bind f = err e := rfl

@[simp] theorem bind_call (c : C) (k : R c → Prog C R ε α) (f : α → Prog C R ε β) :
    (call c k).bind f = call c fun r => (k r).bind f := rfl

variable (J : List (Exchange C R) → C → Prop)

/-- Every command is justified by the exchanges before it, and a result that is returned
meets `Q`. -/
def wp : Prog C R ε α → List (Exchange C R) → (List (Exchange C R) → α → Prop) → Prop
  | ok a, h, Q => Q h a
  | err _, _, _ => True
  | call c k, h, Q => J h c ∧ ∀ r, (k r).wp (⟨c, r⟩ :: h) Q

variable {J} {h : List (Exchange C R)} {Q : List (Exchange C R) → α → Prop}

@[simp] theorem wp_ok (a : α) : (ok a : Prog C R ε α).wp J h Q ↔ Q h a := Iff.rfl

@[simp] theorem wp_err (e : ε) : (err e : Prog C R ε α).wp J h Q := trivial

@[simp] theorem wp_call (c : C) (k : R c → Prog C R ε α) :
    (call c k).wp J h Q ↔ J h c ∧ ∀ r, (k r).wp J (⟨c, r⟩ :: h) Q := Iff.rfl

theorem wp_mono {p : Prog C R ε α} {Q' : List (Exchange C R) → α → Prop} (hp : p.wp J h Q)
    (hQ : ∀ h' a, h <:+ h' → Q h' a → Q' h' a) : p.wp J h Q' := by
  induction p generalizing h with
  | ok a => exact hQ h _ List.suffix_rfl hp
  | err e => trivial
  | call c k ih =>
    refine ⟨hp.1, fun r => ih r (hp.2 r) fun h' a hh ha => hQ h' a ?_ ha⟩
    exact (List.suffix_cons _ _).trans hh

theorem wp_bind {p : Prog C R ε α} {f : α → Prog C R ε β} {G : List (Exchange C R) → β → Prop}
    (hp : p.wp J h Q) (hf : ∀ h' a, h <:+ h' → Q h' a → (f a).wp J h' G) :
    (p.bind f).wp J h G := by
  induction p generalizing h with
  | ok a => exact hf h a List.suffix_rfl hp
  | err e => trivial
  | call c k ih =>
    refine ⟨hp.1, fun r => ih r (hp.2 r) fun h' a hh ha => hf h' a ?_ ha⟩
    exact (List.suffix_cons _ _).trans hh

theorem wp_bind_iff {p : Prog C R ε α} {f : α → Prog C R ε β}
    {G : List (Exchange C R) → β → Prop} :
    (p.bind f).wp J h G ↔ p.wp J h fun h' a => (f a).wp J h' G := by
  induction p generalizing h with
  | ok a => exact Iff.rfl
  | err e => exact Iff.rfl
  | call c k ih => exact and_congr_right fun _ => forall_congr' fun r => ih r

theorem wp_weaken {p : Prog C R ε α} {J' : List (Exchange C R) → C → Prop} (hp : p.wp J h Q)
    (hJ : ∀ h' c, h <:+ h' → J h' c → J' h' c) : p.wp J' h Q := by
  induction p generalizing h with
  | ok a => exact hp
  | err e => trivial
  | call c k ih =>
    refine ⟨hJ h c List.suffix_rfl hp.1, fun r => ih r (hp.2 r) fun h' c' hh => hJ h' c' ?_⟩
    exact (List.suffix_cons _ _).trans hh

theorem wp_of_forall {p : Prog C R ε α} (hJ : ∀ h c, J h c) : p.wp J h fun _ _ => True := by
  induction p generalizing h with
  | ok a => trivial
  | err e => trivial
  | call c k ih => exact ⟨hJ h c, fun r => ih r⟩

theorem wp_and {p : Prog C R ε α} {J' : List (Exchange C R) → C → Prop}
    {Q' : List (Exchange C R) → α → Prop} (hp : p.wp J h Q) (hp' : p.wp J' h Q') :
    p.wp (fun h c => J h c ∧ J' h c) h fun h' a => Q h' a ∧ Q' h' a := by
  induction p generalizing h with
  | ok a => exact ⟨hp, hp'⟩
  | err e => trivial
  | call c k ih => exact ⟨⟨hp.1, hp'.1⟩, fun r => ih r (hp.2 r) (hp'.2 r)⟩

/-- A caught error leaves nothing to rely on. -/
theorem wp_attempt {p : Prog C R ε α} {G : List (Exchange C R) → Except ε α → Prop}
    (hp : p.wp J h Q) (hok : ∀ h' a, h <:+ h' → Q h' a → G h' (.ok a))
    (herr : ∀ h' e, h <:+ h' → G h' (.error e)) : p.attempt.wp J h G := by
  induction p generalizing h with
  | ok a => exact hok h a List.suffix_rfl hp
  | err e => exact herr h e List.suffix_rfl
  | call c k ih =>
    refine ⟨hp.1, fun r => ih r (hp.2 r) (fun h' a hh => hok h' a ?_) fun h' e hh => herr h' e ?_⟩
    · exact (List.suffix_cons _ _).trans hh
    · exact (List.suffix_cons _ _).trans hh

/-- A loop whose body keeps `I` and establishes `P x`, which lasts, for its element. -/
theorem wp_forEach {xs : List α} {body : α → Prog C R ε Unit}
    {P : α → List (Exchange C R) → Prop} {I : List (Exchange C R) → Prop} (hI : I h)
    (hP : ∀ x h₁ h₂, h₁ <:+ h₂ → P x h₁ → P x h₂)
    (hbody : ∀ x ∈ xs, ∀ h', h <:+ h' → I h' → (body x).wp J h' fun h'' _ => I h'' ∧ P x h'') :
    (forEach xs body).wp J h fun h' _ => I h' ∧ ∀ x ∈ xs, P x h' := by
  induction xs generalizing h with
  | nil => exact ⟨hI, by simp⟩
  | cons x xs ih =>
    refine wp_bind (hbody x (by simp) h List.suffix_rfl hI) fun h' _ hh hx => ?_
    refine wp_mono (ih hx.1 fun y hy h'' hs => hbody y (by simp [hy]) h'' (hh.trans hs)) ?_
    intro h'' _ hs hxs
    refine ⟨hxs.1, fun y hy => ?_⟩
    rcases List.mem_cons.mp hy with rfl | hy
    · exact hP y h' h'' hs hx.2
    · exact hxs.2 y hy

/-- A loop whose body keeps `I`. -/
theorem wp_forEach_keeps {xs : List α} {body : α → Prog C R ε Unit}
    {I : List (Exchange C R) → Prop} (hI : I h)
    (hbody : ∀ x ∈ xs, ∀ h', h <:+ h' → I h' → (body x).wp J h' fun h'' _ => I h'') :
    (forEach xs body).wp J h fun h' _ => I h' := by
  induction xs generalizing h with
  | nil => exact hI
  | cons x xs ih =>
    refine wp_bind (hbody x (by simp) h List.suffix_rfl hI) fun h' _ hh hx => ?_
    exact ih hx fun y hy h'' hs => hbody y (by simp [hy]) h'' (hh.trans hs)

theorem wp_collect {xs : List α} {body : α → Prog C R ε β}
    {P : α → β → List (Exchange C R) → Prop} (hP : ∀ x y h₁ h₂, h₁ <:+ h₂ → P x y h₁ → P x y h₂)
    (hbody : ∀ x ∈ xs, ∀ h', h <:+ h' → (body x).wp J h' fun h'' y => P x y h'') :
    (collect xs body).wp J h fun h' ys => List.Forall₂ (fun x y => P x y h') xs ys := by
  induction xs generalizing h with
  | nil => exact .nil
  | cons x xs ih =>
    refine wp_bind (hbody x (by simp) h List.suffix_rfl) fun h' y hh hx => ?_
    refine wp_bind (ih fun z hz h'' hs => hbody z (by simp [hz]) h'' (hh.trans hs)) ?_
    exact fun h'' ys hs hys => .cons (hP x y h' h'' hs hx) hys

/-- A fold whose body keeps `I`. -/
theorem wp_foldEach {xs : List α} {acc : β} {body : β → α → Prog C R ε β}
    {I : List (Exchange C R) → β → Prop} (hI : I h acc)
    (hbody : ∀ acc, ∀ x ∈ xs, ∀ h', h <:+ h' → I h' acc → (body acc x).wp J h' I) :
    (foldEach xs acc body).wp J h I := by
  induction xs generalizing h acc with
  | nil => exact hI
  | cons x xs ih =>
    refine wp_bind (hbody acc x (by simp) h List.suffix_rfl hI) fun h' acc' hh hx => ?_
    exact ih hx fun acc y hy h'' hs => hbody acc y (by simp [hy]) h'' (hh.trans hs)

section issues

variable {K : C → Prop}

/-- Every command the program may issue is one of `K`. -/
def Issues (K : C → Prop) : Prog C R ε α → Prop
  | ok _ => True
  | err _ => True
  | call c k => K c ∧ ∀ r, (k r).Issues K

/-- The commands since `h` were all of `K`. -/
def Since (K : C → Prop) (h h' : List (Exchange C R)) : Prop :=
  ∃ newer, h' = newer ++ h ∧ ∀ x ∈ newer, K x.1

theorem Since.refl : Since K h h := ⟨[], rfl, by simp⟩

theorem Since.trans {h₁ h₂ : List (Exchange C R)} (h₁₂ : Since K h₁ h₂) (h₀₁ : Since K h h₁) :
    Since K h h₂ := by
  obtain ⟨new₁, rfl, hnew₁⟩ := h₀₁
  obtain ⟨new₂, rfl, hnew₂⟩ := h₁₂
  refine ⟨new₂ ++ new₁, by simp, fun x hx => ?_⟩
  rcases List.mem_append.mp hx with hx | hx
  · exact hnew₂ x hx
  · exact hnew₁ x hx

theorem Since.cons {h' : List (Exchange C R)} {x : Exchange C R} (hs : Since K h h')
    (hx : K x.1) : Since K h (x :: h') := by
  obtain ⟨newer, rfl, hnew⟩ := hs
  refine ⟨x :: newer, rfl, fun y hy => ?_⟩
  rcases List.mem_cons.mp hy with rfl | hy
  · exact hx
  · exact hnew y hy

theorem Since.suffix {h' : List (Exchange C R)} (hs : Since K h h') : h <:+ h' := by
  obtain ⟨newer, rfl, -⟩ := hs
  exact List.suffix_append _ _

theorem Since.mono {K' : C → Prop} {h' : List (Exchange C R)} (hs : Since K h h')
    (hK : ∀ c, K c → K' c) : Since K' h h' := by
  obtain ⟨newer, rfl, hnew⟩ := hs
  exact ⟨newer, rfl, fun x hx => hK _ (hnew x hx)⟩

/-- An exchange since `h` is one of `K`. -/
theorem Since.mem {h' : List (Exchange C R)} {x : Exchange C R} (hs : Since K h h')
    (hx : x ∈ h') : x ∈ h ∨ K x.1 := by
  obtain ⟨newer, rfl, hnew⟩ := hs
  rcases List.mem_append.mp hx with hx | hx
  · exact .inr (hnew x hx)
  · exact .inl hx

@[simp] theorem issues_ok (a : α) : (ok a : Prog C R ε α).Issues K := trivial

@[simp] theorem issues_err (e : ε) : (err e : Prog C R ε α).Issues K := trivial

@[simp] theorem issues_call (c : C) (k : R c → Prog C R ε α) :
    (call c k).Issues K ↔ K c ∧ ∀ r, (k r).Issues K := Iff.rfl

theorem Issues.bind {p : Prog C R ε α} {f : α → Prog C R ε β} (hp : p.Issues K)
    (hf : ∀ a, (f a).Issues K) : (p.bind f).Issues K := by
  induction p with
  | ok a => exact hf a
  | err e => trivial
  | call c k ih => exact ⟨hp.1, fun r => ih r (hp.2 r)⟩

theorem Issues.attempt {p : Prog C R ε α} (hp : p.Issues K) : p.attempt.Issues K := by
  induction p with
  | ok a => trivial
  | err e => trivial
  | call c k ih => exact ⟨hp.1, fun r => ih r (hp.2 r)⟩

theorem Issues.forEach {xs : List α} {body : α → Prog C R ε Unit}
    (hbody : ∀ x ∈ xs, (body x).Issues K) : (Prog.forEach xs body).Issues K := by
  induction xs with
  | nil => trivial
  | cons x xs ih =>
    refine (hbody x (by simp)).bind fun _ => ih fun y hy => hbody y (by simp [hy])

theorem Issues.collect {xs : List α} {body : α → Prog C R ε β}
    (hbody : ∀ x ∈ xs, (body x).Issues K) : (Prog.collect xs body).Issues K := by
  induction xs with
  | nil => trivial
  | cons x xs ih =>
    refine (hbody x (by simp)).bind fun _ => (ih fun y hy => hbody y (by simp [hy])).bind ?_
    simp

theorem Issues.foldEach {xs : List α} {acc : β} {body : β → α → Prog C R ε β}
    (hbody : ∀ acc, ∀ x ∈ xs, (body acc x).Issues K) : (Prog.foldEach xs acc body).Issues K := by
  induction xs generalizing acc with
  | nil => trivial
  | cons x xs ih =>
    exact (hbody acc x (by simp)).bind fun acc' => ih fun acc y hy => hbody acc y (by simp [hy])

theorem Issues.mono {K' : C → Prop} {p : Prog C R ε α} (hp : p.Issues K)
    (hK : ∀ c, K c → K' c) : p.Issues K' := by
  induction p with
  | ok a => trivial
  | err e => trivial
  | call c k ih => exact ⟨hK c hp.1, fun r => ih r (hp.2 r)⟩

/-- What a program may issue is justified when commands of its kind are, after any others of
that kind. -/
theorem Issues.wp {p : Prog C R ε α} (hp : p.Issues K)
    (hJ : ∀ h' c, Since K h h' → K c → J h' c) : p.wp J h fun h' _ => Since K h h' := by
  suffices hgen : ∀ h', Since K h h' → p.wp J h' fun h' _ => Since K h h' from
    hgen h Since.refl
  induction p with
  | ok a => exact fun h' hs => hs
  | err e => exact fun _ _ => trivial
  | call c k ih =>
    intro h' hs
    exact ⟨hJ h' c hs hp.1, fun r => ih r (hp.2 r) _ (hs.cons hp.1)⟩

theorem issues_of_wp {p : Prog C R ε α} (hw : p.wp J h Q) (hK : ∀ h c, J h c → K c) :
    p.Issues K := by
  induction p generalizing h with
  | ok a => trivial
  | err e => trivial
  | call c k ih => exact ⟨hK h c hw.1, fun r => ih r (hw.2 r)⟩

/-- What a program may issue is true of all it has exchanged. -/
theorem Issues.track {p : Prog C R ε α} (hp : p.Issues K) (hw : p.wp J h Q) :
    p.wp J h fun h' a => Q h' a ∧ Since K h h' :=
  wp_weaken (wp_and hw (hp.wp (J := fun _ _ => True) fun _ _ _ _ => trivial))
    fun _ _ _ hJ => hJ.1

end issues

section answered

variable (ans : (c : C) → R c)

/-- Run a program against fixed answers. -/
def eval : Prog C R ε α → Except ε α
  | ok a => .ok a
  | err e => .error e
  | call c k => (k (ans c)).eval

@[simp] theorem eval_ok (a : α) : (ok a : Prog C R ε α).eval ans = .ok a := rfl

@[simp] theorem eval_err (e : ε) : (err e : Prog C R ε α).eval ans = .error e := rfl

@[simp] theorem eval_call (c : C) (k : R c → Prog C R ε α) :
    (call c k).eval ans = (k (ans c)).eval ans := rfl

theorem eval_bind {p : Prog C R ε α} {f : α → Prog C R ε β} {a : α} (hp : p.eval ans = .ok a) :
    (p.bind f).eval ans = (f a).eval ans := by
  induction p with
  | ok b =>
    obtain rfl := Except.ok.inj hp
    rfl
  | err e => cases hp
  | call c k ih => exact ih _ hp

theorem eval_collect {xs : List α} {body : α → Prog C R ε β} {g : α → β}
    (hbody : ∀ x ∈ xs, (body x).eval ans = .ok (g x)) :
    (collect xs body).eval ans = .ok (xs.map g) := by
  induction xs with
  | nil => rfl
  | cons x xs ih =>
    rw [collect, eval_bind ans (hbody x (by simp)),
      eval_bind ans (ih fun y hy => hbody y (by simp [hy]))]
    rfl

end answered

end Prog
end Scarab.Interleave
