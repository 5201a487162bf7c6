import Scarab.CelEvaluation

/-!
# A reference evaluator of CEL

A direct evaluator over given operators, which follows the rules of the language.
-/
namespace Scarab.Cel

/-- The accumulator of an expansion. -/
def accu : Expr := .ident "@result".toList

/-- The expansions of the macros that test. -/
def standardMacro (kind : MacroKind) (range : Expr) (var : Text) (p : Expr) : Expr :=
  match kind with
  | .exists => .comprehension range var none (.literal (.bool false))
      (.call (.other "@not_strictly_false".toList) none [.call .not none [accu]])
      (.call .or none [accu, p]) accu
  | .all => .comprehension range var none (.literal (.bool true))
      (.call (.other "@not_strictly_false".toList) none [accu])
      (.call .and none [accu, p]) accu
  | .existsOne => .comprehension range var none (.literal (.int 0)) (.literal (.bool true))
      (.call .conditional none [p, .call (.other "_+_".toList) none [accu, .literal (.int 1)], accu])
      (.call .equals none [accu, .literal (.int 1)])
  | .mapOrFilter => .unspecified

def failed {α : Type} (why : String) : Except Text α := .error why.toList

def boolOf : Value → Except Text Bool
  | .bool b => .ok b
  | _ => failed "not a bool"

def fieldOutcome (field : Text) (test : Bool) (v : Value) : Outcome :=
  if test then .ok (.bool (fieldIn field v).isSome)
  else match fieldIn field v with
    | some u => .ok u
    | none => failed "no such key"

def logicalOutcome (op : Logic) (left : Value) (right : Outcome) : Outcome := do
  if (← boolOf left) = op.decides then pure (.bool op.decides)
  else pure (.bool (← boolOf (← right)))

def applied (A : Func → Function) (D : Functions) : Func → Function
  | .other name => (D.lookup name).getD (A (.other name))
  | f => A f

/-- The outcomes of a macro's test, all of them bools. -/
def boolsOf : List Outcome → Except Text (List Bool)
  | [] => pure []
  | o :: os => do
      let b ← boolOf (← o)
      pure (b :: (← boolsOf os))

def loopOutcome (kind : Option MacroKind) (test : Value → Outcome) (range : Value) : Outcome :=
  match kind, range with
  | some kind, .list vs => (boolsOf (vs.map test)).map fun bs => .bool (kind.holds bs)
  | _, _ => failed "not a list"

mutual

def eval (A : Func → Function) (D : Functions) : Context → Expr → Outcome
  | _, .literal l => .ok l.value
  | ρ, .ident x => (ρ.lookup x).elim (failed "undeclared") .ok
  | ρ, .select o f test => do fieldOutcome f test (← eval A D ρ o)
  | ρ, .call .and none [a, b] => do logicalOutcome .and (← eval A D ρ a) (eval A D ρ b)
  | ρ, .call .or none [a, b] => do logicalOutcome .or (← eval A D ρ a) (eval A D ρ b)
  | ρ, .call .conditional none [c, a, b] => do
      if ← boolOf (← eval A D ρ c) then eval A D ρ a else eval A D ρ b
  | ρ, .call f target args => do
      applied A D f (← evalTarget A D ρ target) (← evalAll A D ρ args)
  | ρ, .list es _ => (evalAll A D ρ es).map .list
  | ρ, .map es => (evalEntries A D ρ es []).map .map
  | ρ, .comprehension range var _ init _ step _ => do
      loopOutcome (MacroKind.of init) (fun v => evalStep A D ((var, v) :: ρ) step)
        (← eval A D ρ range)
  | _, _ => failed "unsupported"

/-- The test of a loop step. -/
def evalStep (A : Func → Function) (D : Functions) : Context → Expr → Outcome
  | ρ, .call .or _ (_ :: p :: _) => eval A D ρ p
  | ρ, .call .and _ (_ :: p :: _) => eval A D ρ p
  | ρ, .call .conditional _ (p :: _) => eval A D ρ p
  | _, _ => failed "unsupported"

def evalTarget (A : Func → Function) (D : Functions) :
    Context → Option Expr → Except Text (Option Value)
  | _, none => .ok none
  | ρ, some e => (eval A D ρ e).map some

def evalAll (A : Func → Function) (D : Functions) : Context → List Expr → Except Text (List Value)
  | _, [] => .ok []
  | ρ, e :: es => do
      let v ← eval A D ρ e
      pure (v :: (← evalAll A D ρ es))

/-- The entries of a map literal, inserted in order. -/
def evalEntries (A : Func → Function) (D : Functions) :
    Context → List (Expr × Expr × EntryKind) → List (Key × Value) →
      Except Text (List (Key × Value))
  | _, [], m => .ok m
  | ρ, (k, v, _) :: es, m => do
      let key ← eval A D ρ k
      let value ← eval A D ρ v
      match key.asKey with
      | some key => evalEntries A D ρ es (insertEntry key value m)
      | none => failed "not a key"

end

def reference (compile : Text → Option Expr) (A : Func → Function) : Crate where
  compile := compile
  expand := standardMacro
  apply := A
  resolve := eval A

section Reference

variable {A : Func → Function} {D : Functions} {ρ : Context}

theorem bind_eq_ok {α β : Type} {x : Except Text α} {f : α → Except Text β} {b : β} :
    x >>= f = .ok b ↔ ∃ a, x = .ok a ∧ f a = .ok b := by
  cases x with
  | error e =>
    change Except.error e = .ok b ↔ _
    simp
  | ok a =>
    change f a = .ok b ↔ _
    simp

theorem map_eq_ok {α β : Type} {x : Except Text α} {f : α → β} {b : β} :
    x.map f = .ok b ↔ ∃ a, x = .ok a ∧ f a = b := by
  cases x <;> simp [Except.map]

theorem boolOf_eq_ok {v : Value} {b : Bool} : boolOf v = .ok b ↔ v = .bool b := by
  cases v <;> simp [boolOf, failed]

theorem fieldOutcome_eq_ok {f : Text} {u v : Value} :
    fieldOutcome f false u = .ok v ↔ ∃ m, u = .map m ∧ entryOf (.string f) m = some v := by
  rw [fieldOutcome, if_neg Bool.false_ne_true]
  cases u with
  | map m => cases h : entryOf (.string f) m <;> simp [fieldIn, h, failed]
  | _ => simp [fieldIn, failed]

theorem logicalOutcome_eq_ok {op : Logic} {u v : Value} {r : Outcome} :
    logicalOutcome op u r = .ok v ↔ u = .bool op.decides ∧ v = .bool op.decides ∨
      u = .bool (!op.decides) ∧ ∃ b, r = .ok (.bool b) ∧ v = .bool b := by
  simp only [logicalOutcome, bind_eq_ok, boolOf_eq_ok]
  constructor
  · rintro ⟨b, rfl, h⟩
    split_ifs at h with hb
    · exact .inl ⟨by rw [hb], (Except.ok.inj h).symm⟩
    · obtain ⟨w, hw, h⟩ := bind_eq_ok.mp h
      obtain ⟨c, hc, h⟩ := bind_eq_ok.mp h
      obtain rfl := boolOf_eq_ok.mp hc
      refine .inr ⟨?_, c, hw, (Except.ok.inj h).symm⟩
      cases b <;> cases hd : op.decides <;> simp_all
  · rintro (⟨rfl, rfl⟩ | ⟨rfl, b, rfl, rfl⟩)
    · exact ⟨_, rfl, if_pos rfl⟩
    · exact ⟨_, rfl, by cases hd : op.decides <;> rfl⟩

theorem evalAll_eq_ok {es : List Expr} : ∀ {vs : List Value}, evalAll A D ρ es = .ok vs ↔
    List.Forall₂ (fun e v => eval A D ρ e = .ok v) es vs := by
  induction es with
  | nil => intro vs; simp [evalAll, eq_comm]
  | cons e es ih =>
    intro vs
    simp only [evalAll, bind_eq_ok, List.forall₂_cons_left_iff]
    constructor
    · rintro ⟨v, hv, us, hus, h⟩
      exact ⟨v, us, hv, ih.mp hus, (Except.ok.inj h).symm⟩
    · rintro ⟨v, us, hv, hus, rfl⟩
      exact ⟨v, hv, us, ih.mpr hus, rfl⟩

/-- The entries a map literal adds are of its pairs. -/
theorem evalEntries_mem {es : List (Expr × Expr × EntryKind)} :
    ∀ {m m' : List (Key × Value)}, evalEntries A D ρ es m = .ok m' → ∀ entry ∈ m', entry ∈ m ∨
      ∃ e ∈ es, eval A D ρ e.1 = .ok entry.1.value ∧ eval A D ρ e.2.1 = .ok entry.2 := by
  induction es with
  | nil =>
    intro m m' h entry he
    obtain rfl := Except.ok.inj h
    exact .inl he
  | cons e es ih =>
    intro m m' h entry he
    obtain ⟨key, hkey, h⟩ := bind_eq_ok.mp h
    obtain ⟨value, hvalue, h⟩ := bind_eq_ok.mp h
    cases hk : key.asKey with
    | none =>
      simp only [hk] at h
      cases h
    | some k =>
      simp only [hk] at h
      rcases ih h entry he with hm | ⟨e', he', hx⟩
      · rcases mem_insertEntry hm with rfl | hm
        · exact .inr ⟨e, List.mem_cons_self, by rw [hkey, Value.asKey_eq_some hk], hvalue⟩
        · exact .inl hm
      · exact .inr ⟨e', List.mem_cons_of_mem _ he', hx⟩

theorem boolsOf_ok {vs : List Value} {test : Value → Outcome} {holds : Value → Bool}
    (h : ∀ u ∈ vs, test u = .ok (.bool (holds u))) : boolsOf (vs.map test) = .ok (vs.map holds) := by
  induction vs with
  | nil => rfl
  | cons u us ih =>
    rw [List.map_cons, boolsOf, h u List.mem_cons_self, ih fun w hw => h w (List.mem_cons_of_mem _ hw)]
    rfl

theorem eval_expand {kind : MacroKind} (hk : kind ≠ .mapOrFilter) (range : Expr) (var : Text)
    (p : Expr) : eval A D ρ (standardMacro kind range var p) =
      eval A D ρ range >>= loopOutcome (some kind) fun v => eval A D ((var, v) :: ρ) p := by
  cases kind with
  | mapOrFilter => exact absurd rfl hk
  | _ => rfl

theorem standardMacro_expanded (compile : Text → Option Expr) (A : Func → Function)
    {kind : MacroKind} {range p : Expr} {var : Text} :
    (reference compile A).Expanded (standardMacro kind range var p) := by
  cases kind with
  | mapOrFilter => trivial
  | _ =>
    intro kind' p' hk hp
    obtain rfl := Option.some.inj hk
    obtain rfl := Option.some.inj hp
    rfl

theorem eval_logical (op : Logic) (a b : Expr) : eval A D ρ (.call op.func none [a, b]) =
    eval A D ρ a >>= fun v => logicalOutcome op v (eval A D ρ b) := by
  cases op <;> rfl

theorem eval_call {f : Func} (hf : strict f = true) (args : List Expr) :
    eval A D ρ (.call f none args) = evalAll A D ρ args >>= A f none := by
  cases f <;> first | exact absurd hf Bool.false_ne_true | rfl

theorem eval_method {f : Func} (hf : strict f = true) (x : Expr) (args : List Expr) :
    eval A D ρ (.call f (some x) args) =
      (eval A D ρ x).map some >>= fun u => evalAll A D ρ args >>= A f u := by
  cases f <;> first | exact absurd hf Bool.false_ne_true | rfl

/-- The reference evaluator follows the rules. -/
theorem reference_meaning (compile : Text → Option Expr) (A : Func → Function) :
    (reference compile A).Meaning where
  literal _ := rfl
  ident {D ρ x v} := by
    change (ρ.lookup x).elim (failed "undeclared") .ok = .ok v ↔ _
    cases ρ.lookup x <;> simp [failed]
  select := by
    simp only [reference, eval, bind_eq_ok, fieldOutcome_eq_ok]
    intro D ρ o f v
    constructor
    · rintro ⟨u, hu, m, rfl, hm⟩
      exact ⟨m, hu, hm⟩
    · rintro ⟨m, hu, hm⟩
      exact ⟨_, hu, m, rfl, hm⟩
  has_ok h := by
    obtain ⟨u, hu, h⟩ := bind_eq_ok.mp h
    exact ⟨u, hu, (Except.ok.inj h).symm⟩
  has_map h := bind_eq_ok.mpr ⟨_, h, rfl⟩
  logical_ok {D ρ a b v} op h := by
    obtain ⟨u, hu, h⟩ := bind_eq_ok.mp ((eval_logical op a b).symm.trans h)
    rcases logicalOutcome_eq_ok.mp h with ⟨-, hv⟩ | ⟨rfl, c, hc, rfl⟩
    · exact .inl hv
    · by_cases hd : c = op.decides
      · exact .inl (by rw [hd])
      · obtain rfl : c = !op.decides := by cases c <;> cases he : op.decides <;> simp_all
        exact .inr ⟨hu, hc, rfl⟩
  decides {D ρ a b} op h := (eval_logical op a b).trans
    (bind_eq_ok.mpr ⟨_, h, logicalOutcome_eq_ok.mpr (.inl ⟨rfl, rfl⟩)⟩)
  passes {D ρ a b x} op ha hb := (eval_logical op a b).trans
    (bind_eq_ok.mpr ⟨_, ha, logicalOutcome_eq_ok.mpr (.inr ⟨rfl, x, hb, rfl⟩)⟩)
  conditional {D ρ c a b v} := by
    change (eval A D ρ c >>= fun u => boolOf u >>= fun x =>
      if x then eval A D ρ a else eval A D ρ b) = .ok v ↔ _
    simp only [bind_eq_ok, boolOf_eq_ok]
    constructor
    · rintro ⟨u, hu, x, rfl, h⟩
      cases x
      · exact .inr ⟨hu, h⟩
      · exact .inl ⟨hu, h⟩
    · rintro (⟨hu, h⟩ | ⟨hu, h⟩)
      · exact ⟨_, hu, true, rfl, h⟩
      · exact ⟨_, hu, false, rfl, h⟩
  call {D ρ f args v} hf := by
    change eval A D ρ _ = _ ↔ _
    simp only [eval_call hf, bind_eq_ok, evalAll_eq_ok]
    exact Iff.rfl
  method {D ρ f x args v} hf := by
    change eval A D ρ _ = _ ↔ _
    simp only [eval_method hf, bind_eq_ok, evalAll_eq_ok, map_eq_ok]
    constructor
    · rintro ⟨u, ⟨w, hw, rfl⟩, vs, hvs, h⟩
      exact ⟨w, vs, hw, hvs, h⟩
    · rintro ⟨w, vs, hw, hvs, h⟩
      exact ⟨_, ⟨w, hw, rfl⟩, vs, hvs, h⟩
  declared {D ρ name g x args v} hg := by
    change ((eval A D ρ x).map some >>= fun u => evalAll A D ρ args >>=
      (D.lookup name).getD (A (.other name)) u) = .ok v ↔ _
    simp only [hg, Option.getD_some, bind_eq_ok, evalAll_eq_ok, map_eq_ok]
    constructor
    · rintro ⟨u, ⟨w, hw, rfl⟩, vs, hvs, h⟩
      exact ⟨w, vs, hw, hvs, h⟩
    · rintro ⟨w, vs, hw, hvs, h⟩
      exact ⟨_, ⟨w, hw, rfl⟩, vs, hvs, h⟩
  list {D ρ es v} := by
    change (evalAll A D ρ es).map .list = .ok v ↔ _
    simp only [map_eq_ok, evalAll_eq_ok, @eq_comm _ v]
    exact Iff.rfl
  map_ok {D ρ es v} _ h := by
    obtain ⟨m, hm, rfl⟩ := map_eq_ok.mp h
    exact ⟨m, rfl, fun entry he => (evalEntries_mem hm entry he).resolve_left List.not_mem_nil⟩
  loop_bool {D ρ kind range var p v} hk h := by
    obtain ⟨u, -, h⟩ := bind_eq_ok.mp ((eval_expand hk range var p).symm.trans h)
    cases u with
    | list vs =>
      obtain ⟨bs, -, rfl⟩ := map_eq_ok.mp h
      exact ⟨_, rfl⟩
    | _ => cases h
  loop {D ρ kind range var p vs} test hk hr hp := by
    refine (eval_expand hk range var p).trans (bind_eq_ok.mpr ⟨_, hr, ?_⟩)
    exact map_eq_ok.mpr ⟨_, boolsOf_ok hp, rfl⟩

end Reference

end Scarab.Cel
