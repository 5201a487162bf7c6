import Scarab.TextBasics

/-!
# Evaluating CEL

The tree a CEL parser builds and the values it evaluates to. The crate that parses, expands macros
and evaluates is a parameter: `Crate.Meaning` holds the rules of the language an evaluator follows,
as far as checking and evaluating rules rest on them.
-/
namespace Scarab.Cel

inductive Literal where
  | bool (b : Bool)
  | bytes (bs : List (Fin 256))
  | double (shown : Text)
  | int (z : ℤ)
  | null
  | string (s : Text)
  | uint (n : ℕ)
deriving DecidableEq

/-- The functions of a call: the operators, the functions of the policy subset and the others. -/
inductive Func where
  | and
  | or
  | not
  | conditional
  | equals
  | notEquals
  | less
  | lessEquals
  | greater
  | greaterEquals
  | isIn
  | size
  | startsWith
  | endsWith
  | contains
  | matches
  | timestamp
  | duration
  | other (name : Text)
deriving DecidableEq

inductive EntryKind where
  | pair
  | optional
  | structField
deriving DecidableEq

inductive Expr where
  | literal (l : Literal)
  | ident (name : Text)
  | select (operand : Expr) (field : Text) (test : Bool)
  | call (func : Func) (target : Option Expr) (args : List Expr)
  | list (elements : List Expr) (optionalIndices : List ℕ)
  | map (entries : List (Expr × Expr × EntryKind))
  | comprehension (iterRange : Expr) (iterVar : Text) (iterVar2 : Option Text)
      (accuInit loopCond loopStep result : Expr)
  | struct (typeName : Text)
  | unspecified

inductive Key where
  | int (z : ℤ)
  | uint (n : ℕ)
  | bool (b : Bool)
  | string (s : Text)
deriving DecidableEq

inductive Value where
  | null
  | bool (b : Bool)
  | int (z : ℤ)
  | uint (n : ℕ)
  | double (shown : Text)
  | string (s : Text)
  | bytes (bs : List (Fin 256))
  | timestamp (nanos : ℤ)
  | duration (nanos : ℤ)
  | list (items : List Value)
  | map (entries : List (Key × Value))

def Literal.value : Literal → Value
  | .bool b => .bool b
  | .bytes bs => .bytes bs
  | .double s => .double s
  | .int z => .int z
  | .null => .null
  | .string s => .string s
  | .uint n => .uint n

def Key.value : Key → Value
  | .int z => .int z
  | .uint n => .uint n
  | .bool b => .bool b
  | .string s => .string s

def Value.asKey : Value → Option Key
  | .int z => some (.int z)
  | .uint n => some (.uint n)
  | .bool b => some (.bool b)
  | .string s => some (.string s)
  | _ => none

@[simp] theorem Key.asKey_value (k : Key) : k.value.asKey = some k := by cases k <;> rfl

theorem Value.asKey_eq_some {v : Value} {k : Key} (h : v.asKey = some k) : k.value = v := by
  cases v <;> simp only [Value.asKey, Option.some.injEq, reduceCtorEq] at h <;> subst h <;> rfl

/-- The entry of a map under `k`. -/
def entryOf (k : Key) : List (Key × Value) → Option Value
  | [] => none
  | e :: es => if e.1 = k then some e.2 else entryOf k es

/-- `HashMap::insert`. -/
def insertEntry (k : Key) (v : Value) (es : List (Key × Value)) : List (Key × Value) :=
  (k, v) :: es.filter fun e => e.1 ≠ k

theorem entryOf_mem {k : Key} {v : Value} {es : List (Key × Value)} (h : entryOf k es = some v) :
    (k, v) ∈ es := by
  induction es with
  | nil => cases h
  | cons e es ih =>
    simp only [entryOf] at h
    split_ifs at h with he
    · obtain rfl := Option.some.inj h
      simp [← he]
    · exact List.mem_cons_of_mem _ (ih h)

theorem mem_insertEntry {k : Key} {v : Value} {es : List (Key × Value)} {e : Key × Value}
    (h : e ∈ insertEntry k v es) : e = (k, v) ∨ e ∈ es := by
  simp only [insertEntry, List.mem_cons, List.mem_filter] at h
  exact h.imp id And.left

@[simp] theorem entryOf_insertEntry_self {k : Key} {v : Value} {es : List (Key × Value)} :
    entryOf k (insertEntry k v es) = some v := by
  simp [insertEntry, entryOf]

theorem entryOf_insertEntry_of_ne {k k' : Key} {v : Value} {es : List (Key × Value)}
    (h : k' ≠ k) : entryOf k' (insertEntry k v es) = entryOf k' es := by
  rw [insertEntry, entryOf, if_neg h.symm]
  induction es with
  | nil => rfl
  | cons e es ih =>
    by_cases he : e.1 = k
    · rw [List.filter_cons_of_neg (by simpa using he), ih, entryOf, if_neg (he ▸ h.symm)]
    · rw [List.filter_cons_of_pos (by simpa using he), entryOf, entryOf, ih]

abbrev Outcome := Except Text Value

/-- The variables of a context, the innermost first. -/
abbrev Context := List (Text × Value)

/-- A function on a receiver and arguments. -/
abbrev Function := Option Value → List Value → Outcome

/-- The functions a program declares on its context. -/
abbrev Functions := List (Text × Function)

inductive Logic where
  | and
  | or
deriving DecidableEq

/-- The value of the left side that decides. -/
def Logic.decides : Logic → Bool
  | .and => false
  | .or => true

def Logic.func : Logic → Func
  | .and => .and
  | .or => .or

/-- The standard macros, by the accumulator their expansion starts from. -/
inductive MacroKind where
  | exists
  | all
  | existsOne
  | mapOrFilter
deriving DecidableEq

def MacroKind.of : Expr → Option MacroKind
  | .literal (.bool b) => some (if b then .all else .exists)
  | .literal (.int _) => some .existsOne
  | .list _ _ => some .mapOrFilter
  | _ => none

/-- The predicate the author wrote, out of the expansion's loop step. -/
def MacroKind.predicate : MacroKind → Expr → Option Expr
  | .exists, .call .or _ (_ :: p :: _) => some p
  | .all, .call .and _ (_ :: p :: _) => some p
  | .existsOne, .call .conditional _ (p :: _) => some p
  | _, _ => none

/-- What a macro says of the outcomes of its test. -/
def MacroKind.holds : MacroKind → List Bool → Bool
  | .exists, bs => bs.any id
  | .all, bs => bs.all id
  | .existsOne, bs => bs.count true = 1
  | .mapOrFilter, _ => false

theorem MacroKind.predicate_ne {kind : MacroKind} {step p : Expr}
    (h : kind.predicate step = some p) : kind ≠ .mapOrFilter := by
  rintro rfl
  cases h

/-- The value at a field. -/
def fieldIn (f : Text) : Value → Option Value
  | .map m => entryOf (.string f) m
  | _ => none

/-- The crate: its parser, what its parser makes of a macro call, its operators and functions, and
its evaluator. -/
structure Crate where
  compile : Text → Option Expr
  expand : MacroKind → Expr → Text → Expr → Expr
  apply : Func → Function
  resolve : Functions → Context → Expr → Outcome

/-- Each expression evaluates to its value. -/
def Crate.Resolves (C : Crate) (D : Functions) (ρ : Context) : List Expr → List Value → Prop :=
  List.Forall₂ fun e v => C.resolve D ρ e = .ok v

/-- Functions whose call evaluates its receiver and its arguments and applies the crate's own. -/
def strict : Func → Bool
  | .and | .or | .conditional | .matches | .other _ => false
  | _ => true

/-- The rules of CEL an evaluator follows. What a tree that fails leaves is not said, nor is an
order between the sides of `&&` and `||`: an outcome that is no value of theirs may be absorbed by
the other side. -/
structure Crate.Meaning (C : Crate) : Prop where
  literal : ∀ {D ρ} l, C.resolve D ρ (.literal l) = .ok l.value
  ident : ∀ {D ρ x v}, C.resolve D ρ (.ident x) = .ok v ↔ ρ.lookup x = some v
  select : ∀ {D ρ o f v}, C.resolve D ρ (.select o f false) = .ok v ↔
    ∃ m, C.resolve D ρ o = .ok (.map m) ∧ entryOf (.string f) m = some v
  has_ok : ∀ {D ρ o f v}, C.resolve D ρ (.select o f true) = .ok v →
    ∃ u, C.resolve D ρ o = .ok u ∧ v = .bool (fieldIn f u).isSome
  has_map : ∀ {D ρ o f m}, C.resolve D ρ o = .ok (.map m) →
    C.resolve D ρ (.select o f true) = .ok (.bool (entryOf (.string f) m).isSome)
  logical_ok : ∀ {D ρ a b v} (op : Logic), C.resolve D ρ (.call op.func none [a, b]) = .ok v →
    v = .bool op.decides ∨ C.resolve D ρ a = .ok (.bool !op.decides) ∧
      C.resolve D ρ b = .ok (.bool !op.decides) ∧ v = .bool !op.decides
  decides : ∀ {D ρ a b} (op : Logic), C.resolve D ρ a = .ok (.bool op.decides) →
    C.resolve D ρ (.call op.func none [a, b]) = .ok (.bool op.decides)
  passes : ∀ {D ρ a b x} (op : Logic), C.resolve D ρ a = .ok (.bool !op.decides) →
    C.resolve D ρ b = .ok (.bool x) →
    C.resolve D ρ (.call op.func none [a, b]) = .ok (.bool x)
  conditional : ∀ {D ρ c a b v}, C.resolve D ρ (.call .conditional none [c, a, b]) = .ok v ↔
    C.resolve D ρ c = .ok (.bool true) ∧ C.resolve D ρ a = .ok v ∨
      C.resolve D ρ c = .ok (.bool false) ∧ C.resolve D ρ b = .ok v
  call : ∀ {D ρ f args v}, strict f = true → (C.resolve D ρ (.call f none args) = .ok v ↔
    ∃ vs, C.Resolves D ρ args vs ∧ C.apply f none vs = .ok v)
  method : ∀ {D ρ f x args v}, strict f = true →
    (C.resolve D ρ (.call f (some x) args) = .ok v ↔
      ∃ u vs, C.resolve D ρ x = .ok u ∧ C.Resolves D ρ args vs ∧ C.apply f (some u) vs = .ok v)
  declared : ∀ {D ρ name g x args v}, D.lookup name = some g →
    (C.resolve D ρ (.call (.other name) (some x) args) = .ok v ↔
      ∃ u vs, C.resolve D ρ x = .ok u ∧ C.Resolves D ρ args vs ∧ g (some u) vs = .ok v)
  list : ∀ {D ρ es v}, C.resolve D ρ (.list es []) = .ok v ↔
    ∃ vs, C.Resolves D ρ es vs ∧ v = .list vs
  map_ok : ∀ {D ρ es v}, (∀ e ∈ es, e.2.2 = .pair) → C.resolve D ρ (.map es) = .ok v →
    ∃ m, v = .map m ∧ ∀ entry ∈ m, ∃ e ∈ es,
      C.resolve D ρ e.1 = .ok entry.1.value ∧ C.resolve D ρ e.2.1 = .ok entry.2
  loop_bool : ∀ {D ρ kind range var p v}, kind ≠ .mapOrFilter →
    C.resolve D ρ (C.expand kind range var p) = .ok v → ∃ b, v = .bool b
  loop : ∀ {D ρ kind range var p vs} (test : Value → Bool), kind ≠ .mapOrFilter →
    C.resolve D ρ range = .ok (.list vs) →
    (∀ u ∈ vs, C.resolve D ((var, u) :: ρ) p = .ok (.bool (test u))) →
    C.resolve D ρ (C.expand kind range var p) = .ok (.bool (kind.holds (vs.map test)))

mutual

/-- The expressions an expression is built of, itself included. -/
def nodes : Expr → List Expr
  | .select o f test => .select o f test :: nodes o
  | .call f target args => .call f target args :: (nodesTarget target ++ nodesAll args)
  | .list es optionals => .list es optionals :: nodesAll es
  | .map es => .map es :: nodesEntries es
  | .comprehension range var var2 init cond step result =>
      .comprehension range var var2 init cond step result ::
        (nodes range ++ nodes init ++ nodes cond ++ nodes step ++ nodes result)
  | e => [e]

def nodesTarget : Option Expr → List Expr
  | none => []
  | some e => nodes e

def nodesAll : List Expr → List Expr
  | [] => []
  | e :: es => nodes e ++ nodesAll es

def nodesEntries : List (Expr × Expr × EntryKind) → List Expr
  | [] => []
  | (k, v, _) :: es => nodes k ++ nodes v ++ nodesEntries es

end

/-- `P` holds of every node of the expression. -/
def Every (P : Expr → Prop) (e : Expr) : Prop := ∀ n ∈ nodes e, P n

def EveryOf (P : Expr → Prop) (es : List Expr) : Prop := ∀ n ∈ nodesAll es, P n

section Every

variable {P : Expr → Prop}

theorem Every.self {e : Expr} (h : Every P e) : P e := by
  cases e <;> exact h _ (by simp [nodes])

theorem Every.operand {o : Expr} {f : Text} {test : Bool} (h : Every P (.select o f test)) :
    Every P o :=
  fun n hn => h n (by simp [nodes, hn])

theorem Every.target {f : Func} {x : Expr} {args : List Expr} (h : Every P (.call f (some x) args)) :
    Every P x :=
  fun n hn => h n (by simp [nodes, nodesTarget, hn])

theorem Every.args {f : Func} {t : Option Expr} {args : List Expr} (h : Every P (.call f t args)) :
    EveryOf P args :=
  fun n hn => h n (by simp [nodes, hn])

theorem Every.elements {es : List Expr} {optionals : List ℕ} (h : Every P (.list es optionals)) :
    EveryOf P es :=
  fun n hn => h n (by simp [nodes, hn])

theorem Every.range {range init cond step result : Expr} {var : Text} {var2 : Option Text}
    (h : Every P (.comprehension range var var2 init cond step result)) : Every P range :=
  fun n hn => h n (by simp [nodes, hn])

theorem Every.step {range init cond step result : Expr} {var : Text} {var2 : Option Text}
    (h : Every P (.comprehension range var var2 init cond step result)) : Every P step :=
  fun n hn => h n (by simp [nodes, hn])

theorem EveryOf.head {e : Expr} {es : List Expr} (h : EveryOf P (e :: es)) : Every P e :=
  fun n hn => h n (by simp [nodesAll, hn])

theorem EveryOf.tail {e : Expr} {es : List Expr} (h : EveryOf P (e :: es)) : EveryOf P es :=
  fun n hn => h n (by simp [nodesAll, hn])

theorem EveryOf.mem {es : List Expr} (h : EveryOf P es) : ∀ e ∈ es, Every P e := by
  induction es with
  | nil => simp
  | cons e es ih =>
    intro x hx
    rcases List.mem_cons.mp hx with rfl | hx
    · exact h.head
    · exact ih h.tail x hx

theorem Every.predicate {range init cond step result p : Expr} {var : Text} {var2 : Option Text}
    {kind : MacroKind} (h : Every P (.comprehension range var var2 init cond step result))
    (hp : kind.predicate step = some p) : Every P p := by
  unfold MacroKind.predicate at hp
  split at hp
  · obtain rfl := Option.some.inj hp
    exact h.step.args.tail.head
  · obtain rfl := Option.some.inj hp
    exact h.step.args.tail.head
  · obtain rfl := Option.some.inj hp
    exact h.step.args.head
  · cases hp

end Every

/-- A comprehension whose test the expansions of `kind` carry is what the parser makes of a call of
that macro. -/
def Crate.Expanded (C : Crate) : Expr → Prop
  | .comprehension range var none init cond step result =>
      ∀ kind p, MacroKind.of init = some kind → kind.predicate step = some p →
        C.expand kind range var p = .comprehension range var none init cond step result
  | _ => True

end Scarab.Cel
