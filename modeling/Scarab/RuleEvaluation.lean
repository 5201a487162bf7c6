import Scarab.RuleChecker

/-!
# Evaluating a checked rule

A rule is parsed again and evaluated against the bound input. Each `matches` is routed to the
context's own function, which compiles its pattern as the checker did.
-/
namespace Scarab.PolicyRules

open Scarab.Cel

/-- The name a rule's `matches` is evaluated under. -/
def matchesFn : Text := "@scarab.matches".toList

mutual

/-- Renames every `x.matches(pattern)`. -/
def routeMatches : Expr → Expr
  | .call .matches (some x) [p] =>
      .call (.other matchesFn) (some (routeMatches x)) [routeMatches p]
  | .call f target args => .call f (routeTarget target) (routeAll args)
  | .select o f test => .select (routeMatches o) f test
  | .comprehension range var var2 init cond step result =>
      .comprehension (routeMatches range) var var2 (routeMatches init) (routeMatches cond)
        (routeMatches step) (routeMatches result)
  | .list es optionals => .list (routeAll es) optionals
  | .map es => .map (routeEntries es)
  | e => e

def routeTarget : Option Expr → Option Expr
  | none => none
  | some e => some (routeMatches e)

def routeAll : List Expr → List Expr
  | [] => []
  | e :: es => routeMatches e :: routeAll es

def routeEntries : List (Expr × Expr × EntryKind) → List (Expr × Expr × EntryKind)
  | [] => []
  | (k, v, kind) :: es => (routeMatches k, routeMatches v, kind) :: routeEntries es

end

/-- A rule's `matches` on a receiver and a pattern. -/
def matchesOutcome (host : Host) : Option Value → List Value → Outcome
  | some (.string text), [.string p] =>
      match host.pattern p with
      | .ok re => .ok (.bool (re text))
      | .error e => .error e
  | _, _ => .error "unexpected type".toList

/-- The functions of a rule's context. -/
def ruleFunctions (host : Host) : Functions := [(matchesFn, matchesOutcome host)]

inductive EvalError where
  | limits (f : Finding)
  | notABool
  | failed (e : Text)

/-- Parses a checked `when` again and evaluates it. -/
def evaluateWhen (host : Host) (source : Text) (ρ : Context) : Except EvalError Bool :=
  match checkLimits source, parse host source with
  | .ok (), .ok e =>
      match host.cel.resolve (ruleFunctions host) ρ (routeMatches e) with
      | .ok (.bool b) => .ok b
      | .ok _ => .error .notABool
      | .error e => .error (.failed e)
  | .error f, _ => .error (.limits f)
  | _, .error f => .error (.limits f)

/-- A node of a rule, evaluated. -/
def evaluate (host : Host) (ρ : Context) (e : Expr) : Outcome :=
  host.cel.resolve (ruleFunctions host) ρ (routeMatches e)

/-- Each node evaluates to its value. -/
def Evaluates (host : Host) (ρ : Context) : List Expr → List Value → Prop :=
  List.Forall₂ fun e v => evaluate host ρ e = .ok v

/-- The functions of one string on another. -/
def isTextTest : Func → Bool
  | .startsWith | .endsWith | .contains => true
  | _ => false

def isOrder : Func → Bool
  | .less | .lessEquals | .greater | .greaterEquals => true
  | _ => false

def isEquality : Func → Bool
  | .equals | .notEquals => true
  | _ => false

def isConversion : Func → Bool
  | .timestamp | .duration => true
  | _ => false

def isTestFunc (f : Func) : Bool := isEquality f || isOrder f || isTextTest f || f = .isIn

/-- A double that is not a number. -/
def nan : Text := "NaN".toList

/-- Values of one kind that an ordering compares. -/
def sameOrder : Value → Value → Bool
  | .bool _, .bool _ => true
  | .int _, .int _ => true
  | .uint _, .uint _ => true
  | .double x, .double y => x ≠ nan && y ≠ nan
  | .string _, .string _ => true
  | .bytes _, .bytes _ => true
  | .timestamp _, .timestamp _ => true
  | .duration _, .duration _ => true
  | _, _ => false

def isScalar : Value → Bool
  | .list _ => false
  | .map _ => false
  | _ => true

def hasSize : Value → Bool
  | .string _ | .bytes _ | .list _ | .map _ => true
  | _ => false

/-- What the rules rest on of the crate. Its evaluator follows the language; its parser reads
macro calls as their expansions, numbers as numbers and a rendered conversion as that conversion;
its operators and functions return a value of the type the checker gives their call, and return on
operands of the types it accepts, equality on any two. -/
structure Lawful (host : Host) : Prop where
  meaning : host.cel.Meaning
  expanded : ∀ {source e}, host.cel.compile source = some e → Every host.cel.Expanded e
  routes : ∀ {kind range var p}, routeMatches (host.cel.expand kind range var p) =
    host.cel.expand kind (routeMatches range) var (routeMatches p)
  number : ∀ {source e}, host.cel.compile source = some e → Every (· ≠ .literal (.double nan)) e
  asF64 : ∀ n, host.asF64 n ≠ nan
  rendered : ∀ {f t e}, isConversion f = true → host.cel.compile (probeSource host f t) = some e →
    e = .call f none [.literal (.string t)]
  tests : ∀ {f t vs v}, isTestFunc f = true → host.cel.apply f t vs = .ok v → ∃ b, v = .bool b
  sizes : ∀ {t vs v}, host.cel.apply .size t vs = .ok v → ∃ z, v = .int z
  timestamps : ∀ {t vs v}, host.cel.apply .timestamp t vs = .ok v → ∃ z, v = .timestamp z
  durations : ∀ {t vs v}, host.cel.apply .duration t vs = .ok v → ∃ z, v = .duration z
  negates : ∀ {v w}, host.cel.apply .not none [v] = .ok w → ∃ b, v = .bool b ∧ w = .bool !b
  not_ok : ∀ b, host.cel.apply .not none [.bool b] = .ok (.bool !b)
  equality_ok : ∀ {f}, isEquality f = true → ∀ a b, ∃ v, host.cel.apply f none [a, b] = .ok v
  equals_null : host.cel.apply .equals none [.null, .null] = .ok (.bool true)
  notEquals_null : host.cel.apply .notEquals none [.null, .null] = .ok (.bool false)
  order_ok : ∀ {f a b}, isOrder f = true → sameOrder a b = true →
    ∃ v, host.cel.apply f none [a, b] = .ok v
  inList_ok : ∀ {a} vs, isScalar a = true → ∃ v, host.cel.apply .isIn none [a, .list vs] = .ok v
  size_ok : ∀ {a}, hasSize a = true → ∃ v, host.cel.apply .size none [a] = .ok v
  sizeOf_ok : ∀ {a}, hasSize a = true → ∃ v, host.cel.apply .size (some a) [] = .ok v
  text_ok : ∀ {f}, isTextTest f = true →
    ∀ a b, ∃ v, host.cel.apply f (some (.string a)) [.string b] = .ok v

theorem routeAll_eq (es : List Expr) : routeAll es = es.map routeMatches := by
  induction es with
  | nil => rfl
  | cons e es ih => rw [routeAll, ih, List.map_cons]

theorem routeEntries_eq (es : List (Expr × Expr × EntryKind)) :
    routeEntries es = es.map fun e => (routeMatches e.1, routeMatches e.2.1, e.2.2) := by
  induction es with
  | nil => rfl
  | cons e es ih => exact congrArg ((routeMatches e.1, routeMatches e.2.1, e.2.2) :: ·) ih

section Nodes

variable {host : Host} {ρ : Context} {v : Value}

theorem resolves_route (es : List Expr) (vs : List Value) :
    host.cel.Resolves (ruleFunctions host) ρ (routeAll es) vs ↔ Evaluates host ρ es vs := by
  rw [routeAll_eq]
  exact List.forall₂_map_left_iff

theorem evaluates_single {a : Expr} {vs : List Value} :
    Evaluates host ρ [a] vs ↔ ∃ u, evaluate host ρ a = .ok u ∧ vs = [u] := by
  simp [Evaluates, List.forall₂_cons_left_iff]

theorem evaluates_pair {a b : Expr} {vs : List Value} : Evaluates host ρ [a, b] vs ↔
    ∃ u w, evaluate host ρ a = .ok u ∧ evaluate host ρ b = .ok w ∧ vs = [u, w] := by
  simp [Evaluates, List.forall₂_cons_left_iff]

theorem evaluate_literal (law : Lawful host) (l : Literal) :
    evaluate host ρ (.literal l) = .ok l.value :=
  law.meaning.literal l

theorem evaluate_ident (law : Lawful host) {x : Text} :
    evaluate host ρ (.ident x) = .ok v ↔ ρ.lookup x = some v :=
  law.meaning.ident

theorem evaluate_select (law : Lawful host) {o : Expr} {f : Text} :
    evaluate host ρ (.select o f false) = .ok v ↔
      ∃ m, evaluate host ρ o = .ok (.map m) ∧ entryOf (.string f) m = some v :=
  law.meaning.select

theorem evaluate_has_ok (law : Lawful host) {o : Expr} {f : Text}
    (h : evaluate host ρ (.select o f true) = .ok v) :
    ∃ u, evaluate host ρ o = .ok u ∧ v = .bool (fieldIn f u).isSome :=
  law.meaning.has_ok h

theorem route_logical (op : Logic) (a b : Expr) : routeMatches (.call op.func none [a, b]) =
    .call op.func none [routeMatches a, routeMatches b] := by
  cases op <;> rfl

theorem evaluate_logical_ok (law : Lawful host) (op : Logic) {a b : Expr}
    (h : evaluate host ρ (.call op.func none [a, b]) = .ok v) :
    v = .bool op.decides ∨ evaluate host ρ a = .ok (.bool !op.decides) ∧
      evaluate host ρ b = .ok (.bool !op.decides) ∧ v = .bool !op.decides := by
  rw [evaluate, route_logical] at h
  exact law.meaning.logical_ok op h

theorem evaluate_conditional (law : Lawful host) {c a b : Expr} :
    evaluate host ρ (.call .conditional none [c, a, b]) = .ok v ↔
      evaluate host ρ c = .ok (.bool true) ∧ evaluate host ρ a = .ok v ∨
        evaluate host ρ c = .ok (.bool false) ∧ evaluate host ρ b = .ok v :=
  law.meaning.conditional

theorem evaluate_call (law : Lawful host) {f : Func} (hf : strict f = true) {args : List Expr} :
    evaluate host ρ (.call f none args) = .ok v ↔
      ∃ vs, Evaluates host ρ args vs ∧ host.cel.apply f none vs = .ok v := by
  have hroute : routeMatches (.call f none args) = .call f none (routeAll args) := by
    cases f <;> first | exact absurd hf Bool.false_ne_true | rfl
  simp only [evaluate, hroute, law.meaning.call hf, resolves_route]

theorem evaluate_method (law : Lawful host) {f : Func} (hf : strict f = true) {x : Expr}
    {args : List Expr} : evaluate host ρ (.call f (some x) args) = .ok v ↔
      ∃ u vs, evaluate host ρ x = .ok u ∧ Evaluates host ρ args vs ∧
        host.cel.apply f (some u) vs = .ok v := by
  have hroute : routeMatches (.call f (some x) args) =
      .call f (some (routeMatches x)) (routeAll args) := by
    cases f <;> first | exact absurd hf Bool.false_ne_true | rfl
  simp only [evaluate, hroute, law.meaning.method hf, resolves_route]

theorem evaluate_matches (law : Lawful host) {x : Expr} {p : Text} :
    evaluate host ρ (.call .matches (some x) [.literal (.string p)]) = .ok v ↔
      ∃ u, evaluate host ρ x = .ok u ∧ matchesOutcome host (some u) [.string p] = .ok v := by
  have hlookup : (ruleFunctions host).lookup matchesFn = some (matchesOutcome host) := by
    simp [ruleFunctions]
  have hargs : ∀ vs, Evaluates host ρ [.literal (.string p)] vs ↔ vs = [.string p] := by
    intro vs
    simp [evaluates_single, evaluate_literal law, Literal.value]
  change host.cel.resolve (ruleFunctions host) ρ
    (.call (.other matchesFn) (some (routeMatches x)) (routeAll [.literal (.string p)])) = _ ↔ _
  simp only [law.meaning.declared hlookup, resolves_route, hargs]
  constructor
  · rintro ⟨u, vs, hu, rfl, h⟩
    exact ⟨u, hu, h⟩
  · rintro ⟨u, hu, h⟩
    exact ⟨u, _, hu, rfl, h⟩

theorem evaluate_list (law : Lawful host) {es : List Expr} :
    evaluate host ρ (.list es []) = .ok v ↔ ∃ vs, Evaluates host ρ es vs ∧ v = .list vs := by
  simp only [evaluate, routeMatches, law.meaning.list, resolves_route]

theorem evaluate_map_ok (law : Lawful host) {es : List (Expr × Expr × EntryKind)}
    (hes : ∀ e ∈ es, e.2.2 = .pair) (h : evaluate host ρ (.map es) = .ok v) :
    ∃ m, v = .map m ∧ ∀ entry ∈ m, ∃ e ∈ es,
      evaluate host ρ e.1 = .ok entry.1.value ∧ evaluate host ρ e.2.1 = .ok entry.2 := by
  have hpairs : ∀ e ∈ routeEntries es, e.2.2 = .pair := by
    rw [routeEntries_eq]
    intro e he
    obtain ⟨x, hx, rfl⟩ := List.mem_map.mp he
    exact hes x hx
  obtain ⟨m, rfl, hm⟩ := law.meaning.map_ok hpairs h
  refine ⟨m, rfl, fun entry hentry => ?_⟩
  obtain ⟨e, he, hk, hv⟩ := hm entry hentry
  rw [routeEntries_eq] at he
  obtain ⟨x, hx, rfl⟩ := List.mem_map.mp he
  exact ⟨x, hx, hk, hv⟩

theorem evaluate_loop_bool (law : Lawful host) {kind : MacroKind} {range p : Expr} {var : Text}
    (hk : kind ≠ .mapOrFilter) (h : evaluate host ρ (host.cel.expand kind range var p) = .ok v) :
    ∃ b, v = .bool b := by
  rw [evaluate, law.routes] at h
  exact law.meaning.loop_bool hk h

end Nodes

end Scarab.PolicyRules
