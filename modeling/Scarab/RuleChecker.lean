import Scarab.RuleSchema

/-!
# The type checker of Policy rules

A rule is checked against one checkpoint's schema: its result type, the worst-case cost of
evaluating it and the reads that a missing value fails.
-/
namespace Scarab.PolicyRules

open Scarab.Cel
open Scarab.Pipeline (quoted)

/-- The largest cost bound a rule may have. -/
def maxCost : ℕ := 100000

/-- The longest rule source, in bytes. -/
def maxSourceLen : ℕ := 4096

/-- The deepest the checker recurses into a rule. -/
def maxDepth : ℕ := 64

/-- The most distinct `matches()` patterns of one rule, and of one Policy. -/
def maxPatterns : ℕ := 8

def maxPolicyPatterns : ℕ := 32

/-- Identifiers CEL resolves to types. -/
def typeNames : List Text :=
  ["bool".toList, "int".toList, "uint".toList, "double".toList, "string".toList, "bytes".toList,
    "list".toList, "map".toList, "null_type".toList, "type".toList, "google".toList]

/-- What policies do not support. -/
inductive Unsupported where
  | optionalElement
  | mixedList (a b : CelType)
  | structEntry
  | optionalEntry
  | mixedKeys (a b : CelType)
  | mixedValues (a b : CelType)
  | messageLiteral
  | expression
  | typeName (name : Text)
  | comparing (t : CelType)
  | conversion (f : Func)
  | function (f : Func)
  | comprehension
  | macro_ (kind : MacroKind)
  | overMap (kind : MacroKind)

inductive Finding where
  | tooLong (len : ℕ)
  | bracketsNest (depth : ℕ)
  | doesNotParse
  | nestedTooDeep
  | panicked
  | unsupported (what : Unsupported)
  | noVariable (name : Text)
  | noField (field name : Text)
  | cannotSelect (t : CelType)
  | hasNeeds (t : CelType)
  | badKey (t : CelType)
  | expected (expected actual : CelType)
  | branches (a b : CelType)
  | cannotOrder (a b : CelType)
  | inNeeds (t : CelType)
  | cannotLookFor (t within_ : CelType)
  | sizeNeeds (t : CelType)
  | stringFunction (f : Func) (receiver arg : CelType)
  | matchesNeeds (t : CelType)
  | literalPattern
  | tooManyPatterns
  | tooManyPolicyPatterns
  | invalidPattern (err : Text)
  | invalidLiteral (f : Func) (s : Text)
  | listNeeded (kind : MacroKind) (t : CelType)
  | neverNull (t : CelType)
  | cannotCompare (a b : CelType)
  | notVariant (s name : Text)
  | returns (expected actual : CelType)
  | tooCostly (cost : ℕ)

inductive Warning where
  | mayBeNull (name : Text)
  | optionalField (field : Text)
deriving DecidableEq

/-- The characters of a literal past its opening quotes, its closing ones included. -/
def literalLen (raw triple : Bool) (q : Char) : Text → ℕ
  | [] => 0
  | c :: cs =>
      if c = Char.ofNat 92 && !raw then
        match cs with
        | [] => 1
        | _ :: rest => 2 + literalLen raw triple q rest
      else if c = q && (!triple || [q, q].isPrefixOf cs) then if triple then 3 else 1
      else if !triple && (c.toNat = 10 || c.toNat = 13) then 0
      else 1 + literalLen raw triple q cs

/-- The length of the string literal a quote `q` opens, from the text before it (backwards) and
after it. -/
def skipString (before : Text) (q : Char) (after : Text) : ℕ :=
  let letters := (before.take 2).takeWhile fun c => c ∈ ['r', 'R', 'b', 'B']
  let prefixOk := !((before.drop letters.length).head?.any fun c => c.isAlphanum || c = '_')
  let raw := prefixOk && letters.any fun c => c ∈ ['r', 'R']
  let triple := [q, q].isPrefixOf after
  let opening := if triple then 3 else 1
  opening + literalLen raw triple q (after.drop (opening - 1))

/-- The deepest bracket nesting met from here on. -/
def nestingFrom : ℕ → Text → Text → ℕ → ℕ → ℕ
  | 0, _, _, _, deepest => deepest
  | _, _, [], _, deepest => deepest
  | n + 1, before, c :: cs, depth, deepest =>
      let jump (len : ℕ) :=
        nestingFrom n (((c :: cs).take len).reverse ++ before) ((c :: cs).drop len)
      if c ∈ ['(', '[', Char.ofNat 123] then jump 1 (depth + 1) (max deepest (depth + 1))
      else if c ∈ [')', ']', Char.ofNat 125] then jump 1 (depth - 1) deepest
      else if c = '/' && cs.head? = some '/' then
        jump ((c :: cs).takeWhile fun d => d.toNat ≠ 10).length depth deepest
      else if c = Char.ofNat 39 || c = Char.ofNat 34 then
        jump (skipString before c cs) depth deepest
      else jump 1 depth deepest

/-- The deepest nesting of brackets outside string literals and comments. -/
def maxNesting (source : Text) : ℕ := nestingFrom source.length [] source 0 0

/-- Refuses, before parsing, a rule the parser could not handle safely. -/
def checkLimits (source : Text) : Except Finding Unit :=
  if byteLen source > maxSourceLen then .error (.tooLong (byteLen source))
  else if maxNesting source > maxDepth then .error (.bracketsNest (maxNesting source))
  else .ok ()

def parse (host : Host) (source : Text) : Except Finding Expr :=
  match host.cel.compile source with
  | some e => .ok e
  | none => .error .doesNotParse

def u64Max : ℕ := 2 ^ 64 - 1

def satAdd (a b : ℕ) : ℕ := min (a + b) u64Max

def satMul (a b : ℕ) : ℕ := min (a * b) u64Max

/-- The sum of cost parts, saturating. -/
def add (parts : List ℕ) : ℕ := parts.foldl satAdd 0

def literalType : Literal → CelType
  | .bool _ => .bool
  | .bytes _ => .bytes
  | .double _ => .double
  | .int _ => .int
  | .null => .null
  | .string _ => .string
  | .uint _ => .uint

/-- What `==`, `!=` and `in` refuse to compare. -/
def composite : CelType → Bool
  | .list _ _ => true
  | .map _ _ _ => true
  | .struct _ => true
  | _ => false

def isStringy : CelType → Bool
  | .string => true
  | .enum _ => true
  | _ => false

/-- Strips what does not change a value's kind: caps, and an enum's closed set. -/
def shape : CelType → CelType
  | .enum _ => .string
  | .list elem _ => .list (shape elem) 0
  | .map key value _ => .map (shape key) (shape value) 0
  | t => t

/-- The common type of two values that must share one, keeping the larger cap. -/
def unify : CelType → CelType → Option CelType
  | .dyn, t => some t
  | t, .dyn => some t
  | .enum x, .enum y => if x = y then some (.enum x) else none
  | .enum _, .string => some .string
  | .string, .enum _ => some .string
  | .list x cx, .list y cy => (unify x y).map fun t => .list t (max cx cy)
  | .map kx vx cx, .map ky vy cy =>
      match unify kx ky, unify vx vy with
      | some k, some v => some (.map k v (max cx cy))
      | _, _ => none
  | a, b => if a = b then some a else none

def equatable (a b : CelType) : Bool := a = .dyn || b = .dyn || (unify a b).isSome

def assignable (expected actual : CelType) : Bool :=
  expected = .dyn || actual = .dyn || shape expected = shape actual

def ordered : CelType → Bool
  | .bool | .int | .uint | .double | .string | .bytes | .timestamp | .duration | .dyn => true
  | _ => false

/-- `a.b.c` for a chain of selects on an identifier. -/
def pathOf : Expr → Option Text
  | .ident name => some name
  | .select o f _ => (pathOf o).map fun p => p ++ '.' :: f
  | _ => none

def isNull : Expr → Bool
  | .literal .null => true
  | _ => false

/-- The path a comparison with null is about. -/
def nullTested (a b : Expr) : List Text :=
  if isNull b then (pathOf a).toList else if isNull a then (pathOf b).toList else []

/-- Paths known present when the expression is `holds`: true gives `has(p)`, `p != null` and either
side of an `&&`; false gives `p == null` and either side of an `||`. -/
def facts : Bool → Expr → List Text
  | true, .select o f true => (pathOf (.select o f true)).toList
  | holds, .call .not _ [a] => facts (!holds) a
  | true, .call .and _ [a, b] => facts true a ++ facts true b
  | false, .call .or _ [a, b] => facts false a ++ facts false b
  | true, .call .notEquals _ [a, b] => nullTested a b
  | false, .call .equals _ [a, b] => nullTested a b
  | _, _ => []

def factsIfTrue (e : Expr) : List Text := facts true e

def factsIfFalse (e : Expr) : List Text := facts false e

/-- What the checker knows at a node: the iteration variables in scope, innermost first, and the
paths known present. -/
structure Scope where
  vars : List (Text × CelType)
  guards : List Text

def Scope.guarded (Γ : Scope) (path : Text) : Bool := path ∈ Γ.guards

def Scope.shadowed (Γ : Scope) (name : Text) : Bool := (Γ.vars.lookup name).isSome

def Scope.guard (Γ : Scope) (paths : List Text) : Scope := { Γ with guards := Γ.guards ++ paths }

/-- The scope of a macro's predicate: a guard on a name its variable shadows does not hold. -/
def Scope.iterate (Γ : Scope) (var : Text) (elem : CelType) : Scope :=
  { vars := (var, elem) :: Γ.vars
    guards := Γ.guards.filter fun g => g ≠ var && !(var ++ ['.']).isPrefixOf g }

/-- What the checker has collected: warnings, the fields the rule reads, its patterns, and those of
its Policy with their compile errors. -/
structure Report where
  warnings : List Warning
  reads : List Text
  patterns : List Text
  seen : SortedMap Text (Option Text)

abbrev Check := StateT Report (Except Finding)

def warn (w : Warning) : Check Unit := modify fun r => { r with warnings := r.warnings ++ [w] }

def warnIf (b : Bool) (w : Warning) : Check Unit := if b then warn w else pure ()

def record (path : Text) : Check Unit :=
  modify fun r => { r with reads := if path ∈ r.reads then r.reads else r.reads ++ [path] }

/-- Refuses with `f` unless `p` holds. -/
def demand (p : Bool) (f : Finding) : Check Unit := if p then pure () else throw f

abbrev Checked1 := CelType × ℕ

section Checker

variable (host : Host) (s : Schema)

def identType (Γ : Scope) (name : Text) : Check Checked1 :=
  match Γ.vars.lookup name with
  | some t => pure (t, 1)
  | none => match s.variable name with
    | some var => do
        record name
        pure (var.ty, 1)
    | none =>
        throw (if name ∈ typeNames then .unsupported (.typeName name) else .noVariable name)

/-- A read of a variable warns when it is an optional top-level variable nothing guarded. -/
def ident (Γ : Scope) (name : Text) : Check Checked1 := do
  warnIf (!Γ.shadowed name && (s.variable name).any Field.optional && !Γ.guarded name)
    (.mayBeNull name)
  identType s Γ name

/-- Records `variable.field` when a field is selected from a top-level variable. -/
def readField (Γ : Scope) (operand : Expr) (field : Text) : Check Unit :=
  match operand with
  | .ident name =>
      if !Γ.shadowed name && (s.variable name).isSome then record (name ++ '.' :: field)
      else pure ()
  | _ => pure ()

/-- The declaration of a struct's field. -/
def fieldDecl (name field : Text) : Check Field :=
  match s.structDecl name with
  | none => throw .panicked
  | some d => match d.field field with
    | none => throw (.noField field name)
    | some decl => pure decl

/-- A checker of the children of a node. -/
abbrev Rec := Scope → Expr → Check Checked1

def select (rec : Rec) (Γ : Scope) (operand : Expr) (field : Text) : Check Checked1 := do
  let (t, cost) ← rec Γ operand
  readField s Γ operand field
  match t with
  | .struct name => do
      let decl ← fieldDecl s name field
      warnIf (decl.optional && !(pathOf (.select operand field false)).any Γ.guarded)
        (.optionalField field)
      pure (decl.ty, add [cost, 1])
  | .map key value cap => do
      demand (key = .string || key = .dyn) (.cannotSelect (.map key value cap))
      pure (value, add [cost, 1])
  | other => throw (.cannotSelect other)

def has (rec : Rec) (Γ : Scope) (operand : Expr) (field : Text) : Check Checked1 := do
  let (t, cost) ← rec Γ operand
  readField s Γ operand field
  match t with
  | .struct name => do
      let _ ← fieldDecl s name field
      pure (.bool, add [cost, 1])
  | .map key value cap => do
      demand (key = .string || key = .dyn) (.hasNeeds (.map key value cap))
      pure (.bool, add [cost, 1])
  | other => throw (.hasNeeds other)

/-- The elements of a list literal: their common type and the cost so far. -/
def elements (rec : Rec) (Γ : Scope) : List Expr → CelType → ℕ → Check Checked1
  | [], elem, cost => pure (elem, cost)
  | item :: items, elem, cost => do
      let (t, c) ← rec Γ item
      match unify elem t with
      | some elem => elements rec Γ items elem (satAdd cost c)
      | none => throw (.unsupported (.mixedList elem t))

def isKeyType : CelType → Bool
  | .string | .int | .uint | .bool => true
  | _ => false

/-- The entries of a map literal: the common types of keys and values and the cost so far. -/
def entries (rec : Rec) (Γ : Scope) :
    List (Expr × Expr × EntryKind) → CelType → CelType → ℕ → Check (CelType × CelType × ℕ)
  | [], key, value, cost => pure (key, value, cost)
  | (ke, ve, kind) :: rest, key, value, cost => do
      demand (kind ≠ .structField) (.unsupported .structEntry)
      demand (kind ≠ .optional) (.unsupported .optionalEntry)
      let (k, kc) ← rec Γ ke
      demand (isKeyType k) (.badKey k)
      let (v, vc) ← rec Γ ve
      match unify key k with
      | none => throw (.unsupported (.mixedKeys key k))
      | some key => match unify value v with
        | none => throw (.unsupported (.mixedValues value v))
        | some value => entries rec Γ rest key value (add [cost, kc, vc])

def expect (actual expected : CelType) : Check Unit :=
  demand (assignable expected actual) (.expected expected actual)

/-- `&&` and `||`: the right side is checked knowing what the left one leaves. -/
def logical (rec : Rec) (Γ : Scope) (op : Logic) (a b : Expr) : Check Checked1 := do
  let (ta, ca) ← rec Γ a
  expect ta .bool
  let (tb, cb) ← rec (Γ.guard (facts (!op.decides) a)) b
  expect tb .bool
  pure (.bool, add [ca, cb, 1])

def negation (rec : Rec) (Γ : Scope) (a : Expr) : Check Checked1 := do
  let (t, c) ← rec Γ a
  expect t .bool
  pure (.bool, add [c, 1])

def conditional (rec : Rec) (Γ : Scope) (cond then_ otherwise : Expr) : Check Checked1 := do
  let (tc, cc) ← rec Γ cond
  expect tc .bool
  let (tt, ct) ← rec (Γ.guard (factsIfTrue cond)) then_
  let (te, ce) ← rec (Γ.guard (factsIfFalse cond)) otherwise
  match unify tt te with
  | some t => pure (t, add [cc, max ct ce, 1])
  | none => throw (.branches tt te)

/-- One side of an equality: a variable read here draws no warning. -/
def equalitySide (rec : Rec) (Γ : Scope) : Expr → Check Checked1
  | .ident name => identType s Γ name
  | side => rec Γ side

/-- A string literal compared with an enum must be one of its values. -/
def enumLiteral (e : Expr) (enumName : Text) : Check Unit :=
  match e with
  | .literal (.string t) => match s.enumDecl enumName with
    | none => throw .panicked
    | some d => demand (t ∈ d.variants) (.notVariant t enumName)
  | _ => pure ()

def isOptionalVar (e : Expr) : Bool :=
  match e with
  | .ident name => (s.variable name).any Field.optional
  | _ => false

def enumSide (t : CelType) (other : Expr) : Check Unit :=
  match t with
  | .enum name => enumLiteral s other name
  | _ => pure ()

/-- Two sides that `==` or `!=` compares. -/
def checkEquatable (a : Expr) (ta : CelType) (b : Expr) (tb : CelType) : Check Unit :=
  if tb = .null ∧ ta ≠ .null then demand (isOptionalVar s a) (.neverNull ta)
  else if ta = .null ∧ tb ≠ .null then demand (isOptionalVar s b) (.neverNull tb)
  else do
    demand (!composite ta) (.unsupported (.comparing ta))
    demand (!composite tb) (.unsupported (.comparing tb))
    demand (equatable ta tb) (.cannotCompare ta tb)
    enumSide s ta b
    enumSide s tb a

def equality (rec : Rec) (Γ : Scope) (a b : Expr) : Check Checked1 := do
  let (ta, ca) ← equalitySide s rec Γ a
  let (tb, cb) ← equalitySide s rec Γ b
  checkEquatable s a ta b tb
  pure (.bool, add [ca, cb, 1])

def ordering (rec : Rec) (Γ : Scope) (a b : Expr) : Check Checked1 := do
  let (ta, ca) ← rec Γ a
  let (tb, cb) ← rec Γ b
  demand (ordered ta && ordered tb && (ta = tb || ta = .dyn || tb = .dyn)) (.cannotOrder ta tb)
  pure (.bool, add [ca, cb, 1])

/-- What `in` looks through, with its cap. -/
def haystackOf : CelType → Check (CelType × ℕ)
  | .list elem cap => pure (elem, cap)
  | .map key _ _ => pure (key, 1)
  | other => throw (.inNeeds other)

/-- The string literals of a list an enum is looked for in. -/
def enumLiterals (t : CelType) : Expr → Check Unit
  | .list items _ => items.forM (enumSide s t)
  | _ => pure ()

def membership (rec : Rec) (Γ : Scope) (needle haystack : Expr) : Check Checked1 := do
  let (tn, cn) ← rec Γ needle
  let (th, ch) ← rec Γ haystack
  let (elem, cap) ← haystackOf th
  demand (!composite tn) (.unsupported (.comparing tn))
  demand (equatable tn elem) (.cannotLookFor tn th)
  enumLiterals s tn haystack
  pure (.bool, add [cn, ch, cap, 1])

def isSized : CelType → Bool
  | .string | .enum _ | .bytes | .list _ _ | .map _ _ _ => true
  | _ => false

def sizeCall (rec : Rec) (Γ : Scope) (x : Expr) : Check Checked1 := do
  let (t, c) ← rec Γ x
  demand (isSized t) (.sizeNeeds t)
  pure (.int, add [c, 1])

def stringTest (rec : Rec) (Γ : Scope) (f : Func) (receiver arg : Expr) : Check Checked1 := do
  let (tr, cr) ← rec Γ receiver
  let (ta, ca) ← rec Γ arg
  demand (isStringy tr && isStringy ta) (.stringFunction f tr ta)
  pure (.bool, add [cr, ca, 1])

def patternError (p : Text) : Option Text :=
  match host.pattern p with
  | .ok _ => none
  | .error e => some e

/-- The compile error of a pattern, if it has one, compiling each of a Policy's patterns once. -/
def compiledPattern (p : Text) : Check (Option Text) := do
  let r ← get
  match r.seen.get p with
  | some compiled => pure compiled
  | none => do
      demand (r.seen.entries.length < maxPolicyPatterns) .tooManyPolicyPatterns
      set { r with seen := r.seen.insert p (patternError host p) }
      pure (patternError host p)

/-- Adds a pattern to the rule's, unless it does not compile. -/
def usePattern (p : Text) : Check Unit := do
  let r ← get
  if p ∈ r.patterns then pure ()
  else do
    demand (r.patterns.length < maxPatterns) .tooManyPatterns
    match ← compiledPattern host p with
    | some err => throw (.invalidPattern err)
    | none => modify fun r => { r with patterns := r.patterns ++ [p] }

def matching (rec : Rec) (Γ : Scope) (receiver pattern : Expr) : Check Checked1 := do
  let (tr, cr) ← rec Γ receiver
  demand (isStringy tr) (.matchesNeeds tr)
  match pattern with
  | .literal (.string p) => do
      usePattern host p
      pure (.bool, add [cr, 2])
  | _ => throw .literalPattern

def Func.shown : Func → Text
  | .timestamp => "timestamp".toList
  | _ => "duration".toList

/-- A conversion of a literal, rendered. -/
def probeSource (f : Func) (t : Text) : Text := Func.shown f ++ '(' :: host.debug t ++ [')']

/-- Whether a conversion of a literal evaluates: the call is rendered, parsed and run. -/
def probe (f : Func) (t : Text) : Bool :=
  match host.cel.compile (probeSource host f t) with
  | some e => (host.cel.resolve [] [] e).toBool
  | none => false

def conversion (f : Func) (arg : Expr) : Check Checked1 :=
  match arg with
  | .literal (.string t) => do
      demand (probe host f t) (.invalidLiteral f t)
      pure (if f = .timestamp then .timestamp else .duration, 1)
  | _ => throw (.unsupported (.conversion f))

def call (rec : Rec) (Γ : Scope) (f : Func) (target : Option Expr) (args : List Expr) :
    Check Checked1 :=
  match f, target, args with
  | .and, none, [a, b] => logical rec Γ .and a b
  | .or, none, [a, b] => logical rec Γ .or a b
  | .not, none, [a] => negation rec Γ a
  | .conditional, none, [c, a, b] => conditional rec Γ c a b
  | .equals, none, [a, b] => equality s rec Γ a b
  | .notEquals, none, [a, b] => equality s rec Γ a b
  | .less, none, [a, b] => ordering rec Γ a b
  | .lessEquals, none, [a, b] => ordering rec Γ a b
  | .greater, none, [a, b] => ordering rec Γ a b
  | .greaterEquals, none, [a, b] => ordering rec Γ a b
  | .isIn, none, [a, b] => membership s rec Γ a b
  | .size, none, [x] => sizeCall rec Γ x
  | .size, some x, [] => sizeCall rec Γ x
  | .startsWith, some x, [y] => stringTest rec Γ .startsWith x y
  | .endsWith, some x, [y] => stringTest rec Γ .endsWith x y
  | .contains, some x, [y] => stringTest rec Γ .contains x y
  | .matches, some x, [p] => matching host rec Γ x p
  | .timestamp, none, [arg] => conversion host .timestamp arg
  | .duration, none, [arg] => conversion host .duration arg
  | f, _, _ => throw (.unsupported (.function f))

def comprehension (rec : Rec) (Γ : Scope) (range : Expr) (var : Text) (var2 : Option Text)
    (init step : Expr) : Check Checked1 :=
  match MacroKind.of init, var2 with
  | some kind, none =>
      match kind.predicate step with
      | none => throw (.unsupported (.macro_ kind))
      | some predicate => do
          let (t, rc) ← rec Γ range
          match t with
          | .list elem cap => do
              let (tp, cp) ← rec (Γ.iterate var elem) predicate
              expect tp .bool
              pure (.bool, add [rc, satMul cap (add [cp, 1])])
          | .map _ _ _ => throw (.unsupported (.overMap kind))
          | other => throw (.listNeeded kind other)
  | _, _ => throw (.unsupported .comprehension)

def exprInner (rec : Rec) (Γ : Scope) : Expr → Check Checked1
  | .literal l => pure (literalType l, 1)
  | .ident name => ident s Γ name
  | .select o f true => has s rec Γ o f
  | .select o f false => select s rec Γ o f
  | .call f target args => call host s rec Γ f target args
  | .comprehension range var var2 init _ step _ => comprehension rec Γ range var var2 init step
  | .list es optionals => do
      demand optionals.isEmpty (.unsupported .optionalElement)
      let (elem, cost) ← elements rec Γ es .dyn 1
      pure (.list elem es.length, cost)
  | .map es => do
      let (key, value, cost) ← entries rec Γ es .dyn .dyn 1
      pure (.map key value es.length, cost)
  | .struct _ => throw (.unsupported .messageLiteral)
  | .unspecified => throw (.unsupported .expression)

/-- The check of an expression, `depth` levels from the limit. -/
def expr : ℕ → Rec
  | 0 => fun _ _ => throw .nestedTooDeep
  | depth + 1 => exprInner host s (expr depth)

end Checker

/-- A rule that type-checked. -/
structure Checked where
  source : Text
  result : CelType
  cost : ℕ
  warnings : List Warning
  reads : List Text
  patterns : List Text

/-- Parses `source` and checks it, as one rule of a Policy whose earlier rules used `seen`. -/
def checkIn (host : Host) (s : Schema) (source : Text) (expected : CelType)
    (seen : SortedMap Text (Option Text)) :
    Except Finding (Checked × SortedMap Text (Option Text)) :=
  match checkLimits source, parse host source with
  | .error f, _ => .error f
  | .ok (), .error f => .error f
  | .ok (), .ok root =>
      match expr host s maxDepth ⟨[], []⟩ root ⟨[], [], [], seen⟩ with
      | .error f => .error f
      | .ok ((result, cost), r) =>
          if !assignable expected result then .error (.returns expected result)
          else if cost > maxCost then .error (.tooCostly cost)
          else .ok (⟨source, result, cost, r.warnings, r.reads, r.patterns⟩, r.seen)

def check (host : Host) (s : Schema) (source : Text) (expected : CelType) :
    Except Finding Checked :=
  (checkIn host s source expected .empty).map Prod.fst

end Scarab.PolicyRules
