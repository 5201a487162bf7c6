import Scarab.PipelineValues

/-!
# CEL expressions and the templates that hold them

The limits checked before an expression is parsed, the variable members a parsed expression
reads, and the expressions written between double braces in a text.
-/
namespace Scarab.Pipeline

/-- The longest CEL expression accepted, in bytes. -/
def maxExpressionBytes : ℕ := 4096

/-- The deepest bracket nesting accepted in a CEL expression. -/
def maxExpressionNesting : ℕ := 64

inductive CelError where
  | tooLong (expr : Text) (bytes : ℕ)
  | tooDeep (expr : Text) (depth : ℕ)
  | malformed (expr : Text) (why : Text)
  | failed (expr : Text) (why : Text)
  | notBool (expr : Text) (value : Json)
  | unterminated (template : Text)

/-- The prefix letters of a raw or bytes literal. -/
def isPrefixLetter (c : Char) : Bool := c = 'r' || c = 'R' || c = 'b' || c = 'B'

def isWordChar (c : Char) : Bool := c.isAlphanum || c = '_'

/-- Whether the literal that opens after `before` (read backwards) is raw. -/
def isRaw (before : Text) : Bool :=
  let letters := (before.take 2).takeWhile isPrefixLetter
  let ok := match before.drop letters.length with
    | [] => true
    | c :: _ => !isWordChar c
  ok && letters.any fun c => c = 'r' || c = 'R'

/-- The text after the string literal a quote `q` opened, with what was read, backwards. -/
def skipString (raw triple : Bool) (q : Char) : ℕ → Text → Text → Text × Text
  | 0, before, rest => (before, rest)
  | _ + 1, before, [] => (before, [])
  | n + 1, before, c :: cs =>
      if c = backslash && !raw then
        match cs with
        | [] => (c :: before, [])
        | d :: ds => skipString raw triple q n (d :: c :: before) ds
      else if c = q && (!triple || cs.take 2 = [q, q]) then
        if triple then (q :: q :: c :: before, cs.drop 2) else (c :: before, cs)
      else if !triple && (c.toNat = 10 || c.toNat = 13) then (before, c :: cs)
      else skipString raw triple q n (c :: before) cs

/-- The deepest bracket nesting outside string literals and comments. -/
def nestingFrom : ℕ → Text → Text → ℕ → ℕ → ℕ
  | 0, _, _, _, deepest => deepest
  | _ + 1, _, [], _, deepest => deepest
  | n + 1, before, c :: cs, depth, deepest =>
      if c = '(' || c = '[' || c = '{' then
        nestingFrom n (c :: before) cs (depth + 1) (max deepest (depth + 1))
      else if c = ')' || c = ']' || c = '}' then
        nestingFrom n (c :: before) cs (depth - 1) deepest
      else if c = '/' && cs.head? = some '/' then
        let line := (c :: cs).takeWhile fun d => d.toNat ≠ 10
        nestingFrom n (line.reverse ++ before) ((c :: cs).drop line.length) depth deepest
      else if c.toNat = 39 || c = doubleQuote then
        let triple := decide (cs.take 2 = [c, c])
        let opened := if triple then c :: c :: c :: before else c :: before
        let rest := if triple then cs.drop 2 else cs
        let after := skipString (isRaw before) triple c rest.length opened rest
        nestingFrom n after.1 after.2 depth deepest
      else nestingFrom n (c :: before) cs depth deepest

def maxNesting (expr : Text) : ℕ := nestingFrom expr.length [] expr 0 0

def checkLimits (expr : Text) : Except CelError Unit :=
  if byteLen expr > maxExpressionBytes then .error (.tooLong expr (byteLen expr))
  else if maxNesting expr > maxExpressionNesting then .error (.tooDeep expr (maxNesting expr))
  else .ok ()

namespace Host

variable (host : Host)

/-- `with_program`: check the limits, then parse. -/
def program (expr : Text) : Except CelError Expr := do
  checkLimits expr
  match host.compile expr with
  | .ok e => .ok e
  | .error why => .error (.malformed expr why)

def check (expr : Text) : Except CelError Unit := do
  let _ ← host.program expr

def eval (expr : Text) (ctx : Ctx) : Except CelError Json := do
  let e ← host.program expr
  match host.execute e ctx with
  | .ok v => .ok v
  | .error why => .error (.failed expr why)

def evalBool (expr : Text) (ctx : Ctx) : Except CelError Bool := do
  match ← host.eval expr ctx with
  | .bool b => .ok b
  | other => .error (.notBool expr other)

end Host

/-- One read of a variable: the variable, then its constant members. -/
structure Read where
  var : Text
  first : Option Text
  second : Option Text
deriving DecidableEq

def indexOperator : Text := "_[_]".toList

/-- A variable without the leading dots of a root-qualified read. -/
def rootName (name : Text) : Text := name.dropWhile (· = '.')

def readOf (name : Text) (keys : List (Option Text)) : Read :=
  match keys with
  | [] => ⟨rootName name, none, none⟩
  | none :: _ => ⟨rootName name, none, none⟩
  | some first :: rest => ⟨rootName name, some first, (rest.head?).join⟩

mutual

/-- The reads of `e` under the members `keys` selected from it, with the reads of the computed
keys met on the way out. -/
def Expr.readsUnder : Expr → List (Option Text) → List Read → List Read
  | .select operand field _, keys, later => operand.readsUnder (some field :: keys) later
  | .call func none [operand, .literal (.string s)], keys, later =>
      if func = indexOperator then operand.readsUnder (some s :: keys) later
      else operand.readsUnder [] [] ++ later
  | .call func none [operand, key], keys, later =>
      if func = indexOperator then
        operand.readsUnder (none :: keys) (later ++ key.readsUnder [] [])
      else operand.readsUnder [] [] ++ key.readsUnder [] [] ++ later
  | .ident name, keys, later => readOf name keys :: later
  | .call _ target args, _, later =>
      Expr.targetReads target ++ Expr.listReads args ++ later
  | .comprehension range _ _ init cond step result, _, later =>
      range.readsUnder [] [] ++ init.readsUnder [] [] ++ cond.readsUnder [] [] ++
        step.readsUnder [] [] ++ result.readsUnder [] [] ++ later
  | .list elements, _, later => Expr.listReads elements ++ later
  | .map entries, _, later => Expr.entryReads entries ++ later
  | .struct _ fields, _, later => Expr.fieldReads fields ++ later
  | .literal _, _, later => later
  | .unspecified, _, later => later

def Expr.targetReads : Option Expr → List Read
  | none => []
  | some e => e.readsUnder [] []

def Expr.listReads : List Expr → List Read
  | [] => []
  | e :: es => e.readsUnder [] [] ++ Expr.listReads es

def Expr.entryReads : List (Expr × Expr) → List Read
  | [] => []
  | (k, v) :: es => k.readsUnder [] [] ++ v.readsUnder [] [] ++ Expr.entryReads es

def Expr.fieldReads : List (Text × Expr) → List Read
  | [] => []
  | (_, v) :: fs => v.readsUnder [] [] ++ Expr.fieldReads fs

end

def Expr.reads (e : Expr) : List Read := e.readsUnder [] []

/-- The variable and constant members an expression is, when it is nothing else. -/
def Expr.pathUnder : Expr → List Text → Option (List Text)
  | .select operand field _, keys => operand.pathUnder (field :: keys)
  | .call func none [operand, .literal (.string s)], keys =>
      if func = indexOperator then operand.pathUnder (s :: keys) else none
  | .ident name, keys => some (rootName name :: keys)
  | _, _ => none

namespace Host

variable (host : Host)

def reads (expr : Text) : Except CelError (List Read) := do
  let e ← host.program expr
  .ok e.reads

def path (expr : Text) : Option (List Text) :=
  match host.program expr with
  | .ok e => e.pathUnder []
  | .error _ => none

end Host

/-- Whether two contexts give the read the same value: the variable whole, or the one member
read of an object. -/
def Read.Agrees (r : Read) (c c' : Ctx) : Prop :=
  c.get r.var = c'.get r.var ∨
    ∃ name fs fs', r.first = some name ∧ c.get r.var = some (.object fs) ∧
      c'.get r.var = some (.object fs') ∧ fieldOf name fs = fieldOf name fs'

/-- An expression's value depends only on the members it reads. -/
def Host.ReadsOnly (host : Host) : Prop :=
  ∀ (e : Expr) (c c' : Ctx) (v : Json), (∀ r ∈ e.reads, r.Agrees c c') →
    host.execute e c = .ok v → host.execute e c' = .ok v

def openBraces : Text := ['$', '{', '{']

def closeBraces : Text := ['}', '}']

/-- One expression of a template: the text since the last one, and the text between its
braces, not trimmed. -/
structure Interpolation where
  before : Text
  inner : Text
deriving DecidableEq

namespace Interpolation

/-- The expression. -/
def expr (i : Interpolation) : Text := trim i.inner

/-- The expression as written, braces included. -/
def outer (i : Interpolation) : Text := openBraces ++ i.inner ++ closeBraces

end Interpolation

/-- A template cut at its expressions. -/
structure Scan where
  found : List Interpolation
  rest : Text
  unterminated : Bool
deriving DecidableEq

def scanFrom : ℕ → Text → Scan
  | 0, t => ⟨[], t, false⟩
  | n + 1, t =>
      match splitOnce openBraces t with
      | none => ⟨[], t, false⟩
      | some (before, after) =>
          match splitOnce closeBraces after with
          | none => ⟨[], t, true⟩
          | some (inner, rest) =>
              let s := scanFrom n rest
              ⟨⟨before, inner⟩ :: s.found, s.rest, s.unterminated⟩

def scanInterpolations (template : Text) : Scan := scanFrom (template.length + 1) template

/-- A value as a template writes it into text. -/
def renderValue : Json → Text
  | .string s => s
  | other => other.text

namespace Host

variable (host : Host)

def interpolateAll (ctx : Ctx) : List Interpolation → Except CelError Text
  | [] => .ok []
  | i :: is => do
      let v ← host.eval i.expr ctx
      let tail ← interpolateAll ctx is
      .ok (i.before ++ renderValue v ++ tail)

def interpolate (template : Text) (ctx : Ctx) : Except CelError Text := do
  let s := scanInterpolations template
  let text ← host.interpolateAll ctx s.found
  if s.unterminated then .error (.unterminated template) else .ok (text ++ s.rest)

def checkInterpolation (template : Text) : Except CelError Unit := do
  let s := scanInterpolations template
  if s.unterminated then .error (.unterminated template)
  else s.found.forM fun i => host.check i.expr

end Host

/-- The expression of a template that is one expression and nothing else. -/
def exactExpr (template : Text) : Option Text :=
  match scanInterpolations template with
  | ⟨[i], [], false⟩ => if i.before = [] then some i.expr else none
  | _ => none

end Scarab.Pipeline
