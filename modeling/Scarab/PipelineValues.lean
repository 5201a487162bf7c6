import Scarab.SortedMap
import Scarab.TextBasics

/-!
# Values of the pipeline language

JSON values, the declared launch parameters and the conversion of a supplied value to its
declared type. What the Rust code takes from the CEL crate and from float parsing is a `Host`.
-/
namespace Scarab.Pipeline

/-- A JSON number: a non-negative integer, a negative one, or a float as it prints. -/
inductive Number where
  | posInt (n : ℕ)
  | negInt (n : ℕ)
  | float (shown : Text)
deriving DecidableEq

def Number.text : Number → Text
  | .posInt n => natText n
  | .negInt n => '-' :: natText n
  | .float shown => shown

def Number.asU64 : Number → Option ℕ
  | .posInt n => some n
  | _ => none

inductive Json where
  | null
  | bool (b : Bool)
  | number (n : Number)
  | string (s : Text)
  | array (items : List Json)
  | object (fields : List (Text × Json))

def boolText (b : Bool) : Text := if b then "true".toList else "false".toList

def hexDigit (n : ℕ) : Char := if n < 10 then Char.ofNat (48 + n) else Char.ofNat (87 + n)

def doubleQuote : Char := Char.ofNat 34

def backslash : Char := Char.ofNat 92

/-- One character inside a JSON string literal. -/
def escapeChar (c : Char) : Text :=
  if c = doubleQuote then [backslash, doubleQuote]
  else if c = backslash then [backslash, backslash]
  else if c.toNat = 10 then [backslash, 'n']
  else if c.toNat = 13 then [backslash, 'r']
  else if c.toNat = 9 then [backslash, 't']
  else if c.toNat = 8 then [backslash, 'b']
  else if c.toNat = 12 then [backslash, 'f']
  else if c.toNat < 32 then
    [backslash, 'u', '0', '0', hexDigit (c.toNat / 16), hexDigit (c.toNat % 16)]
  else [c]

def quoted (s : Text) : Text := doubleQuote :: s.flatMap escapeChar ++ [doubleQuote]

mutual

/-- Compact JSON. -/
def Json.text : Json → Text
  | .null => "null".toList
  | .bool b => boolText b
  | .number n => n.text
  | .string s => quoted s
  | .array items => '[' :: Json.itemsText items ++ [']']
  | .object fields => '{' :: Json.fieldsText fields ++ ['}']

def Json.itemsText : List Json → Text
  | [] => []
  | [v] => v.text
  | v :: vs => v.text ++ ',' :: Json.itemsText vs

def Json.fieldsText : List (Text × Json) → Text
  | [] => []
  | [(k, v)] => quoted k ++ ':' :: v.text
  | (k, v) :: fs => quoted k ++ ':' :: v.text ++ ',' :: Json.fieldsText fs

end

/-- The member `name` of an object. -/
def fieldOf (name : Text) : List (Text × Json) → Option Json
  | [] => none
  | f :: fs => if f.1 = name then some f.2 else fieldOf name fs

inductive Literal where
  | string (s : Text)
  | bool (b : Bool)
  | int (z : ℤ)
  | uint (n : ℕ)
  | double (shown : Text)
  | bytes (bs : List (Fin 256))
  | null
deriving DecidableEq

/-- The tree the CEL parser builds. -/
inductive Expr where
  | ident (name : Text)
  | select (operand : Expr) (field : Text) (test : Bool)
  | call (func : Text) (target : Option Expr) (args : List Expr)
  | comprehension (iterRange : Expr) (iterVar : Text) (accuVar : Text)
      (accuInit loopCond loopStep result : Expr)
  | list (elements : List Expr)
  | map (entries : List (Expr × Expr))
  | struct (typeName : Text) (fields : List (Text × Expr))
  | literal (l : Literal)
  | unspecified

/-- A CEL context: a value for each variable. -/
abbrev Ctx := SortedMap Text Json

structure Host where
  /-- `Program::compile`. -/
  compile : Text → Except Text Expr
  /-- `Program::execute` on the variables of a context, its value read back as JSON. -/
  execute : Expr → Ctx → Except Text Json
  /-- `str::parse::<f64>`: `some none` for a float that is not finite, else as it prints. -/
  parseF64 : Text → Option (Option Text)

end Scarab.Pipeline
