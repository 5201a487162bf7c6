import Scarab.CelEvaluation
import Scarab.PipelineValues

/-!
# The schema of a rule's input, and binding an input

A checkpoint declares the variables a rule reads with their types, length caps and list caps. An
input is bound variable by variable: a struct becomes a map, an absent optional field a missing
key, an absent optional variable null.
-/
namespace Scarab.PolicyRules

open Scarab.Cel
open Scarab.Pipeline (Json Number)

/-- A CEL type, as far as the policy subset needs one. -/
inductive CelType where
  | bool
  | int
  | uint
  | double
  | string
  | bytes
  | null
  | timestamp
  | duration
  | enum (name : Text)
  | list (elem : CelType) (cap : ℕ)
  | map (key value : CelType) (cap : ℕ)
  | struct (name : Text)
  | dyn
deriving DecidableEq

structure Field where
  name : Text
  ty : CelType
  optional : Bool
  maxLen : ℕ

/-- A struct has no two fields of one name. -/
structure StructDecl where
  fields : List Field
  distinct : (fields.map Field.name).Nodup

def StructDecl.field (d : StructDecl) (name : Text) : Option Field :=
  d.fields.find? fun f => f.name = name

structure EnumDecl where
  variants : List Text

/-- The variables are the fields of the checkpoint's root struct. -/
structure Schema where
  vars : List Field
  distinct : (vars.map Field.name).Nodup
  structs : SortedMap Text StructDecl
  enums : SortedMap Text EnumDecl

def Schema.variable (s : Schema) (name : Text) : Option Field :=
  s.vars.find? fun f => f.name = name

def Schema.structDecl (s : Schema) (name : Text) : Option StructDecl := s.structs.get name

def Schema.enumDecl (s : Schema) (name : Text) : Option EnumDecl := s.enums.get name

/-- What checking and evaluating take from outside: the CEL crate, the regular expressions
`matches` compiles, the debug form of a string and the readings of a number and of a time. -/
structure Host where
  cel : Crate
  pattern : Text → Except Text (Text → Bool)
  debug : Text → Text
  asF64 : Number → Text
  parseRfc3339 : Text → Except Text ℤ

inductive BindError where
  | notAStruct
  | required (name : Text)
  | tooLong (len max : ℕ)
  | badTime (err : Text)
  | notVariant (s name : Text)
  | overCap (len cap : ℕ)
  | expected (ty : CelType)
  | undeclared (name : Text)

def i64Max : ℕ := 2 ^ 63 - 1

/-- `n.as_i64()`. -/
def asI64 : Number → Option ℤ
  | .posInt n => if n ≤ i64Max then some n else none
  | .negInt n => if n ≤ i64Max + 1 then some (-n) else none
  | .float _ => none

def asU64 : Number → Option ℕ := Number.asU64

/-- A value that is no list and no struct. -/
def scalarValue (host : Host) (s : Schema) (ty : CelType) (json : Json) : Except BindError Value :=
  match ty, json with
  | .bool, .bool b => .ok (.bool b)
  | .string, .string t => .ok (.string t)
  | .int, .number n => match asI64 n with
      | some z => .ok (.int z)
      | none => .error (.expected .int)
  | .uint, .number n => match asU64 n with
      | some m => .ok (.uint m)
      | none => .error (.expected .uint)
  | .double, .number n => .ok (.double (host.asF64 n))
  | .timestamp, .string t => match host.parseRfc3339 t with
      | .ok z => .ok (.timestamp z)
      | .error e => .error (.badTime e)
  | .enum name, .string t => match s.enumDecl name with
      | none => .error (.undeclared name)
      | some d => if t ∈ d.variants then .ok (.string t) else .error (.notVariant t name)
  | ty, _ => .error (.expected ty)

/-- The length cap on a string. -/
def checkLength (maxLen : ℕ) : Json → Except BindError Unit
  | .string t => if byteLen t > maxLen then .error (.tooLong (byteLen t) maxLen) else .ok ()
  | _ => .ok ()

def leafValue (host : Host) (s : Schema) (ty : CelType) (maxLen : ℕ) (json : Json) :
    Except BindError Value :=
  match checkLength maxLen json with
  | .ok () => scalarValue host s ty json
  | .error e => .error e

/-- The fields a struct declares, read in order by the readings of an object's members. -/
def structEntries (member : Text → Option (CelType → ℕ → Except BindError (Option Value))) :
    List Field → List (Key × Value) → Except BindError (List (Key × Value))
  | [], m => .ok m
  | f :: fs, m =>
      let absent := if f.optional then structEntries member fs m else .error (.required f.name)
      match member f.name with
      | none => absent
      | some read => match read f.ty f.maxLen with
        | .error e => .error e
        | .ok none => absent
        | .ok (some v) => structEntries member fs (insertEntry (.string f.name) v m)

/-- Null reads as absent. -/
def unlessNull (json : Json) (read : Except BindError Value) : Except BindError (Option Value) :=
  match json with
  | .null => .ok none
  | _ => read.map some

mutual

/-- The value of `json` at type `ty`. -/
def toValue (host : Host) (s : Schema) : Json → CelType → ℕ → Except BindError Value
  | .array items, .list elem cap, maxLen =>
      if items.length > cap then .error (.overCap items.length cap)
      else (toValues host s items elem maxLen).map .list
  | .object members, .struct name, _ =>
      match s.structDecl name with
      | none => .error (.undeclared name)
      | some d =>
          (structEntries (readMember host s members) d.fields []).map .map
  | json, ty, maxLen => leafValue host s ty maxLen json

def toValues (host : Host) (s : Schema) : List Json → CelType → ℕ → Except BindError (List Value)
  | [], _, _ => .ok []
  | json :: items, ty, maxLen =>
      match toValue host s json ty maxLen, toValues host s items ty maxLen with
      | .ok v, .ok vs => .ok (v :: vs)
      | .error e, _ => .error e
      | _, .error e => .error e

/-- How the member `name` of an object reads at a type. -/
def readMember (host : Host) (s : Schema) :
    List (Text × Json) → Text → Option (CelType → ℕ → Except BindError (Option Value))
  | [], _ => none
  | (key, json) :: members, name =>
      if key = name then
        some fun ty maxLen => unlessNull json (toValue host s json ty maxLen)
      else readMember host s members name

end

/-- One variable of the context. -/
def bindVariable (host : Host) (s : Schema) (members : List (Text × Json)) (var : Field) :
    Except BindError Value :=
  match readMember host s members var.name with
  | none => if var.optional then .ok .null else .error (.required var.name)
  | some read => match read var.ty var.maxLen with
    | .error e => .error e
    | .ok none => if var.optional then .ok .null else .error (.required var.name)
    | .ok (some v) => .ok v

def bindVariables (host : Host) (s : Schema) (members : List (Text × Json)) :
    List Field → Except BindError Context
  | [] => .ok []
  | var :: vars =>
      match bindVariable host s members var, bindVariables host s members vars with
      | .ok v, .ok ρ => .ok ((var.name, v) :: ρ)
      | .error e, _ => .error e
      | _, .error e => .error e

/-- Binds each top-level field of the input as a CEL variable. -/
def bind (host : Host) (s : Schema) : Json → Except BindError Context
  | .object members => bindVariables host s members s.vars
  | _ => .error .notAStruct

end Scarab.PolicyRules
