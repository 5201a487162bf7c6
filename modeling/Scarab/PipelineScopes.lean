import Scarab.PipelineTemplates

/-!
# Parameters and scopes

A declared parameter converts and checks the value it is given. A scope says what the names in
a step's templates are; `InputSources` says how far from the pipeline each of them comes.
-/
namespace Scarab.Pipeline

inductive ParamType where
  | string
  | boolean
  | number
  | choice
deriving DecidableEq

structure ParamSpec where
  name : Text
  type : ParamType
  required : Bool
  default : Option Json
  options : Option (List Text)
  validate : Option Text

inductive ParamError where
  | cannotCoerce (value : Json) (type : ParamType)
  | notFinite (s : Text)
  | notNumber (s : Text)
  | notBoolean (s : Text)
  | choiceNotString (value : Json)
  | notAllowed (s : Text) (options : List Text)
  | failedValidation (expr : Text)
  | cel (e : CelError)

def digitsValue (t : Text) : ℕ := t.foldl (fun n c => 10 * n + (c.toNat - 48)) 0

def isDigits (t : Text) : Bool := t ≠ [] && t.all Char.isDigit

/-- `str::parse::<i64>`. -/
def parseI64 (t : Text) : Option Number :=
  match t with
  | '-' :: ds =>
      if isDigits ds && digitsValue ds ≤ 2 ^ 63 then
        some (if digitsValue ds = 0 then .posInt 0 else .negInt (digitsValue ds))
      else none
  | '+' :: ds =>
      if isDigits ds && digitsValue ds < 2 ^ 63 then some (.posInt (digitsValue ds)) else none
  | ds => if isDigits ds && digitsValue ds < 2 ^ 63 then some (.posInt (digitsValue ds)) else none

/-- A raw value in the shape of a declared type. -/
def coerce (host : Host) (raw : Json) : ParamType → Except ParamError Json
  | .string =>
      match raw with
      | .string s => .ok (.string s)
      | .number n => .ok (.string n.text)
      | other => .error (.cannotCoerce other .string)
  | .number =>
      match raw with
      | .number n => .ok (.number n)
      | .string s =>
          match parseI64 (trim s) with
          | some n => .ok (.number n)
          | none =>
              match host.parseF64 (trim s) with
              | some (some shown) => .ok (.number (.float shown))
              | some none => .error (.notFinite s)
              | none => .error (.notNumber s)
      | other => .error (.cannotCoerce other .number)
  | .boolean =>
      match raw with
      | .bool b => .ok (.bool b)
      | .string s =>
          let lower := (trim s).map Char.toLower
          if lower = "true".toList || lower = "yes".toList then .ok (.bool true)
          else if lower = "false".toList || lower = "no".toList then .ok (.bool false)
          else .error (.notBoolean s)
      | other => .error (.cannotCoerce other .boolean)
  | .choice =>
      match raw with
      | .string s => .ok (.string s)
      | other => .error (.choiceNotString other)

/-- A choice is one of its options. -/
def checkChoice (spec : ParamSpec) (coerced : Json) : Except ParamError Unit :=
  match spec.type, coerced with
  | .choice, .string s =>
      if s ∈ spec.options.getD [] then .ok () else .error (.notAllowed s (spec.options.getD []))
  | _, _ => .ok ()

def checkValidate (host : Host) (spec : ParamSpec) (coerced : Json) : Except ParamError Unit :=
  match spec.validate with
  | none => .ok ()
  | some expr =>
      match host.evalBool expr (SortedMap.empty.insert "value".toList coerced) with
      | .ok true => .ok ()
      | .ok false => .error (.failedValidation expr)
      | .error e => .error (.cel e)

/-- One supplied value against its declaration. -/
def resolveOne (host : Host) (spec : ParamSpec) (raw : Json) : Except ParamError Json := do
  let coerced ← coerce host raw spec.type
  checkChoice spec coerced
  checkValidate host spec coerced
  .ok coerced

inductive BoundValue where
  | literal (v : Json)
  | template (t : Text)

structure Binding where
  param : Option ParamSpec
  value : BoundValue

namespace Binding

def literal (v : Json) : Binding := ⟨none, .literal v⟩

/-- Only the parts of the declaration that check a value are kept. -/
def template (t : Text) (param : ParamSpec) : Binding :=
  ⟨some { param with required := true, default := none }, .template t⟩

end Binding

inductive OutputSource where
  | step (id : Text)
  | invoke (exposed : SortedMap Text Text)

inductive ScopeInputs where
  | run
  | bound (bindings : SortedMap Text Binding)

/-- The names a step's templates read; `caller` is the scope its bound templates render in. -/
inductive Scope where
  | mk (inputs : ScopeInputs) (outputs : SortedMap Text OutputSource)
      (matrix : SortedMap Text Text) (caller : Option Scope)

structure Guard where
  callerHops : ℕ
  when_ : Text
deriving DecidableEq

namespace Scope

def inputs : Scope → ScopeInputs
  | ⟨inputs, _, _, _⟩ => inputs

def outputs : Scope → SortedMap Text OutputSource
  | ⟨_, outputs, _, _⟩ => outputs

def matrix : Scope → SortedMap Text Text
  | ⟨_, _, matrix, _⟩ => matrix

def caller : Scope → Option Scope
  | ⟨_, _, _, caller⟩ => caller

def withOutputs (s : Scope) (outputs : SortedMap Text OutputSource) : Scope :=
  ⟨s.inputs, outputs, s.matrix, s.caller⟩

def withMatrix (s : Scope) (matrix : SortedMap Text Text) : Scope :=
  ⟨s.inputs, s.outputs, matrix, s.caller⟩

/-- The scope of a step written in the pipeline file. -/
def run : Scope := ⟨.run, ∅, ∅, none⟩

/-- The scope `hops` callers out. -/
def at_ : Scope → ℕ → Option Scope
  | s, 0 => some s
  | ⟨_, _, _, none⟩, _ + 1 => none
  | ⟨_, _, _, some c⟩, n + 1 => c.at_ n

/-- Change the scope `hops` callers out. -/
def modifyAt (f : Scope → Scope) : ℕ → Scope → Scope
  | 0, s => f s
  | n + 1, ⟨i, o, m, c⟩ => ⟨i, o, m, c.map (modifyAt f n)⟩

end Scope

inductive Source where
  | pipeline
  | fixed
  | free
deriving DecidableEq

namespace Source

def rank : Source → ℕ
  | pipeline => 0
  | fixed => 1
  | free => 2

/-- The further outside of two. -/
def join (a b : Source) : Source := if a.rank < b.rank then b else a

/-- As far outside as the furthest: the pipeline's own when there is none. -/
def furthest (sources : List Source) : Source := sources.foldl join .pipeline

end Source

/-- The shape a fixed value from outside must have when it is all an expression reads. -/
inductive Shape where
  | choice (options : List Text)
  | sha
  | whole
  | bool
  | kind

/-- The event fields of a fixed shape. -/
def fixedFields : List Text :=
  ["sha".toList, "number".toList, "issue".toList, "fork".toList, "kind".toList]

def triggerKinds : List Text :=
  ["push".toList, "pull_request".toList, "tag".toList, "release".toList, "comment".toList,
    "cron".toList, "manual".toList, "api".toList, "upstream".toList]

structure Input where
  source : Source
  options : Option (List Text)

namespace Input

def own : Input := ⟨.pipeline, none⟩

/-- An input from outside, by its declared type. -/
def outside (param : ParamSpec) : Input :=
  match param.type with
  | .choice => ⟨.fixed, some (param.options.getD [])⟩
  | .boolean => ⟨.fixed, none⟩
  | .number => ⟨.fixed, none⟩
  | .string => ⟨.free, none⟩

end Input

structure InputSources where
  inputs : SortedMap Text Input
  /-- The source of `inputs` read whole. -/
  whole : Source

namespace InputSources

variable (host : Host)

/-- A run's own inputs. -/
def run (declared : List ParamSpec) : InputSources :=
  ⟨SortedMap.ofList (declared.map fun p => (p.name, Input.outside p)), .free⟩

def input (s : InputSources) (name : Text) : Source :=
  match s.inputs.get name with
  | some i => i.source
  | none => .free

def ofRead (s : InputSources) (r : Read) : Source :=
  if r.var = "matrix".toList then .pipeline
  else if r.var = "inputs".toList then
    match r.first with
    | some name => s.input name
    | none => s.whole
  else if r.var = "event".toList then
    match r.first, r.second with
    | some field, none => if field ∈ fixedFields then .fixed else .free
    | _, _ => .free
  else .free

/-- Where the value of an expression comes from: as far outside as its furthest read. -/
def ofExpr (s : InputSources) (expr : Text) : Source :=
  match host.reads expr with
  | .ok reads => Source.furthest (reads.map s.ofRead)
  | .error _ => .free

def ofTemplate (s : InputSources) (template : Text) : Source :=
  let scan := scanInterpolations template
  if scan.unterminated then .free
  else Source.furthest (scan.found.map fun i => s.ofExpr host i.expr)

/-- One bound input, with the sources of the caller its template renders in. -/
def ofBinding (caller : Option InputSources) (b : Binding) : Input :=
  let read := match b.value, caller with
    | .literal _, _ => Source.pipeline
    | .template t, some c => c.ofTemplate host t
    | .template _, none => .free
  match read, b.param with
  | .pipeline, _ => Input.own
  | _, some param => Input.outside param
  | _, none => ⟨.free, none⟩

/-- The sources of a scope, built from its outermost caller in. -/
def ofScope (declared : List ParamSpec) : Scope → InputSources
  | ⟨.run, _, _, _⟩ => run declared
  | ⟨.bound bindings, _, _, none⟩ =>
      let inputs := bindings.map (ofBinding host none)
      ⟨inputs, Source.furthest (inputs.values.map (·.source))⟩
  | ⟨.bound bindings, _, _, some c⟩ =>
      let inputs := bindings.map (ofBinding host (some (ofScope declared c)))
      ⟨inputs, Source.furthest (inputs.values.map (·.source))⟩

def of (declared : List ParamSpec) : Option Scope → InputSources
  | none => run declared
  | some scope => ofScope host declared scope

/-- The shape of the fixed value `expr` reads, when it is that read and nothing else. -/
def shape (s : InputSources) (expr : Text) : Option Shape :=
  match host.path expr with
  | some [var, name] =>
      if var = "inputs".toList then
        match s.inputs.get name with
        | some i => i.options.map Shape.choice
        | none => none
      else if var = "event".toList then
        if name = "sha".toList then some .sha
        else if name = "number".toList || name = "issue".toList then some .whole
        else if name = "fork".toList then some .bool
        else if name = "kind".toList then some .kind
        else none
      else none
  | _ => none

end InputSources

end Scarab.Pipeline
