import Scarab.PipelineImages
import Scarab.PipelineScopes

/-!
# Rendering a step's templates

`bind` builds the values a scope's templates read, a caller's templates first; `render` turns
a step's templates into text, at launch or as a preview when the run is created.
-/
namespace Scarab.Pipeline

/-- The results of a launching step's needs, by step id, then result name. -/
abbrev Results := SortedMap Text (SortedMap Text Json)

inductive RenderError where
  | noCaller
  | input (name : Text) (e : CelError)
  | inputUntyped (name : Text)
  | inputRefused (name : Text) (e : ParamError)
  | notImage (image : Text)
  | freeText (index : ℕ) (shown : Text)
  | notFixed (index : ℕ) (shown : Text) (v : Json) (shape : Option Shape)
  | cel (e : CelError)

/-- How `bind` treats a value that is not known. -/
inductive Mode where
  | launch
  | guard
  | preview
deriving DecidableEq

/-- Which names of a scope have a value; `none` when every input has one. -/
structure Known where
  inputs : Option (List Text)
  outputs : Bool
deriving DecidableEq

namespace Known

def coversRead (k : Known) (r : Read) : Bool :=
  if r.var = "matrix".toList || r.var = "event".toList then true
  else if r.var = "outputs".toList then k.outputs
  else if r.var = "inputs".toList then
    match k.inputs, r.first with
    | none, _ => true
    | some have_, some name => decide (name ∈ have_)
    | some _, none => false
  else false

/-- Whether every read of `expr` has a value. -/
def covers (host : Host) (k : Known) (expr : Text) : Bool :=
  match host.reads expr with
  | .ok reads => reads.all k.coversRead
  | .error _ => false

def coversTemplate (host : Host) (k : Known) (template : Text) : Bool :=
  let scan := scanInterpolations template
  !scan.unterminated && scan.found.all fun i => k.covers host i.expr

end Known

/-- A scope's values: the context its templates render in. -/
structure Bound where
  ctx : Ctx
  known : Known
  inputs : SortedMap Text Json

def objectOf (m : SortedMap Text Json) : Json := .object m.entries

def coordinate (m : SortedMap Text Text) : Json := objectOf (m.map Json.string)

section bind

variable (host : Host)

/-- The value of a caller's template for one input: typed when the template is one expression,
text otherwise, then converted to the input's declared type and checked. -/
def templateValue (ctx : Ctx) (name : Text) (binding : Binding) (template : Text) :
    Except RenderError Json := do
  let raw ← match exactExpr template with
    | some expr =>
        match host.eval expr ctx with
        | .ok v => .ok v
        | .error e => .error (.input name e)
    | none =>
        match host.interpolate template ctx with
        | .ok text => .ok (.string text)
        | .error e => .error (.input name e)
  match binding.param with
  | none => .error (.inputUntyped name)
  | some param =>
      match resolveOne host param raw with
      | .ok v => .ok v
      | .error e => .error (.inputRefused name e)

/-- The value of one bound input; `none` leaves it without one. -/
def bindInput (mode : Mode) (caller : Option Bound) (name : Text) (binding : Binding) :
    Except RenderError (Option Json) :=
  match binding.value, caller with
  | .literal v, _ => .ok (some v)
  | .template _, none => .ok none
  | .template t, some caller =>
      if mode ≠ .launch ∧ caller.known.coversTemplate host t = false then .ok none
      else
        match templateValue host caller.ctx name binding t with
        | .ok v => .ok (some v)
        | .error e => if mode = .preview then .ok none else .error e

/-- What `outputs.<name>` is for one source, given the results. -/
def outputValue (results : Results) : OutputSource → Option Json
  | .step id => (results.get id).map objectOf
  | .invoke exposed =>
      some (.object (exposed.entries.filterMap fun e =>
        ((results.get e.2).bind fun r => r.get e.1).map fun v => (e.1, v)))

/-- The `outputs` a scope sees. -/
def scopeOutputs (results : Results) (outputs : SortedMap Text OutputSource) : Json :=
  .object (outputs.entries.filterMap fun e => (outputValue results e.2).map fun v => (e.1, v))

def hasTemplate (bindings : SortedMap Text Binding) : Bool :=
  bindings.values.any fun b => match b.value with
    | .template _ => true
    | .literal _ => false

/-- The bound values with everything else the scope reads. -/
def boundOf (inputs : SortedMap Text Json) (known : Option (List Text))
    (matrix : SortedMap Text Text) (event : SortedMap Text Json)
    (outputs : Option Json) (outputsKnown : Bool) : Bound :=
  let ctx : Ctx := (∅ : Ctx).insert "event".toList (objectOf event)
  let ctx := match outputs with
    | some o => ctx.insert "outputs".toList o
    | none => ctx
  { ctx := (ctx.insert "inputs".toList (objectOf inputs)).insert "matrix".toList (coordinate matrix)
    known := ⟨known, outputsKnown⟩
    inputs := inputs }

/-- Build a scope's values. A caller's template renders in the caller's scope. -/
def bindScope (params event : SortedMap Text Json) (results : Option Results) (mode : Mode) :
    Scope → Except RenderError Bound
  | ⟨.run, outputs, matrix, _⟩ =>
      .ok (boundOf params none matrix event (results.map fun r => scopeOutputs r outputs)
        results.isSome)
  | ⟨.bound bindings, outputs, matrix, none⟩ => do
      if hasTemplate bindings && mode ≠ .preview then .error .noCaller
      else
        let values ← bindings.filterMapM (bindInput host mode none)
        .ok (boundOf values (some values.keys) matrix event
          (results.map fun r => scopeOutputs r outputs) results.isSome)
  | ⟨.bound bindings, outputs, matrix, some c⟩ => do
      let caller ←
        if hasTemplate bindings then
          match bindScope params event results mode c with
          | .ok b => .ok (some b)
          | .error e => if mode = .preview then .ok none else .error e
        else .ok none
      let values ← bindings.filterMapM (bindInput host mode caller)
      .ok (boundOf values (some values.keys) matrix event
        (results.map fun r => scopeOutputs r outputs) results.isSome)

/-- The `outputs` of a step written in the pipeline file: each need that has results. -/
def runOutputs (results : Option Results) : Json :=
  .object (((results.getD ∅).entries.filter fun e => e.2.entries ≠ []).map
    fun e => (e.1, objectOf e.2))

def bind (scope : Option Scope) (matrixValues : SortedMap Text Text)
    (params event : SortedMap Text Json) (results : Option Results) (mode : Mode) :
    Except RenderError Bound :=
  match scope with
  | none =>
      .ok (boundOf params none matrixValues event (some (runOutputs results)) results.isSome)
  | some scope => bindScope host params event results mode scope

end bind

def isSha (s : Text) : Bool :=
  (s.length = 40 || s.length = 64) && s.all fun c => c.isDigit || ('a' ≤ c && c ≤ 'f')

/-- Digits, with at most one point between digits: no sign, no exponent. -/
def isDecimal (text : Text) : Bool :=
  match splitOnce ['.'] text with
  | some (whole, frac) => isDigits whole && isDigits frac
  | none => isDigits text

/-- The text of a fixed-type value from outside, where it has its shape. -/
def fixedText (v : Json) (shape : Option Shape) : Option Text :=
  match shape, v with
  | some .sha, .string s => if isSha s then some s else none
  | some .sha, _ => none
  | some .whole, .number n => if n.asU64.isSome then some n.text else none
  | some .whole, _ => none
  | some .bool, .bool b => some (boolText b)
  | some .bool, _ => none
  | some .kind, .string s => if s ∈ triggerKinds then some s else none
  | some .kind, _ => none
  | _, .bool b => some (boolText b)
  | _, .number n => if isDecimal n.text then some n.text else none
  | some (.choice options), .string s => if s ∈ options then some s else none
  | _, _ => none

section command

variable (host : Host)

/-- The text one expression of argument `index` renders to; `value` gives `none` for a value
that is not known yet. -/
def argumentPiece (sources : InputSources) (value : Text → Except RenderError (Option Json))
    (index : ℕ) (i : Interpolation) : Except RenderError Text :=
  match sources.ofExpr host i.expr with
  | .free => .error (.freeText index i.outer)
  | source =>
      match value i.expr with
      | .error e => .error e
      | .ok none => .ok i.outer
      | .ok (some v) =>
          if source = .fixed then
            match fixedText v (sources.shape host i.expr) with
            | some text => .ok text
            | none => .error (.notFixed index i.outer v (sources.shape host i.expr))
          else .ok (renderValue v)

def argumentPieces (sources : InputSources) (value : Text → Except RenderError (Option Json))
    (index : ℕ) : List Interpolation → Except RenderError Text
  | [] => .ok []
  | i :: is => do
      let text ← argumentPiece host sources value index i
      let tail ← argumentPieces sources value index is
      .ok (i.before ++ text ++ tail)

/-- One argument; `strict` refuses an expression with no closing braces. -/
def argument (sources : InputSources) (strict : Bool)
    (value : Text → Except RenderError (Option Json)) (index : ℕ) (template : Text) :
    Except RenderError Text := do
  let scan := scanInterpolations template
  let text ← argumentPieces host sources value index scan.found
  if strict && scan.unterminated then .error (.cel (.unterminated template))
  else .ok (text ++ scan.rest)

def argumentsFrom (sources : InputSources) (strict : Bool)
    (value : Text → Except RenderError (Option Json)) :
    ℕ → List Text → Except RenderError (List Text)
  | _, [] => .ok []
  | index, template :: rest => do
      let arg ← argument host sources strict value index template
      let args ← argumentsFrom sources strict value (index + 1) rest
      .ok (arg :: args)

def arguments (command : List Text) (sources : InputSources) (strict : Bool)
    (value : Text → Except RenderError (Option Json)) : Except RenderError (List Text) :=
  argumentsFrom host sources strict value 0 command

end command

structure Templates where
  image : Text
  command : List Text
  env : List (Text × Text)

structure Rendered where
  image : Text
  command : List Text
  env : List (Text × Text)
deriving DecidableEq

inductive Facts where
  | launch (params : SortedMap Text Json) (declared : List ParamSpec) (results : Results)
      (event : SortedMap Text Json)
  | preview (params : SortedMap Text Json) (declared : List ParamSpec)
      (event : SortedMap Text Json)

section render

variable (host : Host)

/-- One expression of a preview: as it would render at launch when all it reads is known, as
written otherwise. -/
def previewPiece (bound : Bound) (i : Interpolation) : Text :=
  if bound.known.covers host i.expr then
    match host.eval i.expr bound.ctx with
    | .ok v => renderValue v
    | .error _ => i.outer
  else i.outer

/-- A template as far as its values are known. -/
def previewText (bound : Bound) (template : Text) : Text :=
  let scan := scanInterpolations template
  scan.found.flatMap (fun i => i.before ++ previewPiece host bound i) ++ scan.rest

def previewOf (bound : Except RenderError Bound) (template : Text) : Text :=
  match bound with
  | .ok b => previewText host b template
  | .error _ => template

/-- Whether the container runtime may be handed this image; an empty one runs nothing. -/
def acceptsImage (image : Text) : Bool := image = [] || isImageReference image

def renderEnv (ctx : Ctx) : List (Text × Text) → Except RenderError (List (Text × Text))
  | [] => .ok []
  | e :: es =>
      match host.interpolate e.2 ctx with
      | .error x => .error (.cel x)
      | .ok v => do
          let rest ← renderEnv ctx es
          .ok ((e.1, v) :: rest)

/-- The variables that carry a step's inputs. -/
def paramEnv (inputs : SortedMap Text Json) : List (Text × Text) :=
  inputs.entries.map fun e => ("SCARAB_PARAM_".toList ++ e.1.map Char.toUpper, renderValue e.2)

def renderLaunch (templates : Templates) (scope : Option Scope)
    (matrixValues : SortedMap Text Text) (params : SortedMap Text Json)
    (declared : List ParamSpec) (results : Results) (event : SortedMap Text Json) :
    Except RenderError Rendered := do
  let bound ← bind host scope matrixValues params event (some results) .launch
  let image ← match host.interpolate templates.image bound.ctx with
    | .ok image => .ok image
    | .error e => .error (.cel e)
  if !acceptsImage image then .error (.notImage image)
  else
    let command ← arguments host templates.command (InputSources.of host declared scope) true
      fun expr => match host.eval expr bound.ctx with
        | .ok v => .ok (some v)
        | .error e => .error (.cel e)
    let env ← renderEnv host bound.ctx templates.env
    .ok ⟨image, command, paramEnv bound.inputs ++ env⟩

def renderPreview (templates : Templates) (scope : Option Scope)
    (matrixValues : SortedMap Text Text) (params : SortedMap Text Json)
    (declared : List ParamSpec) (event : SortedMap Text Json) : Except RenderError Rendered := do
  let bound := bind host scope matrixValues params event none .preview
  let command ← arguments host templates.command (InputSources.of host declared scope) false
    fun expr => .ok <| match bound with
      | .ok b =>
          if b.known.covers host expr then (host.eval expr b.ctx).toOption else none
      | .error _ => none
  let image := previewOf host bound templates.image
  .ok ⟨if acceptsImage image then image else templates.image, command,
    templates.env.map fun e => (e.1, previewOf host bound e.2)⟩

/-- Render a step's templates in its scope (`none`: a step written in the pipeline file). -/
def render (templates : Templates) (scope : Option Scope) (matrixValues : SortedMap Text Text) :
    Facts → Except RenderError Rendered
  | .launch params declared results event =>
      renderLaunch host templates scope matrixValues params declared results event
  | .preview params declared event =>
      renderPreview host templates scope matrixValues params declared event

/-- The image a step will launch with, as far as run creation knows it. -/
def previewImage (image : Text) (scope : Option Scope) (matrixValues : SortedMap Text Text)
    (params event : SortedMap Text Json) : Text :=
  match render host ⟨image, [], []⟩ scope matrixValues (.preview params [] event) with
  | .ok r => r.image
  | .error _ => image

/-- A guard of a library step, evaluated when the run is created. -/
def guardHolds (expr : Text) (scope : Scope) (params : SortedMap Text Json) :
    Except RenderError Bool := do
  let bound ← bind host (some scope) ∅ params ∅ none .guard
  match host.evalBool expr (bound.ctx.remove "outputs".toList) with
  | .ok b => .ok b
  | .error e => .error (.cel e)

end render

end Scarab.Pipeline
