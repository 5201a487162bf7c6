import Scarab.PipelineReads

/-!
# The interface of an invoke target

The inputs a library or a plugin gate declares must be well formed, and what an invoke step
passes and what its siblings read must fit them.
-/
namespace Scarab.Pipeline

def isIdentifier : Text → Bool
  | [] => false
  | c :: cs => (c.isAlpha || c = '_') && cs.all fun d => d.isAlphanum || d = '_'

section specs

variable (host : Host)

def checkDefault (p : ParamSpec) : List ParamSpecProblem :=
  match p.type, p.options, p.default with
  | .choice, none, _ => [.choiceWithoutOptions]
  | .choice, some [], _ => [.choiceWithoutOptions]
  | .choice, some _, none => []
  | .choice, some options, some (.string s) => if s ∈ options then [] else [.defaultNotOption]
  | .choice, some _, some _ => [.defaultNotString]
  | _, _, none => []
  | type, _, some d =>
      match coerce host d type with
      | .ok _ => []
      | .error e => [.defaultType e]

/-- A default must pass its own `validate:`. -/
def checkDefaultValidate (p : ParamSpec) (expr : Text) : List ParamSpecProblem :=
  match host.check expr with
  | .error e => [.validateCel e]
  | .ok () =>
      match p.default with
      | none => []
      | some d =>
          match coerce host d p.type with
          | .error _ => []
          | .ok v =>
              match host.evalBool expr (SortedMap.empty.insert "value".toList v) with
              | .ok true => []
              | .ok false => [.defaultFailsValidate]
              | .error e => [.validateCel e]

def checkParamSpec (seen : List Text) (p : ParamSpec) : List ParamSpecProblem :=
  (if isIdentifier p.name then [] else [.notIdentifier]) ++
    (if p.name ∈ seen then [.duplicate] else []) ++
    (if p.required && p.default.isSome then [.requiredWithDefault] else []) ++
    (if !p.required && p.default.isNone then [.optionalWithoutDefault] else []) ++
    checkDefault host p ++
    match p.validate with
    | none => []
    | some expr => checkDefaultValidate host p expr

/-- The form of declared parameters. -/
def validateParamSpecs : List Text → List ParamSpec → List Problem
  | _, [] => []
  | seen, p :: ps =>
      (checkParamSpec host seen p).map (Problem.param p.name) ++ validateParamSpecs (p.name :: seen) ps

end specs

/-- An invoke step's `with:` against the inputs its target declares. -/
def checkWith (host : Host) (step : StepSpec) (inputs : List ParamSpec) : List Problem :=
  (inputs.flatMap fun p =>
    match step.with_.get p.name with
    | none => if p.required then [.missingInput p.name] else []
    | some raw =>
        if containsText openBraces raw then []
        else
          match resolveOne host p (.string raw) with
          | .ok _ => []
          | .error e => [.badInput p.name e]) ++
    (step.with_.keys.filter fun k => !inputs.any (·.name = k)).map Problem.unknownInput

/-- Each input a step with a forge credential reads in its templates. -/
def forgeTokenInputReads (host : Host) (lib : PipelineIr) : List (Text × Text) :=
  (lib.steps.filter StepSpec.hasForgeToken).flatMap fun step =>
    (templatesOf step).flatMap fun f =>
      (scanInterpolations f.2).found.flatMap fun i =>
        match host.reads i.expr with
        | .error _ => []
        | .ok reads => (reads.filter (·.var = "inputs".toList)).flatMap fun r =>
            match r.first with
            | some name => [(name, step.id)]
            | none => lib.interface.inputs.map fun p => (p.name, step.id)

/-- The result fields a sibling reads of an invoke step's outputs. -/
def outputFields (host : Host) (invokeId : Text) (t : StepSpec) : List Text :=
  ((templatesOf t).map (·.2) ++ t.with_.values).flatMap fun text =>
    (scanInterpolations text).found.flatMap fun i =>
      match host.reads i.expr with
      | .error _ => []
      | .ok reads => reads.filterMap fun r =>
          if r.var = "outputs".toList && r.first = some invokeId then r.second else none

/-- An invoke step against its library's interface. -/
def validateInterface (host : Host) (step : StepSpec) (lib : PipelineIr)
    (siblings : List StepSpec) : List Problem :=
  let iface := lib.interface
  validateParamSpecs host [] iface.inputs ++
    ((iface.inputs.filter fun p => p.default.any fun d => containsText openBraces d.text).map
      fun p => .param p.name .defaultTemplate) ++
    ((forgeTokenInputReads host lib).filterMap fun r =>
      match iface.inputs.find? (·.name = r.1) with
      | some p =>
          if p.type = .string && p.validate.isNone then some (.param p.name (.forgeString r.2))
          else none
      | none => none) ++
    checkWith host step iface.inputs ++
    (iface.outputs.flatMap fun o =>
      (if o.type = .string then [] else [.typedOutput o.name]) ++
        if lib.steps.any (·.id = o.name) then [] else [.noOutputStep o.name]) ++
    ((siblings.filter (·.id ≠ step.id)).flatMap fun t =>
      (outputFields host step.id t).flatMap fun field =>
        if step.matrix.isSome then [.matrixedOutput field]
        else if !iface.outputs.any (·.name = field) then [.undeclaredOutput field]
        else if step.id ∉ t.needs then [.outputWithoutNeeds field]
        else [])

end Scarab.Pipeline
