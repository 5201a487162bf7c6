import Scarab.PipelineMatrix

/-!
# What the templates of a file read

The reads of a template or a `when:` are checked against the level of invoke nesting it is
written at, and turned into the `outputs` its step sees and the steps it needs for them.
-/
namespace Scarab.Pipeline

/-- The scope that templates written at one level read. -/
structure Level where
  scope : Scope
  /-- The library inlined here, as messages name it, and the inputs it declares. -/
  library : Option (Text × List ParamSpec)
  /-- The inputs bound to a template that reads `outputs`, through any number of callers. -/
  late : List Text

inductive Written where
  | template
  | guard
deriving DecidableEq

/-- The `outputs.<name>` reads of templates, each with the result read when it is a constant. -/
abbrev OutputNames := List (Text × Option Text)

structure CheckedReads where
  outputs : OutputNames
  problems : List ReadProblem

namespace CheckedReads

def none : CheckedReads := ⟨[], []⟩

def append (a b : CheckedReads) : CheckedReads := ⟨a.outputs ++ b.outputs, a.problems ++ b.problems⟩

end CheckedReads

/-- The late input a read of `inputs` reaches. -/
def lateRead (late : List Text) (first : Option Text) : Option Text :=
  match first with
  | some name => if name ∈ late then some name else none
  | none => late.head?

def undeclaredRead (library : Option (Text × List ParamSpec)) (first : Option Text) :
    Option Text :=
  match library, first with
  | some (_, declared), some name =>
      if declared.any (·.name = name) then none else some name
  | _, _ => none

/-- Check one read of a template or `when:` written at `level`. -/
def checkRead (written : Written) (level : Level) (r : Read) : CheckedReads :=
  if r.var = "inputs".toList then
    let undeclared := (undeclaredRead level.library r.first).toList.map ReadProblem.undeclaredInput
    let late := if written = .guard then
        (lateRead level.late r.first).toList.map ReadProblem.lateInput
      else []
    ⟨[], undeclared ++ late⟩
  else if r.var = "outputs".toList then
    if written = .guard then ⟨[], [.guardReadsOutputs]⟩
    else
      match r.first with
      | some name => ⟨[(name, r.second)], []⟩
      | none => ⟨[], [.computedOutput]⟩
  else .none

/-- An expression that does not parse is reported elsewhere. -/
def checkExprReads (host : Host) (written : Written) (level : Level) (expr : Text) : CheckedReads :=
  match host.reads expr with
  | .ok reads => reads.foldl (fun acc r => acc.append (checkRead written level r)) .none
  | .error _ => .none

/-- The expressions of a template, or a `when:` itself. -/
def writtenExprs (written : Written) (text : Text) : List Text :=
  match written with
  | .guard => [text]
  | .template => (scanInterpolations text).found.map (·.expr)

def checkReads (host : Host) (written : Written) (level : Level) (text : Text) : CheckedReads :=
  (writtenExprs written text).foldl
    (fun acc e => acc.append (checkExprReads host written level e)) .none

/-- Whether a read reaches an input of `late`. -/
def readsLate (late : List Text) (r : Read) : Bool :=
  r.var = "inputs".toList && match r.first with
    | some name => decide (name ∈ late)
    | none => true

def readsLateInputs (host : Host) (template : Text) (late : List Text) : Bool :=
  late ≠ [] && (scanInterpolations template).found.any fun i =>
    match host.reads i.expr with
    | .ok reads => reads.any (readsLate late)
    | .error _ => false

/-- What each invoke step exposes: its outputs, or `none` when they cannot be read. -/
abbrev Exposed := SortedMap Text (Option (List Text))

def invokeView (name : Text) (outs : List Text) : OutputSource :=
  .invoke (SortedMap.ofList (outs.map fun o => (o, name ++ '/' :: o)))

/-- The exposed outputs of `name` that a read of `field` reaches, as backing step ids. -/
def backingIds (name : Text) (field : Option Text) (outs : List Text) : List Text :=
  (outs.filter fun o => field.all (· = o)).map fun o => name ++ '/' :: o

def pushNew (n : Text) (ns : List Text) : List Text := if n ∈ ns then ns else ns ++ [n]

def pushAllNew (new ns : List Text) : List Text := new.foldl (fun acc n => pushNew n acc) ns

/-- Whether `name` is the step's id or the id of one of its instances. -/
def namesStep (name : Text) (s : StepSpec) : Bool :=
  name = s.id || (s.id.isPrefixOf name && (name.drop s.id.length).head? = some '[')

structure OutputView where
  view : SortedMap Text OutputSource
  needs : List Text
  problems : List Problem

/-- Add what one `outputs.<name>` read sees at a level. -/
def viewRead (siblings : List StepSpec) (exposed : Exposed) (needs : List Text) (acc : OutputView)
    (read : Text × Option Text) : OutputView :=
  match exposed.get read.1 with
  | some none => acc
  | some (some outs) =>
      { acc with
        view := acc.view.insert read.1 (invokeView read.1 outs)
        needs := pushAllNew (backingIds read.1 read.2 outs) acc.needs }
  | none =>
      match siblings.find? fun s => s.invoke.all isPluginInvoke && namesStep read.1 s with
      | none => { acc with problems := acc.problems ++ [.readsUnknown read.1] }
      | some s =>
          { view := acc.view.insert read.1 (.step read.1)
            needs := pushNew s.id acc.needs
            problems := if s.id ∈ needs then acc.problems
              else acc.problems ++ [.readsUnneeded s.id] }

/-- The `outputs` view of a template's reads: each name is a sibling step or a sibling invoke's
exposed outputs. -/
def outputView (reads : OutputNames) (siblings : List StepSpec) (exposed : Exposed)
    (needs : List Text) : OutputView :=
  reads.foldl (viewRead siblings exposed needs) ⟨∅, [], []⟩

structure BoundWith where
  bindings : SortedMap Text Binding
  late : List Text
  callerView : SortedMap Text OutputSource
  withNeeds : List Text
  problems : List Problem

/-- One input as the invoke step binds it. -/
structure BoundInput where
  binding : Option Binding
  late : Bool
  reads : OutputNames
  problems : List Problem
  unresolved : Bool

namespace BoundInput

def missing : BoundInput := ⟨none, false, [], [], false⟩

def unresolvable : BoundInput := ⟨none, false, [], [], true⟩

def literal (v : Json) : BoundInput := ⟨some (.literal v), false, [], [], false⟩

end BoundInput

def bindOne (host : Host) (level : Level) (with_ : SortedMap Text Text) (p : ParamSpec) :
    BoundInput :=
  match with_.get p.name with
  | some raw =>
      if containsText openBraces raw then
        match host.checkInterpolation raw with
        | .error e => { BoundInput.missing with problems := [.withTemplate p.name e] }
        | .ok () =>
            let checked := checkReads host .template level raw
            { binding := some (.template raw p)
              late := checked.outputs ≠ [] || readsLateInputs host raw level.late
              reads := checked.outputs
              problems := checked.problems.map (Problem.read p.name)
              unresolved := false }
      else
        match resolveOne host p (.string raw) with
        | .ok v => .literal v
        | .error _ => .unresolvable
  | none =>
      match p.default with
      | some d =>
          match resolveOne host p d with
          | .ok v => .literal v
          | .error _ => .unresolvable
      | none => .missing

/-- Bind the inputs an invoke target declares from the step's `with:`. -/
def bindWith (host : Host) (step : StepSpec) (inputs : List ParamSpec) (level : Level)
    (siblings : List StepSpec) (exposed : Exposed) (clean : Bool) : BoundWith :=
  let bound := inputs.map fun p => (p.name, bindOne host level step.with_ p)
  let problems := bound.flatMap (·.2.problems)
  let unresolved := (bound.filter (·.2.unresolved)).map (·.1)
  let view := outputView (bound.flatMap (·.2.reads)) siblings exposed step.needs
  { bindings := SortedMap.ofList (bound.filterMap fun b => b.2.binding.map fun d => (b.1, d))
    late := (bound.filter (·.2.late)).map (·.1)
    callerView := view.view
    withNeeds := view.needs
    problems := problems ++
      (if unresolved ≠ [] && clean && problems = [] then [.unresolvedInputs unresolved] else []) ++
      view.problems }

def templatesOf (step : StepSpec) : List (Text × Text) :=
  ("image".toList, step.image) :: step.command.map (("command".toList, ·)) ++
    step.env.map fun e => ("env".toList, e.2)

/-- The expressions of a text. One that does not end runs to the end of the text. -/
def expressionsOf (text : Text) : List Text :=
  let scan := scanInterpolations text
  scan.found.map (·.expr) ++
    (if scan.unterminated then (splitOnce openBraces scan.rest).map (trim ·.2) else none).toList

/-- The reads of `inputs` in the fields of a library step that are not rendered when it launches:
they would reach the step as text. -/
def uninterpolatedInputReads (host : Host) (step : StepSpec) : List Problem :=
  step.unrendered.flatMap fun f =>
    ((expressionsOf f.2).filter fun e => decide ("inputs".toList <:+: e)).filterMap fun e =>
      match host.reads e with
      | .ok reads => if reads.any (·.var = "inputs".toList) then some (.unrenderedRead f.1) else none
      | .error err => some (.uncheckedRead f.1 err)

/-- Give a step written in a library its scope, its own `when` as a guard, and the steps whose
outputs it reads as needs. -/
def libraryStepScope (host : Host) (step : StepSpec) (level : Level) (siblings : List StepSpec)
    (exposed : Exposed) : StepSpec × List Problem :=
  let checked := (templatesOf step).map fun f => (f.1, checkReads host .template level f.2)
  let guard := match step.when_ with
    | some w => (checkReads host .guard level w).problems.map (Problem.read "when".toList)
    | none => []
  let view := outputView (checked.flatMap (·.2.outputs)) siblings exposed step.needs
  ({ step with
      guards := step.guards ++ (step.when_.map fun w => ⟨0, w⟩).toList
      needs := pushAllNew view.needs step.needs
      scope := some (level.scope.withOutputs view.view) },
    checked.flatMap (fun f => f.2.problems.map (Problem.read f.1)) ++ guard ++
      uninterpolatedInputReads host step ++ view.problems)

/-- The `outputs.<invoke>` reads of a step written in the pipeline file. -/
def invokeReads (host : Host) (step : StepSpec) (exposed : Exposed) :
    List (Text × Option Text × List Text) :=
  ((templatesOf step).map (·.2) ++ step.with_.values).flatMap fun text =>
    (scanInterpolations text).found.flatMap fun i =>
      match host.reads i.expr with
      | .error _ => []
      | .ok reads => reads.filterMap fun r =>
          if r.var = "outputs".toList then
            r.first.bind fun name => ((exposed.get name).join).map fun outs => (name, r.second, outs)
          else none

/-- Give a step written in the pipeline file a scope when it reads an invoke's output. -/
def invokeOutputScope (host : Host) (step : StepSpec) (exposed : Exposed) : StepSpec :=
  match invokeReads host step exposed with
  | [] => step
  | reads =>
      { step with
        needs := pushAllNew (reads.flatMap fun r => backingIds r.1 r.2.1 r.2.2) step.needs
        scope := some (Scope.run.withOutputs
          (SortedMap.ofList (reads.map fun r => (r.1, invokeView r.1 r.2.2)))) }

end Scarab.Pipeline
