import Scarab.PipelineInline

/-!
# Compiling a pipeline

Inline every invoke, expand every matrix, fan each reference onto the instances of its target,
and validate the result. Of the checks on the result, those on how steps refer to each other
and on their expressions are modelled; the others only refuse more files.
-/
namespace Scarab.Pipeline

inductive CompileError where
  | parse (why : Text)
  | isLibrary
  | sourceTooLarge (bytes : ℕ)
  | validation (diagnostics : List Diagnostic)
  | cycle (steps : List Text)

/-- The concrete ids each authored id expanded into. -/
abbrev Instances := SortedMap Text (List Text)

structure Expansion where
  steps : List StepSpec
  ids : Instances
  bytes : ℕ
  matrix : MatrixWork
  diagnostics : List Diagnostic

def expandSteps (tc : Toolchain) : List StepSpec → Expansion → Expansion
  | [], e => e
  | step :: rest, e =>
      match expandStep tc step e.matrix with
      | (.error p, matrix) =>
          expandSteps tc rest { e with
            matrix := matrix, diagnostics := e.diagnostics ++ [⟨step.id, .matrix p⟩] }
      | (.ok concrete, matrix) =>
          let e := { e with
            steps := e.steps ++ concrete
            ids := e.ids.insert step.id (concrete.map (·.id))
            bytes := e.bytes + tc.jsonLen step * concrete.length
            matrix := matrix }
          if e.steps.length > maxCompiledSteps then
            { e with diagnostics := e.diagnostics ++ [⟨step.id, .tooManySteps⟩] }
          else if e.bytes > maxCompiledIrBytes then
            { e with diagnostics := e.diagnostics ++ [⟨step.id, .tooLarge⟩] }
          else expandSteps tc rest e

/-- Fan references onto every instance of their targets; an unknown one stays. -/
def fanIn (ids : Instances) (refs : List Text) : List Text :=
  refs.foldl (fun out r =>
    match ids.get r with
    | some concrete => pushAllNew concrete out
    | none => pushNew r out) []

/-- A pipeline step given a scope for an invoke's outputs reads every other need by its id. -/
def scopeNeeds (needs : List Text) (s : Scope) : Scope :=
  match s.inputs with
  | .run => s.withOutputs (needs.foldl (fun o n => o.insertNew n (.step n)) s.outputs)
  | .bound _ => s

def fanStep (ids : Instances) (s : StepSpec) : StepSpec :=
  { s with
    needs := fanIn ids s.needs
    inputs := s.inputs.map (fanIn ids)
    scope := s.scope.map (scopeNeeds (fanIn ids s.needs)) }

def duplicateIds : List Text → List StepSpec → List Diagnostic
  | _, [] => []
  | seen, s :: ss =>
      (if s.id ∈ seen then [⟨s.id, .duplicateId⟩] else []) ++ duplicateIds (s.id :: seen) ss

def stepProblems (host : Host) (ids : List Text) (s : StepSpec) : List Problem :=
  (if s.matrix.isSome then [.notExpanded] else []) ++
    (if s.invoke.isSome then [.notInlined] else []) ++
    ((s.needs.filter (· ∉ ids)).map Problem.unknownNeed) ++
    (((s.inputs.getD []).filter (· ∉ s.needs)).map Problem.inputNotNeeded) ++
    (((s.when_.toList ++ (s.guards.filter (·.callerHops > 0)).map (·.when_)).filterMap fun w =>
      match host.check w with
      | .ok () => none
      | .error e => some (.whenCel e))) ++
    ((templatesOf s).filterMap fun f =>
      match host.checkInterpolation f.2 with
      | .ok () => none
      | .error e => some (.templateCel e))

def validateSteps (host : Host) (steps : List StepSpec) : List Diagnostic :=
  duplicateIds [] steps ++ steps.flatMap fun s =>
    (stepProblems host (steps.map (·.id)) s).map (Diagnostic.mk s.id)

/-- The state of Kahn's algorithm: how many needs of each step are left, and the steps with
none left, the last found first. -/
structure Kahn where
  indegree : SortedMap Text ℕ
  queue : List Text
  removed : ℕ

/-- One need of `dep` is met. -/
def relax (k : Kahn) (dep : Text) : Kahn :=
  let d := (k.indegree.get dep).getD 0 - 1
  { k with
    indegree := k.indegree.insert dep d
    queue := if d = 0 then dep :: k.queue else k.queue }

def removeFree (dependents : SortedMap Text (List Text)) : ℕ → Kahn → Kahn
  | 0, k => k
  | n + 1, k =>
      match k.queue with
      | [] => k
      | node :: rest =>
          removeFree dependents n (((dependents.get node).getD []).foldl relax
            { k with queue := rest, removed := k.removed + 1 })

/-- How many needs each step has. -/
def indegrees (steps : List StepSpec) : SortedMap Text ℕ :=
  steps.foldl (fun m s => m.insert s.id ((m.get s.id).getD 0 + s.needs.length))
    (SortedMap.ofList (steps.map fun s => (s.id, 0)))

/-- The steps that need each step, once for each need. -/
def dependentsOf (steps : List StepSpec) : SortedMap Text (List Text) :=
  steps.foldl (fun m s =>
    s.needs.foldl (fun m n => m.insert n ((m.get n).getD [] ++ [s.id])) m) ∅

/-- The steps on or behind a dependency cycle, when there is one. -/
def findCycle (steps : List StepSpec) : Option (List Text) :=
  let indegree := indegrees steps
  let free := (indegree.entries.filter (·.2 = 0)).map (·.1)
  let k := removeFree (dependentsOf steps) steps.length ⟨indegree, free.reverse, 0⟩
  if k.removed = steps.length then none
  else some ((k.indegree.entries.filter (·.2 > 0)).map (·.1))

def irVersionScoped : ℕ := 3

/-- The compiled pipeline; a step with a scope needs a server that knows scopes. -/
def compiledIr (authored : PipelineIr) (steps : List StepSpec) : PipelineIr :=
  { authored with
    irVersion := if steps.any (·.scope.isSome) then max authored.irVersion irVersionScoped
      else authored.irVersion
    steps := steps }

def compileLibs (tc : Toolchain) (libs : Libraries) (yaml : Text) : Except CompileError PipelineIr :=
  if byteLen yaml > maxSourceBytes then .error (.sourceTooLarge (byteLen yaml))
  else
    match tc.parseYaml yaml with
    | .error why => .error (.parse why)
    | .ok authored =>
        if authored.isLibrary then .error .isLibrary
        else
          match inlineInvokes tc libs authored.steps with
          | (inlined, c) =>
              if !c.diagnostics.isEmpty then .error (.validation c.diagnostics)
              else
                let e := expandSteps tc inlined ⟨[], ∅, 0, c.work.matrix, []⟩
                if !e.diagnostics.isEmpty then .error (.validation e.diagnostics)
                else
                  let ir := compiledIr authored (e.steps.map (fanStep e.ids))
                  if tc.irLen ir > maxCompiledIrBytes then .error (.validation [⟨[], .tooLarge⟩])
                  else
                    let problems := validateSteps tc.toHost ir.steps
                    if !problems.isEmpty then .error (.validation problems)
                    else
                      match findCycle ir.steps with
                      | some cycle => .error (.cycle cycle)
                      | none => .ok ir

/-- Whether every guard of an inlined step holds, outermost first. -/
def guardsHold (host : Host) (ctx : Ctx) (params : SortedMap Text Json) (step : StepSpec) :
    List Guard → Except RenderError Bool
  | [] => .ok true
  | g :: gs =>
      match step.scope.bind (·.at_ g.callerHops) with
      | none => .error .noCaller
      | some scope =>
          let holds : Except RenderError Bool := match scope.inputs with
            | .run =>
                match host.evalBool g.when_ ctx with
                | .ok b => .ok b
                | .error e => .error (.cel e)
            | .bound _ => guardHolds host g.when_ scope params
          match holds with
          | .error e => .error e
          | .ok false => .ok false
          | .ok true => guardsHold host ctx params step gs

/-- Whether a step runs: by its own `when:`, or an inlined one by its guards. -/
def stepIncluded (host : Host) (ctx : Ctx) (params : SortedMap Text Json) (step : StepSpec) :
    Except RenderError Bool :=
  if step.origin.isEmpty then
    match step.when_ with
    | none => .ok true
    | some w =>
        match host.evalBool w ctx with
        | .ok b => .ok b
        | .error e => .error (.cel e)
  else guardsHold host ctx params step step.guards.reverse

/-- The steps a run leaves out. -/
def excludedSteps (host : Host) (ctx : Ctx) (params : SortedMap Text Json) :
    List StepSpec → Except RenderError (List Text)
  | [] => .ok []
  | s :: ss => do
      let included ← stepIncluded host ctx params s
      let rest ← excludedSteps host ctx params ss
      .ok (if included then rest else s.id :: rest)

end Scarab.Pipeline
