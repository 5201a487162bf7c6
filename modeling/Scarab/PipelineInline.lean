import Scarab.PipelineInterface

/-!
# Inlining `invoke:` steps

A level's steps become a flat list: a step that runs keeps its id, and an invoke step is
replaced by copies of its library's steps, named under it. References to the invoke step move
to the leaves of each copy.
-/
namespace Scarab.Pipeline

def maxInvokeDepth : ℕ := 8
def maxInvokeExpansions : ℕ := maxInvokeDepth * maxCompiledSteps
def maxInlineDiagnostics : ℕ := 100
def maxSourceBytes : ℕ := 2 ^ 20
def maxLibrarySourceBytes : ℕ := 16 * 2 ^ 20

/-- A parsed library and its content hash, or why it cannot be used. -/
inductive Parsed where
  | library (ir : PipelineIr) (contentHash : Text)
  | failed (why : Text)
  | overBudget

/-- What one compile has parsed, by target as written, and the matrices it has expanded. -/
structure Work where
  full : SortedMap Text Parsed
  exposed : SortedMap Text (Option (List Text))
  admitted : List Text
  bytes : ℕ
  matrix : MatrixWork

structure Compile where
  work : Work
  expansions : ℕ
  stopped : Bool
  diagnostics : List Diagnostic

namespace Compile

def start : Compile := ⟨⟨∅, ∅, [], 0, ⟨0, 0⟩⟩, 0, false, []⟩

def report (c : Compile) (step : Text) (problems : List Problem) : Compile :=
  { c with diagnostics := c.diagnostics ++ problems.map (Diagnostic.mk step) }

def push (c : Compile) (step : Text) (problem : Problem) : Compile := c.report step [problem]

/-- Stop, saying why, unless already stopped. -/
def stop (c : Compile) (step : Text) (problem : Problem) : Compile :=
  if c.stopped then c else { c.push step problem with stopped := true }

/-- Whether to stop before the next step. -/
def spent (c : Compile) : Compile :=
  if c.diagnostics.length ≥ maxInlineDiagnostics then c.stop [] .tooManyProblems else c

end Compile

namespace Work

/-- Whether a library's source fits with those read before, and the account after. -/
def admitSource (w : Work) (written src : Text) : Bool × Work :=
  if written ∈ w.admitted then (true, w)
  else if w.bytes + byteLen src > maxLibrarySourceBytes then (false, w)
  else (true, { w with bytes := w.bytes + byteLen src, admitted := written :: w.admitted })

/-- A library, parsed once per compile. -/
def parse (tc : Toolchain) (w : Work) (written src : Text) : Parsed × Work :=
  match w.full.get written with
  | some done => (done, w)
  | none =>
      let (fits, w) := w.admitSource written src
      let done := if !fits then Parsed.overBudget
        else
          match tc.parseYaml src with
          | .ok ir => .library ir (tc.sha256Hex src)
          | .error why => .failed why
      (done, { w with full := w.full.insert written done })

/-- The outputs a library's interface exposes, read once per compile. -/
def exposedOf (tc : Toolchain) (w : Work) (written src : Text) : Option (List Text) × Work :=
  match w.exposed.get written with
  | some done => (done, w)
  | none =>
      let (fits, w) := w.admitSource written src
      let done := if fits then (tc.parseInterface src).map fun i => i.outputs.map (·.name) else none
      (done, { w with exposed := w.exposed.insert written done })

end Work

/-- The source text of a library target. -/
def Libraries.sourceOf (libs : Libraries) : InvokeTarget → Option Text
  | .file path => libs.files.get path
  | .lib name => (libs.installed.get name).map (·.content)
  | .plugin _ => none

/-- What one invoke step exposes, when it can be read. -/
def exposedStep (tc : Toolchain) (libs : Libraries) (s : StepSpec) (raw : Text) (w : Work) :
    Option (List Text) × Work :=
  if s.matrix.isSome then (none, w)
  else
    match parseInvokeTarget raw with
    | .error _ => (none, w)
    | .ok target =>
        match libs.sourceOf target with
        | none => (none, w)
        | some src =>
            if byteLen src > maxSourceBytes then (none, w) else w.exposedOf tc target.written src

/-- What each invoke step of a level exposes. -/
def exposedOutputs (tc : Toolchain) (libs : Libraries) : List StepSpec → Work → Exposed × Work
  | [], w => (∅, w)
  | s :: ss, w =>
      match s.invoke with
      | none => exposedOutputs tc libs ss w
      | some raw =>
          if isPluginInvoke raw then exposedOutputs tc libs ss w
          else
            let (outs, w) := exposedStep tc libs s raw w
            let (rest, w) := exposedOutputs tc libs ss w
            (if rest.contains s.id then rest else rest.insert s.id outs, w)

/-- The id of a library's step under its invoke step's id. -/
def ns (pre id : Text) : Text := pre ++ '/' :: id

/-- A reference of a library step: a sibling moves under the invoke step, any other stays. -/
def namespaceRef (pre : Text) (inside : List Text) (r : Text) : Text :=
  if r ∈ inside then ns pre r else r

def namespaceSource (pre : Text) : OutputSource → OutputSource
  | .step id => .step (ns pre id)
  | .invoke exposed => .invoke (exposed.map (ns pre))

/-- Move the step ids a scope's `outputs` view names under the invoke step. -/
def namespaceView (pre : Text) (s : Scope) : Scope := s.withOutputs (s.outputs.map (namespaceSource pre))

abbrev Seam := SortedMap Text (List Text)

/-- Move references to an invoke step onto its leaves. -/
def rewriteThroughSeam (seam : Seam) (refs : List Text) : List Text :=
  refs.foldl (fun out r =>
    match seam.get r with
    | some leaves => pushAllNew leaves out
    | none => pushNew r out) []

def pluginFieldProblems (step : StepSpec) : List Problem :=
  (if step.gateExpiresAfter.isNone then [.plugin "gate_expires_after".toList] else []) ++
    (if step.timeout.isSome then [.plugin "timeout".toList] else []) ++
    (if step.cpuMillis.isSome || step.memoryMib.isSome then [.plugin "resources".toList] else []) ++
    (if step.placementProfiles ≠ [] then [.plugin "placement_profiles".toList] else []) ++
    if step.deploy then [.plugin "deploy".toList] else []

/-- The inputs of a plugin gate are sent to the plugin: they never read a secret or the
server's environment. -/
def pluginReadProblems (host : Host) (step : StepSpec) : List Problem :=
  step.with_.entries.flatMap fun e =>
    (scanInterpolations e.2).found.flatMap fun i =>
      match host.reads i.expr with
      | .error _ => []
      | .ok reads => ["secrets".toList, "env".toList].filterMap fun var =>
          if reads.any (·.var = var) then some (.pluginReads e.1 var) else none

def guardProblems (host : Host) (level : Level) (step : StepSpec) : List Problem :=
  match level.library, step.when_ with
  | some _, some w => (checkReads host .guard level w).problems.map (Problem.read "when".toList)
  | _, _ => []

/-- One gate node of a plugin invoke. -/
def pluginNode (level : Level) (installation gate : Text) (def_ : PluginGateDef) (bound : BoundWith)
    (inv : StepSpec) : StepSpec :=
  { inv with
    invoke := none
    with_ := ∅
    when_ := none
    gate := some "plugin".toList
    pluginGate := some ⟨installation, gate, def_.interface.outputs⟩
    needs := pushAllNew bound.withNeeds inv.needs
    scope := some ⟨.bound bound.bindings, ∅, ∅,
      some ((level.scope.withOutputs bound.callerView).withMatrix inv.matrixValues)⟩
    origin := [⟨.plugin, installation, none, def_.manifestSha256⟩]
    guards := inv.guards ++ (inv.when_.map fun w => ⟨1, w⟩).toList }

/-- The installation and the gate a plugin target names. -/
def pluginNames (target : Text) : Text × Text := (splitOnce ['/'] target).getD (target, [])

/-- The gate nodes a plugin invoke inlines: one, or one for each coordinate of its matrix. -/
def pluginGateNodes (tc : Toolchain) (step : StepSpec) (target : Text) (def_ : PluginGateDef)
    (level : Level) (siblings : List StepSpec) (exposed : Exposed) (c : Compile) :
    List StepSpec × Compile :=
  let c := c.report step.id (pluginFieldProblems step)
  let own := validateParamSpecs tc.toHost [] def_.interface.inputs ++
    checkWith tc.toHost step def_.interface.inputs
  let bound := bindWith tc.toHost step def_.interface.inputs level siblings exposed own.isEmpty
  let c := c.report step.id (own ++ bound.problems ++ pluginReadProblems tc.toHost step ++
    guardProblems tc.toHost level step)
  let (instances, matrix) := expandStep tc step c.work.matrix
  let c := { c with work := { c.work with matrix := matrix } }
  match instances with
  | .error p => ([], c.push step.id (.matrix p))
  | .ok instances =>
      let names := pluginNames target
      (instances.map (pluginNode level names.1 names.2 def_ bound), c)

/-- One library on the current invoke path. -/
structure Frame where
  written : Text
  label : Text
  installed : Bool

/-- Where a library comes from, and how messages name it. -/
structure LibrarySource where
  src : Text
  kind : OriginKind
  name : Text
  source : Option Text
  label : Text

def librarySource (libs : Libraries) : InvokeTarget → Except Problem LibrarySource
  | .file path =>
      match libs.files.get path with
      | some src => .ok ⟨src, .file, path, none, path⟩
      | none => .error (.noFile path)
  | .lib name =>
      match libs.installed.get name with
      | some l => .ok ⟨l.content, .library, name, some l.source, (InvokeTarget.lib name).written⟩
      | none => .error (.notInstalled name)
  | .plugin name => .error (.noPluginGate name)

def LibrarySource.link (s : LibrarySource) (contentHash : Text) : OriginEntry :=
  ⟨s.kind, s.name, s.source, contentHash⟩

/-- The fields an invoke step may not set. -/
def invokeExtraFields (step : StepSpec) : List Text :=
  (if step.image ≠ [] then ["image".toList] else []) ++
    (if step.command ≠ [] then ["command".toList] else []) ++
    (if step.env ≠ [] then ["env".toList] else []) ++
    (if step.secrets ≠ [] then ["secrets".toList] else []) ++
    (if step.security.isSome then ["security".toList] else []) ++
    (if step.gate.isSome then ["gate".toList] else []) ++
    (if step.hasForgeToken then ["forge_token".toList] else []) ++
    (if step.inputs.isSome then ["inputs".toList] else []) ++
    (if step.k8sOverlay.isSome then ["k8s_overlay".toList] else []) ++
    (if step.matrixValues.entries.isEmpty then [] else ["matrix_values".toList]) ++
    (if step.services.isEmpty then [] else ["services".toList]) ++
    (if step.results ≠ [] then ["results".toList] else []) ++
    step.otherFields.filter fun f =>
      f ≠ "deployment".toList && f ≠ "deployment_requests".toList

def invokeFieldProblems (step : StepSpec) : List Problem :=
  (invokeExtraFields step).map Problem.extraField ++
    if "deployment".toList ∈ step.otherFields || "deployment_requests".toList ∈ step.otherFields then
      [.retiredDeployments]
    else []

/-- The fields only a pipeline can set. -/
def pipelineFields : List Text :=
  ["on".toList, "environment".toList, "concurrency".toList, "services".toList, "budget".toList,
    "retention_profile".toList]

def libraryFieldProblems (lib : PipelineIr) : List Problem :=
  (pipelineFields.filter (· ∈ lib.otherFields)).map Problem.libraryField

/-- What an invoke step carries needs a step that is no gate. -/
def onlyGatesProblems (step : StepSpec) (resolved : List StepSpec) : List Problem :=
  if resolved.all StepSpec.isGate then
    (if step.timeout.isSome then [.onlyGates "timeout".toList] else []) ++
      (if step.cpuMillis.isSome || step.memoryMib.isSome then [.onlyGates "resources".toList]
        else []) ++
      if step.placementProfiles ≠ [] then [.onlyGates "placement_profiles".toList] else []
  else []

def carryInvokeFields (inv inst : StepSpec) : StepSpec :=
  if inst.isGate then inst
  else
    { inst with
      timeout := inst.timeout.or inv.timeout
      cpuMillis := inst.cpuMillis.or inv.cpuMillis
      memoryMib := inst.memoryMib.or inv.memoryMib
      placementProfiles :=
        if inst.placementProfiles = [] && !inst.hasForgeToken then inv.placementProfiles
        else inst.placementProfiles }

/-- Namespace the views of a scope and of its callers, `hops` scopes in all. -/
def namespaceHops (pre : Text) : ℕ → Scope → Scope
  | 0, s => s
  | n + 1, s => Scope.modifyAt (namespaceView pre) n (namespaceHops pre n s)

/-- A library step's scope under its invoke step: its views are renamed, and the invoke step's
own scope gets this copy's coordinate. -/
def inlinedScope (inv : StepSpec) (hops : ℕ) (s : Scope) : Scope :=
  Scope.modifyAt (·.withMatrix inv.matrixValues) hops (namespaceHops inv.id hops s)

/-- The ids the steps of a list need. -/
def neededInside (resolved : List StepSpec) : List Text := resolved.flatMap (·.needs)

/-- The needs of a library step under its invoke step: a root gets the invoke step's own. -/
def inlinedNeeds (inv : StepSpec) (inside : List Text) (withNeeds : List Text) (ls : StepSpec) :
    List Text :=
  pushAllNew withNeeds
    (if ls.needs = [] then inv.needs else ls.needs.map (namespaceRef inv.id inside))

/-- A copy of a library's step under one instance of its invoke step. -/
def inlinedNode (link : OriginEntry) (deploy : Bool) (inside : List Text) (withNeeds : List Text)
    (inv ls : StepSpec) : StepSpec :=
  let carried := carryInvokeFields inv
    { ls with
      id := ns inv.id ls.id
      origin := link :: ls.origin
      deploy := if deploy && !ls.isGate then true else ls.deploy }
  { carried with
    needs := inlinedNeeds inv inside withNeeds ls
    inputs := ls.inputs.map fun is => is.map (namespaceRef inv.id inside)
    matrixValues := inv.matrixValues.entries.foldl (fun m e => m.insertNew e.1 e.2) ls.matrixValues
    scope := ls.scope.map (inlinedScope inv (ls.origin.length + 1))
    guards := ls.guards ++ (inv.when_.map fun w => ⟨ls.origin.length + 1, w⟩).toList }

/-- The leaves of one copy: the steps no step of the library needs. -/
def copyLeaves (resolved : List StepSpec) (inv : StepSpec) : List Text :=
  (resolved.filter fun ls => ls.id ∉ neededInside resolved).map fun ls => ns inv.id ls.id

/-- A level's list so far. -/
structure LevelAcc where
  out : List StepSpec
  seam : Seam
  bytes : ℕ

/-- Stop when the list passes a cap on its length or its stored size. -/
def capped (tc : Toolchain) (at_ : Text) (acc : LevelAcc) (c : Compile) : LevelAcc × Compile :=
  if acc.out.length > maxCompiledSteps then (acc, c.stop at_ .tooManySteps)
  else
    match acc.out.getLast? with
    | none => (acc, c)
    | some last =>
        if acc.bytes + tc.jsonLen last ≤ maxCompiledIrBytes then
          ({ acc with bytes := acc.bytes + tc.jsonLen last }, c)
        else (acc, c.stop at_ .tooLarge)

def pushNodes (tc : Toolchain) (at_ : Text) : List StepSpec → LevelAcc → Compile → LevelAcc × Compile
  | [], acc, c => (acc, c)
  | n :: ns, acc, c =>
      match capped tc at_ { acc with out := acc.out ++ [n] } c with
      | (acc, c) => if c.stopped then (acc, c) else pushNodes tc at_ ns acc c

/-- Inline a library's steps at a level below the current one. -/
abbrev Recurse := Level → List Frame → List StepSpec → Compile → List StepSpec × Compile

/-- The fields of a step that only the compiler writes, as set in a file. -/
def compilerFields (step : StepSpec) : List Problem :=
  (if step.origin ≠ [] then [.compilerField "origin".toList] else []) ++
    (if step.scope.isSome then [.compilerField "scope".toList] else []) ++
    (if step.guards ≠ [] then [.compilerField "guards".toList] else []) ++
    (if step.pluginGate.isSome then [.compilerField "plugin_gate".toList] else []) ++
    if step.environmentApprovalGate.isSome then [.compilerField "environment_approval_gate".toList]
    else []

/-- The level of the steps of a library, given the inputs bound for it. -/
def innerLevel (level : Level) (label : Text) (inputs : List ParamSpec) (bound : BoundWith) :
    Level where
  scope := ⟨.bound bound.bindings, ∅, ∅, some (level.scope.withOutputs bound.callerView)⟩
  library := some (label, inputs)
  late := bound.late

section level

variable (tc : Toolchain) (libs : Libraries) (recurse : Option Recurse) (level : Level)
  (stack : List Frame) (siblings : List StepSpec) (exposed : Exposed)

/-- A step that runs keeps its id and gets its scope. -/
def inlineRunStep (step : StepSpec) (acc : LevelAcc) (c : Compile) : LevelAcc × Compile :=
  let c := if step.with_.entries.isEmpty then c else c.push step.id .withOffInvoke
  match level.library with
  | some _ =>
      match libraryStepScope tc.toHost step level siblings exposed with
      | (own, problems) => pushNodes tc step.id [own] acc (c.report step.id problems)
  | none => pushNodes tc step.id [invokeOutputScope tc.toHost step exposed] acc c

def inlinePlugin (step : StepSpec) (target : Text) (acc : LevelAcc) (c : Compile) :
    LevelAcc × Compile :=
  match libs.pluginGates.get target with
  | none => (acc, c.push step.id (.noPluginGate target))
  | some def_ =>
      match pluginGateNodes tc step target def_ level siblings exposed c with
      | (gates, c) =>
          let acc := if step.matrix.isSome then
              { acc with seam := acc.seam.insert step.id (gates.map (·.id)) }
            else acc
          pushNodes tc step.id gates acc c

/-- Copy a library's inlined steps under each instance of its invoke step. -/
def copyLibrary (step : StepSpec) (link : OriginEntry) (lib : PipelineIr) (withNeeds : List Text)
    (resolved : List StepSpec) (acc : LevelAcc) (c : Compile) : LevelAcc × Compile :=
  if c.stopped then (acc, c)
  else
    let c := c.report step.id (onlyGatesProblems step resolved)
    match expandStep tc step c.work.matrix with
    | (.error p, matrix) =>
        (acc, { c with work := { c.work with matrix := matrix } }.push step.id (.matrix p))
    | (.ok invs, matrix) =>
        let c := { c with work := { c.work with matrix := matrix } }
        let nodes := invs.flatMap fun inv => resolved.map
          (inlinedNode link (step.deploy || lib.deploy) (resolved.map (·.id)) withNeeds inv)
        match pushNodes tc step.id nodes acc c with
        | (acc, c) =>
            if c.stopped then (acc, c)
            else
              ({ acc with seam := acc.seam.insert step.id (invs.flatMap (copyLeaves resolved)) }, c)

/-- Bind a parsed library's inputs, inline its steps and copy them under the invoke step. -/
def inlineParsed (recurse : Recurse) (step : StepSpec) (source : LibrarySource) (written : Text)
    (lib : PipelineIr) (contentHash : Text) (acc : LevelAcc) (c : Compile) : LevelAcc × Compile :=
  let iface := validateInterface tc.toHost step lib siblings
  let bound := bindWith tc.toHost step lib.interface.inputs level siblings exposed iface.isEmpty
  let c := c.report step.id (iface ++ bound.problems ++ guardProblems tc.toHost level step)
  let inner := innerLevel level source.label lib.interface.inputs bound
  match recurse inner (⟨written, source.label, source.kind = .library⟩ :: stack) lib.steps c with
  | (resolved, c) => copyLibrary tc step (source.link contentHash) lib bound.withNeeds resolved acc c

def inlineLibrary (step : StepSpec) (target : InvokeTarget) (source : LibrarySource)
    (acc : LevelAcc) (c : Compile) : LevelAcc × Compile :=
  let written := target.written
  if stack.any (·.written = written) then
    (acc, c.push step.id (.cycle (written :: stack.map (·.written))))
  else
    match recurse with
    | none => (acc, c.push step.id .tooDeep)
    | some recurse =>
        if byteLen source.src > maxSourceBytes then
          (acc, c.push step.id (.sourceTooLarge (byteLen source.src)))
        else
          match c.work.parse tc written source.src with
          | (.failed why, work) => (acc, { c with work := work }.push step.id (.libraryParse why))
          | (.overBudget, work) => (acc, { c with work := work }.push step.id .libraryBudget)
          | (.library lib contentHash, work) =>
              let c := { c with work := work }
              if !lib.isLibrary then (acc, c.push step.id .notLibrary)
              else
                let c := c.report step.id (libraryFieldProblems lib)
                if lib.steps.isEmpty then (acc, c.push step.id .noSteps)
                else inlineParsed tc level stack siblings exposed recurse step source written lib
                  contentHash acc c

def inlineInvoke (step : StepSpec) (target : InvokeTarget) (acc : LevelAcc) (c : Compile) :
    LevelAcc × Compile :=
  match target with
  | .plugin name => inlinePlugin tc libs level siblings exposed step name acc c
  | _ =>
      match librarySource libs target with
      | .error p => (acc, c.push step.id p)
      | .ok source =>
          inlineLibrary tc recurse level stack siblings exposed step target source acc c

def InvokeTarget.isPlugin : InvokeTarget → Bool
  | .plugin _ => true
  | _ => false

def InvokeTarget.isFile : InvokeTarget → Bool
  | .file _ => true
  | _ => false

/-- An installed library is closed: it invokes no file of the repository. -/
def inlineTarget (step : StepSpec) (raw : Text) (acc : LevelAcc) (c : Compile) :
    LevelAcc × Compile :=
  let c := { c with expansions := c.expansions + 1 }
  if c.expansions > maxInvokeExpansions then (acc, c.stop step.id .tooManyExpansions)
  else
    let c := c.report step.id (invokeFieldProblems step)
    match parseInvokeTarget raw with
    | .error e => (acc, c.push step.id (.target e))
    | .ok target =>
        let c := if step.gateExpiresAfter.isSome && !target.isPlugin then
            c.push step.id .expiresOffPlugin
          else c
        if (stack.head?.any (·.installed)) && target.isFile then
          (acc, c.push step.id .fileInInstalled)
        else inlineInvoke tc libs recurse level stack siblings exposed step target acc c

def inlineStep (step : StepSpec) (acc : LevelAcc) (c : Compile) : LevelAcc × Compile :=
  let c := c.report step.id (compilerFields step)
  match step.invoke with
  | none => inlineRunStep tc level siblings exposed step acc c
  | some raw => inlineTarget tc libs recurse level stack siblings exposed step raw acc c

def inlineSteps : List StepSpec → LevelAcc → Compile → LevelAcc × Compile
  | [], acc, c => (acc, c)
  | step :: rest, acc, c =>
      let c := c.spent
      if c.stopped then (acc, c)
      else
        match inlineStep tc libs recurse level stack siblings exposed step acc c with
        | (acc, c) => if c.stopped then (acc, c) else inlineSteps rest acc c

end level

/-- An invoke step's id must not be any earlier step's. -/
def duplicateInvokes : List StepSpec → List StepSpec → List Text
  | _, [] => []
  | before, s :: ss =>
      (if s.invoke.isSome && before.any (·.id = s.id) then [s.id] else []) ++
        duplicateInvokes (before ++ [s]) ss

def seamStep (seam : Seam) (s : StepSpec) : StepSpec :=
  { s with
    needs := rewriteThroughSeam seam s.needs
    inputs := s.inputs.map (rewriteThroughSeam seam) }

/-- One level of inlining, given the level below. -/
def inlineLevelWith (tc : Toolchain) (libs : Libraries) (recurse : Option Recurse) : Recurse :=
  fun level stack steps c =>
    match exposedOutputs tc libs steps c.work with
    | (exposed, work) =>
        let c := { c with
          work := work
          diagnostics := c.diagnostics ++
            (duplicateInvokes [] steps).map fun id => ⟨id, .duplicateId⟩ }
        match inlineSteps tc libs recurse level stack steps exposed steps ⟨[], ∅, 0⟩ c with
        | (acc, c) => if c.stopped then (acc.out, c) else (acc.out.map (seamStep acc.seam), c)

/-- `room` more libraries may be nested below this level. -/
def inlineLevel (tc : Toolchain) (libs : Libraries) : ℕ → Recurse
  | 0 => inlineLevelWith tc libs none
  | room + 1 => inlineLevelWith tc libs (some (inlineLevel tc libs room))

/-- Inline every invoke step of a pipeline file. -/
def inlineInvokes (tc : Toolchain) (libs : Libraries) (steps : List StepSpec) :
    List StepSpec × Compile :=
  inlineLevel tc libs maxInvokeDepth ⟨Scope.run, none, []⟩ [] steps Compile.start

end Scarab.Pipeline
