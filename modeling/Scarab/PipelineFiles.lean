import Scarab.PipelineRender

/-!
# Pipeline and library files

The steps a file declares, the libraries an `invoke:` may name, and the problems a compile
reports. Of a step's fields the compiler only checks for being set, the names are kept.
-/
namespace Scarab.Pipeline

structure Matrix where
  dimensions : SortedMap Text (List Text)
  exclude : List Text

inductive OriginKind where
  | file
  | library
  | plugin
  | environment
deriving DecidableEq

/-- One link of the invoke chain a step was inlined through. -/
structure OriginEntry where
  kind : OriginKind
  name : Text
  source : Option Text
  contentHash : Text
deriving DecidableEq

structure OutputSpec where
  name : Text
  type : ParamType
deriving DecidableEq

structure Interface where
  inputs : List ParamSpec
  outputs : List OutputSpec

structure PluginGateSpec where
  installation : Text
  gate : Text
  outputs : List OutputSpec
deriving DecidableEq

inductive ForgeToken where
  | read
  | write
deriving DecidableEq

structure SecretRef where
  name : Text
  env : Bool
deriving DecidableEq

/-- The escalation a step requests. -/
structure StepSecurity where
  runAsRoot : Bool
  addCapabilities : List Text
  privileged : Bool
deriving DecidableEq

structure HttpReady where
  port : UInt16
  path : Text
deriving DecidableEq

structure ReadyProbe where
  tcp : Option UInt16
  exec : List Text
  http : Option HttpReady
deriving DecidableEq

/-- A sidecar beside a step's container. -/
structure ServiceSpec where
  image : Text
  command : List Text
  args : List Text
  env : SortedMap Text Text
  ports : List UInt16
  ready : Option ReadyProbe
  runAsUser : Option UInt32
  runAsRoot : Bool

structure StepSpec where
  id : Text
  image : Text
  command : List Text
  env : List (Text × Text)
  needs : List Text
  inputs : Option (List Text)
  gate : Option Text
  invoke : Option Text
  with_ : SortedMap Text Text
  when_ : Option Text
  matrix : Option Matrix
  matrixValues : SortedMap Text Text
  deploy : Bool
  timeout : Option ℕ
  cpuMillis : Option ℕ
  memoryMib : Option ℕ
  placementProfiles : List Text
  forgeToken : Option ForgeToken
  secrets : List SecretRef
  security : Option StepSecurity
  /-- A raw pod fragment, as its text. -/
  k8sOverlay : Option Text
  services : List ServiceSpec
  /-- The results the step declares; none declares any. -/
  results : List Text
  gateExpiresAfter : Option ℕ
  origin : List OriginEntry
  scope : Option Scope
  guards : List Guard
  pluginGate : Option PluginGateSpec
  environmentApprovalGate : Option Bool
  /-- The other fields the file sets on the step, by name. -/
  otherFields : List Text
  /-- The texts with an expression, keys included, in the fields that are not rendered when the
  step launches, each with its path in the step. -/
  unrendered : List (Text × Text)

def StepSpec.isGate (s : StepSpec) : Bool := s.gate.isSome

def StepSpec.hasForgeToken (s : StepSpec) : Bool := s.forgeToken.isSome

/-- A step that sets nothing but its id. -/
def StepSpec.named (id : Text) : StepSpec where
  id := id
  image := []
  command := []
  env := []
  needs := []
  inputs := none
  gate := none
  invoke := none
  with_ := ∅
  when_ := none
  matrix := none
  matrixValues := ∅
  deploy := false
  timeout := none
  cpuMillis := none
  memoryMib := none
  placementProfiles := []
  forgeToken := none
  secrets := []
  security := none
  k8sOverlay := none
  services := []
  results := []
  gateExpiresAfter := none
  origin := []
  scope := none
  guards := []
  pluginGate := none
  environmentApprovalGate := none
  otherFields := []
  unrendered := []

structure PipelineIr where
  irVersion : ℕ
  isLibrary : Bool
  deploy : Bool
  interface : Interface
  /-- The other fields the file sets, by name. -/
  otherFields : List Text
  steps : List StepSpec

structure InstalledLibrary where
  content : Text
  source : Text

structure PluginGateDef where
  interface : Interface
  manifestSha256 : Text

/-- Everything an `invoke:` may name. -/
structure Libraries where
  files : SortedMap Text Text
  installed : SortedMap Text InstalledLibrary
  pluginGates : SortedMap Text PluginGateDef

/-- What a compile takes from outside beside the host: the YAML reader, the hash and the
lengths of a step and of a pipeline as stored. -/
structure Toolchain extends Host where
  parseYaml : Text → Except Text PipelineIr
  /-- A shallow read of a file's `interface:` only. -/
  parseInterface : Text → Option Interface
  sha256Hex : Text → Text
  jsonLen : StepSpec → ℕ
  irLen : PipelineIr → ℕ

inductive InvokeTarget where
  | file (path : Text)
  | lib (name : Text)
  | plugin (name : Text)
deriving DecidableEq

inductive TargetError where
  | unknownPrefix (text : Text)
  | spaceAfterPrefix (text : Text)
  | needsPrefix (text : Text)
  | url (text : Text)
  | badName (text : Text)
  | emptyPath
  | remotePath (text : Text)
  | absolutePath (text : Text)
  | badSeparator (text : Text)
  | badSegment (text : Text)
deriving DecidableEq

/-- The target as an author writes it: the key of cycles and of what was parsed. -/
def InvokeTarget.written : InvokeTarget → Text
  | .file path => "file:".toList ++ path
  | .lib name => "lib:".toList ++ name
  | .plugin name => "plugin:".toList ++ name

/-- One segment of a `<a>/<b>` name. -/
def segmentOk (s : Text) : Bool :=
  (match s with
    | [] => false
    | c :: _ => c ≠ '.' && c ≠ '-') &&
    s.all fun c => c.isAlphanum || c = '.' || c = '_' || c = '-'

def twoSegmentName (rest : Text) : Except TargetError Text :=
  match splitOnce ['/'] rest with
  | some (a, b) => if segmentOk a && segmentOk b then .ok rest else .error (.badName rest)
  | none => .error (.badName rest)

/-- The repo-relative path of a `file:` target. -/
def resolveLibPath (raw : Text) : Except TargetError Text :=
  let path := trim raw
  if path = [] then .error .emptyPath
  else if containsText "://".toList path || '@' ∈ path then .error (.remotePath raw)
  else if path.head? = some '/' then .error (.absolutePath raw)
  else if backslash ∈ path then .error (.badSeparator raw)
  else
    let path := if ['.', '/'].isPrefixOf path then path.drop 2 else path
    let components := path.splitOn '/'
    if components.any fun c => c = [] || c = ['.'] || c = ['.', '.'] then .error (.badSegment raw)
    else .ok (['/'].intercalate components)

/-- The word before the first `:`, when it is one, and what follows it. -/
def targetPrefix (text : Text) : Option (Text × Text) :=
  match splitOnce [':'] text with
  | some (p, rest) => if p ≠ [] && p.all Char.isAlpha then some (p, rest) else none
  | none => none

def parseInvokeTarget (raw : Text) : Except TargetError InvokeTarget :=
  let text := trim raw
  match targetPrefix text with
  | none => .error (.needsPrefix text)
  | some (p, rest) =>
      if p.any Char.isUpper then .error (.unknownPrefix text)
      else if rest.head?.any isWhitespace then .error (.spaceAfterPrefix text)
      else if p = "file".toList then (resolveLibPath rest).map .file
      else if p = "lib".toList then (twoSegmentName rest).map .lib
      else if p = "plugin".toList then (twoSegmentName rest).map .plugin
      else if p = "url".toList then .error (.url text)
      else .error (.unknownPrefix text)

def isPluginInvoke (raw : Text) : Bool :=
  match parseInvokeTarget raw with
  | .ok (.plugin _) => true
  | _ => false

inductive ReadProblem where
  | undeclaredInput (name : Text)
  | lateInput (name : Text)
  | guardReadsOutputs
  | computedOutput
deriving DecidableEq

inductive MatrixProblem where
  | noDimensions
  | noValues (dimension : Text)
  | tooManyCombinations
  | tooManyInCompile
  | tooManyExcludes
  | tooManyChecks
  | exclude (e : CelError)
  | tooManySteps
  | tooLarge

inductive ParamSpecProblem where
  | notIdentifier
  | duplicate
  | requiredWithDefault
  | optionalWithoutDefault
  | choiceWithoutOptions
  | defaultNotOption
  | defaultNotString
  | defaultType (e : ParamError)
  | validateCel (e : CelError)
  | defaultFailsValidate
  | defaultTemplate
  | forgeString (step : Text)

inductive Problem where
  | duplicateId
  | compilerField (field : Text)
  | withOffInvoke
  | tooManyProblems
  | tooManyExpansions
  | extraField (field : Text)
  | retiredDeployments
  | target (e : TargetError)
  | expiresOffPlugin
  | fileInInstalled
  | noFile (path : Text)
  | notInstalled (name : Text)
  | noPluginGate (name : Text)
  | cycle (path : List Text)
  | tooDeep
  | sourceTooLarge (bytes : ℕ)
  | libraryParse (why : Text)
  | libraryBudget
  | notLibrary
  | libraryField (field : Text)
  | noSteps
  | param (name : Text) (p : ParamSpecProblem)
  | missingInput (name : Text)
  | badInput (name : Text) (e : ParamError)
  | unknownInput (name : Text)
  | typedOutput (name : Text)
  | noOutputStep (name : Text)
  | matrixedOutput (output : Text)
  | undeclaredOutput (output : Text)
  | outputWithoutNeeds (output : Text)
  | withTemplate (name : Text) (e : CelError)
  | read (field : Text) (p : ReadProblem)
  | unrenderedRead (path : Text)
  | uncheckedRead (path : Text) (e : CelError)
  | unresolvedInputs (names : List Text)
  | readsUnneeded (name : Text)
  | readsUnknown (name : Text)
  | onlyGates (field : Text)
  | matrix (p : MatrixProblem)
  | plugin (field : Text)
  | pluginReads (name var : Text)
  | tooManySteps
  | tooLarge
  | notExpanded
  | notInlined
  | unknownNeed (need : Text)
  | inputNotNeeded (input : Text)
  | whenCel (e : CelError)
  | templateCel (e : CelError)

/-- A problem and the step it is about. -/
structure Diagnostic where
  step : Text
  problem : Problem

end Scarab.Pipeline
