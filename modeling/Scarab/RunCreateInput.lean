import Scarab.KahnFold
import Scarab.PipelineCycles
import Scarab.PipelineInline

/-!
# The input of a `run.create` policy

What a policy sees of a compiled pipeline: every step with the gates upstream of it, every gate
with the steps that depend on it, each list within its cap.
-/
namespace Scarab.RunCreate

open Pipeline KahnFold

def maxSteps : ℕ := 512

def maxGates : ℕ := 32

/-- The longest invoke chain. -/
def maxOrigin : ℕ := maxInvokeDepth

def maxUpstreamGates : ℕ := maxGates

def maxGrants : ℕ := 16

def maxSecrets : ℕ := 32

def maxPlacementProfiles : ℕ := 8

/-- A list within its cap. -/
structure Capped (α : Type) (cap : ℕ) where
  items : List α
  fits : items.length ≤ cap

inductive Owner where
  | run
  | step (id : Text)
  | gate (id : Text)
deriving DecidableEq

/-- Why a run is refused; `overflow` is the panic of checked arithmetic. -/
inductive Refusal where
  | capExceeded (owner : Owner) (len : ℕ) (noun : Text) (cap : ℕ)
  | gateKind (id : Text) (kind : Option Text)
  | overflow
deriving DecidableEq

def capped {α : Type} (cap : ℕ) (items : List α) (owner : Owner) (noun : Text) :
    Except Refusal (Capped α cap) :=
  if h : items.length ≤ cap then .ok ⟨items, h⟩
  else .error (.capExceeded owner items.length noun cap)

inductive GateKind where
  | manual
  | timer
  | external
  | plugin
deriving DecidableEq

structure UpstreamGate where
  id : Text
  kind : GateKind
deriving DecidableEq

structure Step where
  id : Text
  image : Text
  digest : Option Text
  grants : Capped Text maxGrants
  k8sOverlay : Bool
  secrets : Capped Text maxSecrets
  placementProfiles : Capped Text maxPlacementProfiles
  deploy : Bool
  forgeToken : Option ForgeToken
  usesEnvironmentAuthority : Bool
  /-- Empty for a step written in the pipeline file itself. -/
  origin : Capped OriginEntry maxOrigin
  upstreamGates : Capped UpstreamGate maxUpstreamGates

structure Gate where
  id : Text
  kind : GateKind
  origin : Capped OriginEntry maxOrigin
  /-- The ids of the steps that depend on the gate. -/
  dependents : Capped Text maxSteps

/-- What a consultation knows besides the compiled pipeline; the trigger and the time pass
through. -/
structure RunCreateFacts (τ ι : Type) where
  org : Text
  project : Text
  trigger : τ
  time : ι
  pipelinePath : Text
  environment : Option Text
  principal : Option Text
  params : SortedMap Text Json
  event : SortedMap Text Json

structure RunCreateInput (τ ι : Type) where
  org : Text
  project : Text
  trigger : τ
  pipelineName : Text
  environment : Option Text
  deploy : Bool
  steps : Capped Step maxSteps
  gates : Capped Gate maxGates
  principal : Option Text
  time : ι

def originOf (chain : List OriginEntry) (owner : Owner) :
    Except Refusal (Capped OriginEntry maxOrigin) :=
  capped maxOrigin chain owner "links in its origin chain".toList

def gateKind (s : StepSpec) : Except Refusal GateKind :=
  if s.gate = some "manual".toList then .ok .manual
  else if s.gate = some "timer".toList then .ok .timer
  else if s.gate = some "external".toList then .ok .external
  else if s.gate = some "plugin".toList then .ok .plugin
  else .error (.gateKind s.id s.gate)

/-- A step uses the Environment's authority when it declares secrets, requests a governed grant or
an overlay, deploys, or asks for a token that writes. -/
def usesEnvironmentAuthority (ir : PipelineIr) (s : StepSpec) : Bool :=
  !s.isGate &&
    (!s.secrets.isEmpty ||
      s.security.any (fun sec => sec.privileged || !sec.addCapabilities.isEmpty) ||
      s.k8sOverlay.isSome || s.deploy || ir.deploy || s.forgeToken = some .write)

/-- Refuses a run with too many steps or gates before any work that grows faster than the run. -/
def checkRunCaps (ir : PipelineIr) : Except Refusal Unit :=
  let gateCount := ir.steps.countP (·.isGate)
  let stepCount := ir.steps.length - gateCount
  if stepCount > maxSteps then .error (.capExceeded .run stepCount "Steps".toList maxSteps)
  else if gateCount > maxGates then .error (.capExceeded .run gateCount "gates".toList maxGates)
  else .ok ()

def index (steps : List StepSpec) : SortedMap Text ℕ :=
  SortedMap.ofList (steps.zipIdx.map fun p => (p.1.id, p.2))

/-- `1u64 << bit`. -/
def shiftLeft (bit : ℕ) : Except Refusal (BitVec 64) :=
  if bit < 64 then .ok (1#64 <<< bit) else .error .overflow

/-- The indices of the gates. -/
def gateIndices (steps : List StepSpec) : List ℕ :=
  (steps.zipIdx.filter fun p => p.1.isGate).map (·.2)

/-- Each gate's bit, by its index. -/
def gateBits (steps : List StepSpec) : Except Refusal (List (ℕ × BitVec 64)) :=
  (gateIndices steps).zipIdx.mapM fun p => do
    let bit ← shiftLeft p.2
    .ok (p.1, bit)

def needsIndices (steps : List StepSpec) : List (List ℕ) :=
  steps.map fun s => s.needs.filterMap (index steps).get

/-- The gates a step needs, and those upstream of what it needs. -/
def gatesUnion (needs : List (List ℕ)) (gateBit : List (ℕ × BitVec 64)) (i : ℕ)
    (sets : List (BitVec 64)) : BitVec 64 :=
  (needsOf needs i).foldl
    (fun acc n => acc ||| sets.getD n 0 ||| (gateBit.lookup n).getD 0) 0

def upstreamGatesOf (steps : List StepSpec) (gateBit : List (ℕ × BitVec 64)) :
    Except Refusal (List (BitVec 64)) :=
  let needs := needsIndices steps
  match run (neededBy needs) (gatesUnion needs gateBit) steps.length (initial needs 0) with
  | none => .error .overflow
  | some s => .ok s.values

/-- The order in which a hash map yields its entries. -/
structure HashOrder where
  visit : List (ℕ × BitVec 64) → List (ℕ × BitVec 64)
  perm : ∀ entries, (visit entries).Perm entries

def hasGate (sets : List (BitVec 64)) (i : ℕ) (bit : BitVec 64) : Bool := sets.getD i 0 &&& bit != 0

/-- The ids of the steps with each gate upstream, in pipeline order. -/
def dependentsOf (order : HashOrder) (steps : List StepSpec) (gateBit : List (ℕ × BitVec 64))
    (sets : List (BitVec 64)) : SortedMap ℕ (List Text) :=
  steps.zipIdx.foldl
    (fun m p =>
      if p.1.isGate then m
      else (order.visit gateBit).foldl
        (fun m g =>
          if hasGate sets p.2 g.2 then m.insert g.1 ((m.get g.1).getD [] ++ [p.1.id]) else m) m)
    ∅

/-- The gates in pipeline order. -/
def gateOrder (order : HashOrder) (gateBit : List (ℕ × BitVec 64)) : List (ℕ × BitVec 64) :=
  (order.visit gateBit).mergeSort fun a b =>
    decide (a.1 < b.1 ∨ a.1 = b.1 ∧ a.2.toNat ≤ b.2.toNat)

def upstreamGates (steps : List StepSpec) (sets : List (BitVec 64)) (i : ℕ) :
    List (ℕ × BitVec 64) → Except Refusal (List UpstreamGate)
  | [] => .ok []
  | (g, bit) :: rest =>
      if hasGate sets i bit then
        match steps[g]? with
        | none => .error .overflow
        | some gate => do
            let kind ← gateKind gate
            let gates ← upstreamGates steps sets i rest
            .ok (⟨gate.id, kind⟩ :: gates)
      else upstreamGates steps sets i rest

def grantsOf (s : StepSpec) : List Text :=
  match s.security with
  | none => []
  | some sec =>
      (if sec.runAsRoot then ["run-as-root".toList] else []) ++
        (if sec.privileged then ["privileged".toList] else []) ++
        sec.addCapabilities.map ("add-capabilities:".toList ++ ·)

/-- What an image is pinned to; an image with an expression left in it pins nothing. -/
def digestOf (image : Text) : Option Text :=
  if containsText openBraces image then none
  else ((rsplitOnce '@' image).map (·.2)).filter (· ≠ [])

section input

variable {τ ι : Type} (host : Host) (ir : PipelineIr) (facts : RunCreateFacts τ ι)

def gateInput (dependents : SortedMap ℕ (List Text)) (s : StepSpec) (i : ℕ) :
    Except Refusal Gate := do
  let kind ← gateKind s
  let origin ← originOf s.origin (.gate s.id)
  let dependents ←
    capped maxSteps ((dependents.get i).getD []) (.gate s.id) "dependent Steps".toList
  .ok { id := s.id, kind, origin, dependents }

def stepInput (sets : List (BitVec 64)) (order : List (ℕ × BitVec 64)) (s : StepSpec) (i : ℕ) :
    Except Refusal Step := do
  let upstream ← upstreamGates ir.steps sets i order
  let image := previewImage host s.image s.scope s.matrixValues facts.params facts.event
  let grants ← capped maxGrants (grantsOf s) (.step s.id) "grants".toList
  let secrets ← capped maxSecrets (s.secrets.map (·.name)) (.step s.id) "secrets".toList
  let placementProfiles ←
    capped maxPlacementProfiles s.placementProfiles (.step s.id) "placement profiles".toList
  let origin ← originOf s.origin (.step s.id)
  let upstreamGates ←
    capped maxUpstreamGates upstream (.step s.id) "gates upstream of it".toList
  .ok {
    id := s.id
    image
    digest := digestOf image
    grants
    k8sOverlay := s.k8sOverlay.isSome
    secrets
    placementProfiles
    deploy := s.deploy || ir.deploy
    forgeToken := s.forgeToken
    usesEnvironmentAuthority := usesEnvironmentAuthority ir s
    origin
    upstreamGates }

def inputsOf (sets : List (BitVec 64)) (order : List (ℕ × BitVec 64))
    (dependents : SortedMap ℕ (List Text)) :
    List (StepSpec × ℕ) → Except Refusal (List Step × List Gate)
  | [] => .ok ([], [])
  | (s, i) :: rest =>
      if s.isGate then do
        let gate ← gateInput dependents s i
        let (steps, gates) ← inputsOf sets order dependents rest
        .ok (steps, gate :: gates)
      else do
        let step ← stepInput host ir facts sets order s i
        let (steps, gates) ← inputsOf sets order dependents rest
        .ok (step :: steps, gates)

/-- The input of a compiled pipeline; `name` is the one its file declares. -/
def inputFromPipeline (order : HashOrder) (name : Option Text) :
    Except Refusal (RunCreateInput τ ι) := do
  checkRunCaps ir
  let gateBit ← gateBits ir.steps
  let sets ← upstreamGatesOf ir.steps gateBit
  let dependents := dependentsOf order ir.steps gateBit sets
  let (steps, gates) ←
    inputsOf host ir facts sets (gateOrder order gateBit) dependents ir.steps.zipIdx
  let steps ← capped maxSteps steps .run "Steps".toList
  let gates ← capped maxGates gates .run "gates".toList
  .ok {
    org := facts.org
    project := facts.project
    trigger := facts.trigger
    pipelineName := name.getD facts.pipelinePath
    environment := facts.environment
    deploy := ir.deploy
    steps
    gates
    principal := facts.principal
    time := facts.time }

end input

end Scarab.RunCreate
