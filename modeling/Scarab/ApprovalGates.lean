import Scarab.EnvironmentProtection
import Scarab.GraphSearch
import Scarab.PipelineCycles
import Scarab.RunCreateInput

/-!
# Environment approval gates

Which `manual` gates of a Run are Environment approval gates, which steps use the Environment's
authority with no `manual` gate upstream, and the one gate the Environment adds in front of them.
-/
namespace Scarab.Policy

open Scarab.Pipeline Scarab.Project GraphSearch
open RunCreate (usesEnvironmentAuthority)

def isManualGate (s : StepSpec) : Bool := s.gate = some "manual".toList

/-- A gate of a Run created before the mark existed counts too. -/
def countsAsEnvironmentApprovalGate (s : StepSpec) : Bool :=
  isManualGate s && s.environmentApprovalGate ≠ some false

/-- The last step with an id. -/
def byId (steps : List StepSpec) (id : Text) : Option StepSpec :=
  steps.reverse.find? fun s => s.id = id

/-- From a step to what it needs. -/
def upGraph (steps : List StepSpec) : Graph Text where
  nodes := steps.map (·.id)
  next id := ((byId steps id).map (·.needs)).getD []
  next_nil id hid := by
    have hnone : byId steps id = none := by
      simp only [byId, List.find?_eq_none, List.mem_reverse, decide_eq_true_eq]
      exact fun s hs h => hid (List.mem_map.mpr ⟨s, hs, h⟩)
    rw [hnone]
    rfl

/-- From a step to what needs it. -/
def downGraph (steps : List StepSpec) : Graph Text where
  nodes := steps.flatMap (·.needs)
  next id := steps.flatMap fun s => (s.needs.filter (· = id)).map fun _ => s.id
  next_nil id hid := by
    simp only [List.flatMap_eq_nil_iff, List.map_eq_nil_iff, List.filter_eq_nil_iff,
      decide_eq_true_eq]
    rintro s hs n hn rfl
    exact hid (List.mem_flatMap.mpr ⟨s, hs, hn⟩)

def manualGateUpstream (ir : PipelineIr) (step : Text) : Bool :=
  (visit (upGraph ir.steps) (fun id => (byId ir.steps id).any isManualGate) []
    ((upGraph ir.steps).next step).reverse).isNone

/-- The gates upstream of a step that count, in pipeline order. -/
def upstreamApprovalGates (ir : PipelineIr) (step : Text) : List StepSpec :=
  let seen := reached (upGraph ir.steps) ((upGraph ir.steps).next step).reverse
  (ir.steps.filter fun s => s.id ∈ seen).filter countsAsEnvironmentApprovalGate

def downstream (ir : PipelineIr) (step : Text) : List Text :=
  reached (downGraph ir.steps) ((downGraph ir.steps).next step).reverse

def environmentApprovalGates (ir : PipelineIr) : List Text :=
  ((ir.steps.filter isManualGate).filter fun g =>
    (downstream ir g.id).any fun d => (byId ir.steps d).any (usesEnvironmentAuthority ir)).map (·.id)

def markStep (approval : List Text) (s : StepSpec) : StepSpec :=
  if isManualGate s then { s with environmentApprovalGate := some (decide (s.id ∈ approval)) } else s

def markEnvironmentApprovalGates (ir : PipelineIr) : PipelineIr :=
  { ir with steps := ir.steps.map (markStep (environmentApprovalGates ir)) }

/-- The steps that never start: the excluded ones and all behind them. -/
def deadSteps (ir : PipelineIr) (excluded : List Text) : List Text :=
  (ir.steps.filter fun s => s.id ∈ excluded).flatMap fun s => s.id :: downstream ir s.id

def stepsMissingApprovalGate (ir : PipelineIr) (excluded : List Text) : List Text :=
  let dead := deadSteps ir excluded
  (((ir.steps.filter (usesEnvironmentAuthority ir)).filter fun s => s.id ∉ dead).filter fun s =>
    !manualGateUpstream ir s.id).map (·.id)

def addedGateIdText : Text := "environment-approval".toList

def suffixedGateId (n : ℕ) : Text := addedGateIdText ++ '-' :: natText n

/-- The first id no step has. The suffixes tried are one more than there are steps. -/
def addedGateId (ir : PipelineIr) : Text :=
  let taken := fun id => ir.steps.any fun s => s.id = id
  if !taken addedGateIdText then addedGateIdText
  else (((List.range (ir.steps.length + 1)).map fun n => suffixedGateId (n + 2)).find?
    fun id => !taken id).getD []

structure AddedGate where
  id : Text
  fronts : List Text

/-- The missing steps with no other missing step upstream. -/
def fronts (ir : PipelineIr) (missing : List Text) : List Text :=
  let behindAnother := (missing.flatMap (downstream ir)).filter (· ∈ missing)
  missing.filter (· ∉ behindAnother)

/-- The needs of the steps in front, each once. -/
def combinedNeeds (steps : List StepSpec) (fronts : List Text) : List Text :=
  (steps.filter fun s => s.id ∈ fronts).foldl
    (fun needs s => s.needs.foldl (fun needs n => if n ∈ needs then needs else needs ++ [n]) needs) []

def approvalGateStep (id environment : Text) (expiresAfter : Option UInt32) (needs : List Text) :
    StepSpec :=
  { StepSpec.named id with
    gate := some "manual".toList
    gateExpiresAfter := expiresAfter.map (·.toNat)
    needs := needs
    origin := [⟨.environment, environment, none, []⟩]
    environmentApprovalGate := some true }

/-- The front steps need the gate, every other step stays. -/
def putBehind (fronts : List Text) (gate : Text) (s : StepSpec) : StepSpec :=
  if s.id ∈ fronts then { s with needs := s.needs ++ [gate] } else s

def addEnvironmentApprovalGate (ir : PipelineIr) (environment : Text)
    (expiresAfter : Option UInt32) (excluded : List Text) : PipelineIr × Option AddedGate :=
  let missing := stepsMissingApprovalGate ir excluded
  if missing.isEmpty then (ir, none)
  else
    let front := fronts ir missing
    let needs := combinedNeeds ir.steps front
    let id := addedGateId ir
    let at_ := ir.steps.findIdx fun s => s.id ∈ front
    let steps := ir.steps.map (putBehind front id)
    ({ ir with steps :=
        steps.take at_ ++ approvalGateStep id environment expiresAfter needs :: steps.drop at_ },
      some ⟨id, front⟩)

structure GateRequirement where
  ir : PipelineIr
  result : Option PolicyResult
  refusal : Option Text

def gateRequirementResult (outcome : PolicyOutcome) : PolicyResult :=
  builtin "builtin:environment_approval_gate".toList "environment-approval-gate".toList outcome

def gateRefusalText (environment : Text) (missing needs front : List Text) : Text :=
  "environment ".toList ++ ticked environment ++
    " has approvers, and these Steps use its authority with no `gate: manual` upstream: ".toList ++
    joinText ", ".toList (missing.map ticked) ++
    ". It refuses such a Run rather than add a gate: add `- \x7b id: approve, gate: manual, needs: [".toList ++
    joinText ", ".toList needs ++ "] \x7d` and put `approve` in the `needs` of ".toList ++
    joinText ", ".toList (front.map ticked)

def gateRequirement (ir : PipelineIr) (environment : Text) (protection : Option EffectiveProtection)
    (excluded : List Text) : GateRequirement :=
  match protection.filter fun p => !p.approvers.isEmpty with
  | none => ⟨markEnvironmentApprovalGates ir, none, none⟩
  | some p =>
      let withGate :=
        addEnvironmentApprovalGate ir environment p.approvalGate.addedGateExpiryS excluded
      match withGate.2 with
      | none => ⟨markEnvironmentApprovalGates ir, some (gateRequirementResult .passed), none⟩
      | some added =>
          if p.approvalGate.missingGate = .refuse then
            let needs := ((withGate.1.steps.find? fun s => s.id = added.id).map (·.needs)).getD []
            let refusal := gateRefusalText environment (stepsMissingApprovalGate ir excluded) needs
              added.fronts
            ⟨markEnvironmentApprovalGates ir, some (gateRequirementResult (.denied [refusal])),
              some refusal⟩
          else
            ⟨markEnvironmentApprovalGates withGate.1,
              some (gateRequirementResult (.gateAdded added.id added.fronts)), none⟩

end Scarab.Policy
