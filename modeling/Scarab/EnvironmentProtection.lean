import Scarab.GlobMatch
import Scarab.TextBasics

/-!
# The protection of an Environment

The baseline an Environment's admin sets, one Project's overlay, the rules admission enforces from
both, the Projects that may deploy and the privileges one Project holds. What is refused is reported
as the result of a Policy.
-/
namespace Scarab.Project

/-- A name between backticks, as messages show it. -/
def ticked (name : Text) : Text := '`' :: name ++ ['`']

def joinText (sep : Text) (parts : List Text) : Text := (parts.intersperse sep).flatten

inductive MissingGateMode where
  | add | refuse
  deriving DecidableEq

structure ApprovalGateRules where
  missingGate : MissingGateMode
  addedGateExpiryS : Option UInt32
  requiredApprovals : Option UInt32
  maxApprovalAgeS : UInt32
  deriving DecidableEq

def defaultMaxApprovalAgeS : UInt32 := 24 * 60 * 60

def ApprovalGateRules.default : ApprovalGateRules := ⟨.add, none, none, defaultMaxApprovalAgeS⟩

/-- The settings against the baseline's approvers. -/
def ApprovalGateRules.validate (r : ApprovalGateRules) (approvers : List Text) :
    Except Text Unit :=
  if r.requiredApprovals = some 0 then
    .error "required approvals must be at least 1".toList
  else if r.requiredApprovals.any (fun n => decide (n.toNat > approvers.length)) then
    .error ("required approvals is ".toList ++ natText ((r.requiredApprovals.getD 0).toNat) ++
      ", but the baseline lists ".toList ++ natText approvers.length ++ " approver(s)".toList)
  else if r.addedGateExpiryS = some 0 then
    .error "the added gate's expiry must be at least 1 second".toList
  else if r.maxApprovalAgeS = 0 then
    .error "the maximum approval age must be at least 1 second".toList
  else .ok ()

structure EnvironmentProtectionRules where
  approvers : List Text
  allowedRefs : List Text
  waitTimerS : UInt32
  requireReason : Bool
  approvalGate : ApprovalGateRules
  deriving DecidableEq

/-- No approvers, any ref, no timer, no reason. -/
def EnvironmentProtectionRules.default : EnvironmentProtectionRules :=
  ⟨[], [], 0, false, .default⟩

structure EnvironmentProjectOverlay where
  org : Text
  environment : Text
  project : Text
  rules : EnvironmentProtectionRules

/-- One list of patterns per layer; an empty layer allows any ref. -/
structure AllowedRefConstraint where
  layers : List (List Text)

def AllowedRefConstraint.allows (c : AllowedRefConstraint) (gitRef : Text) : Bool :=
  c.layers.all fun layer => layer.isEmpty || layer.any fun p => globMatch p gitRef

def AllowedRefConstraint.isUnrestricted (c : AllowedRefConstraint) : Bool :=
  c.layers.all List.isEmpty

structure EffectiveProtection where
  approvers : List Text
  baselineApprovers : List Text
  overlayApprovers : List Text
  allowedRefs : AllowedRefConstraint
  waitTimerS : UInt32
  requireReason : Bool
  approvalGate : ApprovalGateRules

/-- Each name once, where it first stands. -/
def firstOnce (names : List Text) : List Text :=
  names.foldl (fun acc a => if a ∈ acc then acc else acc ++ [a]) []

def effectiveProtection (baseline : EnvironmentProtectionRules)
    (overlay : Option EnvironmentProjectOverlay) : EffectiveProtection :=
  let overlayRules := overlay.map (·.rules)
  let overlayApprovers := (overlayRules.map (·.approvers)).getD []
  { approvers := firstOnce (baseline.approvers ++ overlayApprovers)
    baselineApprovers := baseline.approvers
    overlayApprovers := overlayApprovers
    allowedRefs := ⟨baseline.allowedRefs :: (overlayRules.map (·.allowedRefs)).toList⟩
    waitTimerS := match overlayRules with
      | none => baseline.waitTimerS
      | some o => max baseline.waitTimerS o.waitTimerS
    requireReason := match overlayRules with
      | none => baseline.requireReason
      | some o => baseline.requireReason || o.requireReason
    approvalGate := baseline.approvalGate }

namespace EffectiveProtection

def refAllowed (p : EffectiveProtection) (gitRef : Text) : Bool := p.allowedRefs.allows gitRef

def unrestrictedRefs (p : EffectiveProtection) : Bool := p.allowedRefs.isUnrestricted

/-- An event with no symbolic ref is admitted only where refs are unrestricted. -/
def admitsProtectionRef (p : EffectiveProtection) : Option Text → Bool
  | some gitRef => p.refAllowed gitRef
  | none => p.unrestrictedRefs

def missingApproval (who : Text) : Text := "missing required approval from ".toList ++ ticked who

/-- How many entries of a list of approvers have approved. -/
def approvedCount (approvers approvals : List Text) : ℕ := approvers.countP (· ∈ approvals)

/-- What the approvals still lack. -/
def approvalViolations (p : EffectiveProtection) (approvals : List Text) : List Text :=
  match p.approvalGate.requiredApprovals with
  | none => (p.approvers.filter (· ∉ approvals)).map missingApproval
  | some n =>
      let have_ := approvedCount p.baselineApprovers approvals
      let need := min n.toNat p.baselineApprovers.length
      (p.overlayApprovers.filter (· ∉ approvals)).map missingApproval ++
        if have_ < need then
          ["needs ".toList ++ natText need ++ " approval(s) from ".toList ++
            joinText ", ".toList (p.baselineApprovers.map ticked) ++ "; has ".toList ++ natText have_]
        else []

def admits (p : EffectiveProtection) (gitRef : Text) (approvals : List Text) :
    Except (List Text) Unit :=
  let violations :=
    (if p.refAllowed gitRef then []
      else ["ref ".toList ++ ticked gitRef ++ " is not allowed to deploy here".toList]) ++
      p.approvalViolations approvals
  if violations.isEmpty then .ok () else .error violations

def effectiveWaitTimerS (p : EffectiveProtection) : UInt32 :=
  if p.approvers.isEmpty then 0 else p.waitTimerS

/-- Texts in the order of their characters. -/
def sortTexts (names : List Text) : List Text := names.mergeSort fun a b => decide (a ≤ b)

/-- What a release is recorded with and every launch compares: the approvers, sorted, and how many
of the baseline's are required. -/
def approverSet (p : EffectiveProtection) : List Text × Option UInt32 :=
  (sortTexts p.approvers, p.approvalGate.requiredApprovals)

def admitsReason (p : EffectiveProtection) (isHumanDispatch hasReason : Bool) :
    Except (List Text) Unit :=
  if p.requireReason && isHumanDispatch && !hasReason then
    .error ["a reason is required to dispatch a run into this environment".toList]
  else .ok ()

end EffectiveProtection

inductive EnvironmentProjectEligibility where
  | allProjects
  | projects (patterns : List Text)

def EnvironmentProjectEligibility.admits (project : Text) : EnvironmentProjectEligibility → Bool
  | .allProjects => true
  | .projects patterns => patterns.any fun p => globMatch p project

structure ImageGrant where
  imageDigest : Text
  privileged : Bool
  capabilities : List Text

structure GrantRequest where
  runAsRoot : Bool
  addCapabilities : List Text
  privileged : Bool

structure AdmittedGrants where
  runAsRoot : Bool
  addCapabilities : List Text
  privileged : Bool
  deriving DecidableEq

structure EnvironmentProjectPrivilegeGrant where
  org : Text
  environment : Text
  project : Text
  privilegedImages : List ImageGrant
  permitK8sOverlay : Bool

/-- The `sha256:` digest an image is pinned to. -/
def imageDigest (image : Text) : Option Text :=
  ((rsplitOnce '@' image).map (·.2)).filter fun d => "sha256:".toList.isPrefixOf d

/-- What a whitelist entry refuses of a request. -/
def entryViolations (req : GrantRequest) (entry : ImageGrant) : List Text :=
  (if req.privileged && !entry.privileged then
    ["`privileged` is not granted to this image digest".toList] else []) ++
  (req.addCapabilities.filter (· ∉ entry.capabilities)).map fun cap =>
    "capability ".toList ++ ticked cap ++ " is not granted to this image digest".toList

/-- The first entry of a digest decides. -/
def admitGrantsAgainstWhitelist (whitelist : List ImageGrant) (req : GrantRequest) (image : Text)
    (lockedOut : Bool) : Except (List Text) AdmittedGrants :=
  if req.privileged || !req.addCapabilities.isEmpty then
    if lockedOut then
      .error ["fork-PR run is locked out of governed grants (add-capabilities/privileged)".toList]
    else
      match imageDigest image with
      | none => .error ["image ".toList ++ ticked image ++
          " requests a governed grant but is not pinned to a digest (repo@sha256:…)".toList]
      | some d =>
          match whitelist.find? fun g => g.imageDigest = d with
          | none => .error ["image digest ".toList ++ ticked d ++
              " is not whitelisted for governed grants in this environment".toList]
          | some entry =>
              if (entryViolations req entry).isEmpty then
                .ok ⟨req.runAsRoot, req.addCapabilities, req.privileged⟩
              else .error (entryViolations req entry)
  else .ok ⟨req.runAsRoot, [], false⟩

namespace EnvironmentProjectPrivilegeGrant

def whitelist (grant : Option EnvironmentProjectPrivilegeGrant) : List ImageGrant :=
  (grant.map (·.privilegedImages)).getD []

def admitGrants (grant : Option EnvironmentProjectPrivilegeGrant) (req : GrantRequest)
    (image : Text) (lockedOut : Bool) : Except (List Text) AdmittedGrants :=
  admitGrantsAgainstWhitelist (whitelist grant) req image lockedOut

def permitsK8sOverlay (grant : Option EnvironmentProjectPrivilegeGrant) : Bool :=
  grant.any (·.permitK8sOverlay)

end EnvironmentProjectPrivilegeGrant

end Scarab.Project

namespace Scarab.Policy

inductive Level where
  | org | project
  deriving DecidableEq

inductive Mode where
  | enforce | audit
  deriving DecidableEq

/-- What one Policy, or one rule built into the engine, says at a checkpoint. -/
inductive PolicyOutcome where
  | notMatched
  | passed
  | denied (messages : List Text)
  | wouldDeny (messages : List Text)
  | error (message : Text)
  | gateAdded (gate : Text) (fronts : List Text)
  | requires (messages : List Text)
  deriving DecidableEq

structure PolicyResult where
  policyId : Text
  version : ℕ
  name : Text
  level : Level
  mode : Mode
  outcome : PolicyOutcome
  deriving DecidableEq

/-- The result of a rule built into the engine: enforced, at the org level. -/
def builtin (id name : Text) (outcome : PolicyOutcome) : PolicyResult :=
  ⟨id, 0, name, .org, .enforce, outcome⟩

end Scarab.Policy
