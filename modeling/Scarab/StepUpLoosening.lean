import Scarab.EnvironmentRelease

/-!
# Governance writes that need no step-up

Which edits of an Environment's governance count as loosening it, and what a write that loosens
nothing can still let through.
-/
namespace Scarab.Project

open Scarab.Policy

/-- One way a write loosens an Environment, in words. -/
structure Loosening where
  what : Text
  deriving DecidableEq

/-- Whether every name `inner` matches also matches `outer`, going by `inner` as text. -/
def globSubsumes (outer inner : Text) : Bool := outer = inner || globMatch outer inner

def covered (old : List Text) (pattern : Text) : Bool := old.any fun o => globSubsumes o pattern

/-- The approvals a gate needs of the baseline's own list. -/
def requiredOf (r : EnvironmentProtectionRules) : ℕ :=
  (r.approvalGate.requiredApprovals.map (·.toNat)).getD r.approvers.length

def secondsText (before after : UInt32) : Text :=
  " from ".toList ++ natText before.toNat ++ " s to ".toList ++ natText after.toNat ++ " s".toList

def expiryLoosenings : Option UInt32 → Option UInt32 → List Loosening
  | some _, none => [⟨"removes the added gate's expiry".toList⟩]
  | some a, some b => if b > a then [⟨"lengthens the added gate's expiry".toList ++ secondsText a b⟩] else []
  | none, _ => []

def approvalGateLoosenings (old new : EnvironmentProtectionRules) : List Loosening :=
  (if old.approvalGate.requiredApprovals ≠ new.approvalGate.requiredApprovals ∧
      requiredOf new < requiredOf old then
    [⟨"lowers the approvals an approval gate needs from ".toList ++ natText (requiredOf old) ++
      " to ".toList ++ natText (requiredOf new)⟩] else []) ++
  (match new.approvalGate.requiredApprovals with
    | none => []
    | some count => (new.approvers.filter (· ∉ old.approvers)).map fun a =>
        ⟨"adds approver ".toList ++ ticked a ++ ", and only ".toList ++ natText count.toNat ++
          " of the approvers must approve".toList⟩) ++
  (if new.approvalGate.maxApprovalAgeS > old.approvalGate.maxApprovalAgeS then
    [⟨"raises the maximum approval age".toList ++
      secondsText old.approvalGate.maxApprovalAgeS new.approvalGate.maxApprovalAgeS⟩] else []) ++
  expiryLoosenings old.approvalGate.addedGateExpiryS new.approvalGate.addedGateExpiryS

/-- Refs can only be widened where they are restricted. -/
def refLoosenings (old new : List Text) : List Loosening :=
  if old.isEmpty then []
  else if new.isEmpty then [⟨"allows any ref".toList⟩]
  else (new.filter fun g => !covered old g).map fun g =>
    ⟨"widens allowed refs: ".toList ++ ticked g⟩

def protectionLoosenings (old new : EnvironmentProtectionRules) : List Loosening :=
  ((old.approvers.filter (· ∉ new.approvers)).map fun a => ⟨"removes approver ".toList ++ ticked a⟩) ++
  refLoosenings old.allowedRefs new.allowedRefs ++
  (if new.waitTimerS < old.waitTimerS then
    [⟨"shortens the wait timer".toList ++ secondsText old.waitTimerS new.waitTimerS⟩] else []) ++
  (if old.requireReason && !new.requireReason then [⟨"no longer requires a reason".toList⟩] else []) ++
  approvalGateLoosenings old new

/-- No overlay reads as the permissive default. -/
def overlayLoosenings (old : Option EnvironmentProjectOverlay) (new : EnvironmentProjectOverlay) :
    List Loosening :=
  protectionLoosenings ((old.map (·.rules)).getD .default) new.rules

def eligibilityLoosenings : EnvironmentProjectEligibility → EnvironmentProjectEligibility →
    List Loosening
  | .allProjects, _ => []
  | .projects _, .allProjects => [⟨"admits every project".toList⟩]
  | .projects p, .projects q => (q.filter fun g => !covered p g).map fun g =>
      ⟨"admits projects matching ".toList ++ ticked g⟩

/-- `Vec::dedup`: equal neighbours become one. -/
def dedupNeighbours : List Loosening → List Loosening
  | a :: b :: l => if a = b then dedupNeighbours (b :: l) else a :: dedupNeighbours (b :: l)
  | l => l

/-- A digest listed twice before is read as the union of its entries. -/
def imageLoosenings (oldImages : List ImageGrant) (image : ImageGrant) : List Loosening :=
  let before := oldImages.filter fun o => o.imageDigest = image.imageDigest
  if before.isEmpty then [⟨"grants image ".toList ++ ticked image.imageDigest⟩]
  else
    (if image.privileged && !before.any (·.privileged) then
      [⟨"lets image ".toList ++ ticked image.imageDigest ++ " run privileged".toList⟩] else []) ++
    (image.capabilities.filter fun cap => !before.any fun o => cap ∈ o.capabilities).map fun cap =>
      ⟨"lets image ".toList ++ ticked image.imageDigest ++ " add capability ".toList ++ ticked cap⟩

def privilegeGrantLoosenings (old : Option EnvironmentProjectPrivilegeGrant)
    (new : EnvironmentProjectPrivilegeGrant) : List Loosening :=
  dedupNeighbours <|
    new.privilegedImages.flatMap
      (imageLoosenings (EnvironmentProjectPrivilegeGrant.whitelist old)) ++
    if new.permitK8sOverlay && !EnvironmentProjectPrivilegeGrant.permitsK8sOverlay old then
      [⟨"permits a raw k8s_overlay".toList⟩] else []

/-- Whatever `p'` permits, `p` permits. -/
structure NoWider (p' p : EffectiveProtection) : Prop where
  refs : ∀ ref, p'.admitsProtectionRef ref = true → p.admitsProtectionRef ref = true
  reasons : ∀ human reason, p'.admitsReason human reason = .ok () →
    p.admitsReason human reason = .ok ()
  releases : ∀ gitRef approvals waitBegan now,
    (gateRelease ⟨gitRef, p', approvals, waitBegan, now⟩).result.outcome = .passed →
      (gateRelease ⟨gitRef, p, approvals, waitBegan, now⟩).result.outcome = .passed

/-- A text some image can be pinned to. -/
def IsDigest (d : Text) : Prop := ∃ image, imageDigest image = some d

/-- What the four kinds of governance write let through when none of them needs a step-up. -/
structure NeverWidens (b b' : EnvironmentProtectionRules) (o : Option EnvironmentProjectOverlay)
    (o' : EnvironmentProjectOverlay) (e e' : EnvironmentProjectEligibility)
    (g : Option EnvironmentProjectPrivilegeGrant) (g' : EnvironmentProjectPrivilegeGrant) :
    Prop where
  baseline : protectionLoosenings b b' = [] →
    ∀ overlay, NoWider (effectiveProtection b' overlay) (effectiveProtection b overlay)
  overlay : overlayLoosenings o o' = [] →
    NoWider (effectiveProtection b (some o')) (effectiveProtection b o)
  eligibility : eligibilityLoosenings e e' = [] →
    ∀ project, e'.admits project = true → e.admits project = true
  privileges : privilegeGrantLoosenings g g' = [] →
    (∀ req image lockedOut,
      (EnvironmentProjectPrivilegeGrant.admitGrants (some g') req image lockedOut).isOk = true →
        (EnvironmentProjectPrivilegeGrant.admitGrants g req image lockedOut).isOk = true) ∧
    (EnvironmentProjectPrivilegeGrant.permitsK8sOverlay (some g') = true →
      EnvironmentProjectPrivilegeGrant.permitsK8sOverlay g = true)

theorem globSubsumes_sound {outer inner name : Text} (h : globSubsumes outer inner = true)
    (hname : globMatch inner name = true) : globMatch outer name = true := by
  rw [globSubsumes, Bool.or_eq_true, decide_eq_true_eq] at h
  rcases h with rfl | h
  · exact hname
  · exact globMatch_iff.mpr ((globMatch_iff.mp h).trans (globMatch_iff.mp hname))

theorem covered_sound {old : List Text} {pattern name : Text} (h : covered old pattern = true)
    (hname : globMatch pattern name = true) : (old.any fun o => globMatch o name) = true := by
  obtain ⟨o, ho, hsub⟩ := List.any_eq_true.mp h
  exact List.any_eq_true.mpr ⟨o, ho, globSubsumes_sound hsub hname⟩

/-- Patterns that are all covered match nothing new. -/
theorem any_covered_sound {old new : List Text} (h : ∀ g ∈ new, covered old g = true) {name : Text}
    (hname : (new.any fun g => globMatch g name) = true) :
    (old.any fun o => globMatch o name) = true := by
  obtain ⟨g, hg, hmatch⟩ := List.any_eq_true.mp hname
  exact covered_sound (h g hg) hmatch

/-- The refs one layer allows. -/
def layerAllows (layer : List Text) (gitRef : Text) : Bool :=
  layer.isEmpty || layer.any fun p => globMatch p gitRef

/-- What no loosening says of two sets of rules. -/
structure Tighter (old new : EnvironmentProtectionRules) : Prop where
  approvers : ∀ a ∈ old.approvers, a ∈ new.approvers
  refs : ∀ gitRef, layerAllows new.allowedRefs gitRef = true →
    layerAllows old.allowedRefs gitRef = true
  anyRef : new.allowedRefs = [] → old.allowedRefs = []
  timer : old.waitTimerS.toNat ≤ new.waitTimerS.toNat
  reason : old.requireReason = true → new.requireReason = true

theorem refLoosenings_nil {old new : List Text} (h : refLoosenings old new = []) :
    (∀ gitRef, layerAllows new gitRef = true → layerAllows old gitRef = true) ∧
      (new = [] → old = []) := by
  cases old with
  | nil => simp [layerAllows]
  | cons o os =>
    cases new with
    | nil => simp [refLoosenings] at h
    | cons n ns =>
      have hcovered : ∀ g ∈ n :: ns, covered (o :: os) g = true := by
        intro g hg
        have hnone := List.filter_eq_nil_iff.mp (List.map_eq_nil_iff.mp h) g hg
        simpa using hnone
      refine ⟨fun gitRef hallows => ?_, by simp⟩
      have hmatch : ((n :: ns).any fun g => globMatch g gitRef) = true := by
        simpa [layerAllows] using hallows
      simpa [layerAllows] using any_covered_sound hcovered hmatch

theorem tighter_of_loosenings {old new : EnvironmentProtectionRules}
    (h : protectionLoosenings old new = []) : Tighter old new := by
  simp only [protectionLoosenings, List.append_eq_nil_iff] at h
  obtain ⟨⟨⟨⟨happrovers, hrefs⟩, htimer⟩, hreason⟩, -⟩ := h
  obtain ⟨hallows, hany⟩ := refLoosenings_nil hrefs
  refine ⟨?_, hallows, hany, ?_, ?_⟩
  · intro a ha
    have hkept := List.filter_eq_nil_iff.mp (List.map_eq_nil_iff.mp happrovers) a ha
    simpa using hkept
  · by_contra hlt
    rw [if_pos (UInt32.lt_iff_toNat_lt.mpr (by omega))] at htimer
    cases htimer
  · intro hold
    by_contra hnew
    rw [if_pos (by simp [hold, hnew])] at hreason
    cases hreason

/-- The baseline's own list is satisfied. -/
def MeetsBaseline (b : EnvironmentProtectionRules) (approvals : List Text) : Prop :=
  match b.approvalGate.requiredApprovals with
  | none => ∀ a ∈ b.approvers, a ∈ approvals
  | some n => min n.toNat b.approvers.length ≤ EffectiveProtection.approvedCount b.approvers approvals

def overlayApproversOf (o : Option EnvironmentProjectOverlay) : List Text :=
  ((o.map (·.rules)).map (·.approvers)).getD []

theorem mem_firstOnce {names : List Text} {a : Text} : a ∈ firstOnce names ↔ a ∈ names := by
  have hfold : ∀ (names acc : List Text),
      a ∈ names.foldl (fun acc a => if a ∈ acc then acc else acc ++ [a]) acc ↔
        a ∈ acc ∨ a ∈ names := by
    intro names
    induction names with
    | nil => simp
    | cons n ns ih =>
      intro acc
      rw [List.foldl_cons, ih]
      split_ifs with hmem
      · grind
      · grind
  simpa [firstOnce] using hfold names []

theorem approvalViolations_effective (b : EnvironmentProtectionRules)
    (o : Option EnvironmentProjectOverlay) (approvals : List Text) :
    (effectiveProtection b o).approvalViolations approvals = [] ↔
      MeetsBaseline b approvals ∧ ∀ a ∈ overlayApproversOf o, a ∈ approvals := by
  have hgate : (effectiveProtection b o).approvalGate = b.approvalGate := rfl
  cases hn : b.approvalGate.requiredApprovals with
  | none =>
    rw [approvalViolations_none (hgate ▸ hn)]
    simp only [MeetsBaseline, hn]
    constructor
    · intro h
      exact ⟨fun a ha => h a (mem_firstOnce.mpr (List.mem_append_left _ ha)),
        fun a ha => h a (mem_firstOnce.mpr (List.mem_append_right _ ha))⟩
    · rintro ⟨hbaseline, hoverlay⟩ a ha
      rcases List.mem_append.mp (mem_firstOnce.mp ha) with ha | ha
      · exact hbaseline a ha
      · exact hoverlay a ha
  | some n =>
    rw [approvalViolations_some (hgate ▸ hn)]
    simp only [MeetsBaseline, hn]
    exact ⟨fun h => ⟨h.baseline, h.overlay⟩, fun h => ⟨h.2, h.1⟩⟩

theorem refAllowed_effective (b : EnvironmentProtectionRules) (o : Option EnvironmentProjectOverlay)
    (gitRef : Text) : (effectiveProtection b o).refAllowed gitRef =
      (layerAllows b.allowedRefs gitRef &&
        o.all fun overlay => layerAllows overlay.rules.allowedRefs gitRef) := by
  cases o with
  | none => rfl
  | some overlay =>
    simp [EffectiveProtection.refAllowed, AllowedRefConstraint.allows, effectiveProtection,
      layerAllows]

theorem admitsReason_ok {p : EffectiveProtection} {human reason : Bool} :
    p.admitsReason human reason = .ok () ↔ (p.requireReason = true → human = true → reason = true) := by
  unfold EffectiveProtection.admitsReason
  split_ifs with h
  · simp only [Bool.and_eq_true, Bool.not_eq_true'] at h
    constructor
    · intro hok
      cases hok
    · intro hall
      simp [hall h.1.1 h.1.2] at h
  · simpa using h

/-- What the approvers, the refs, the timer and the reasons of two protections must be for one to
permit no more than the other. -/
theorem noWider_of {p' p : EffectiveProtection}
    (hrefs : ∀ gitRef, p'.refAllowed gitRef = true → p.refAllowed gitRef = true)
    (hany : p'.unrestrictedRefs = true → p.unrestrictedRefs = true)
    (hreason : p.requireReason = true → p'.requireReason = true)
    (happrovals : ∀ approvals, p'.approvalViolations approvals = [] →
      p.approvalViolations approvals = [])
    (htimer : p.effectiveWaitTimerS.toNat ≤ p'.effectiveWaitTimerS.toNat) : NoWider p' p := by
  refine ⟨?_, ?_, ?_⟩
  · intro ref h
    cases ref with
    | none => exact hany h
    | some gitRef => exact hrefs gitRef h
  · intro human reason h
    rw [admitsReason_ok] at h ⊢
    exact fun hp => h (hreason hp)
  · intro gitRef approvals waitBegan now h
    obtain ⟨hadmits, hnow⟩ := gateRelease_passed.mp h
    obtain ⟨href, hmet⟩ := admits_iff.mp hadmits
    have hearlier : releaseAt p waitBegan ≤ releaseAt p' waitBegan := by
      unfold releaseAt
      apply saturated_mono
      have := saturated_mono (x := p.effectiveWaitTimerS.toNat * 1000)
        (y := p'.effectiveWaitTimerS.toNat * 1000) (by omega)
      omega
    exact gateRelease_passed.mpr
      ⟨admits_iff.mpr ⟨hrefs gitRef href, happrovals approvals hmet⟩, hearlier.trans hnow⟩

/-- Where the new baseline requires a count, every set of names that reaches it satisfies the old
baseline's own list. -/
def CountKept (b b' : EnvironmentProtectionRules) : Prop :=
  b'.approvalGate.requiredApprovals ≠ none →
    ∀ approvals, MeetsBaseline b' approvals → MeetsBaseline b approvals

theorem MeetsBaseline.of_all {b : EnvironmentProtectionRules} {approvals : List Text}
    (h : ∀ a ∈ b.approvers, a ∈ approvals) : MeetsBaseline b approvals := by
  unfold MeetsBaseline
  split
  · exact h
  · have hcount : EffectiveProtection.approvedCount b.approvers approvals = b.approvers.length := by
      rw [EffectiveProtection.approvedCount, List.countP_eq_length]
      simpa using h
    omega

/-- Asking all the new approvers asks all the old ones. -/
theorem meetsBaseline_of_countKept {b b' : EnvironmentProtectionRules} (ht : Tighter b b')
    (hcount : CountKept b b') {approvals : List Text} (h : MeetsBaseline b' approvals) :
    MeetsBaseline b approvals := by
  cases hn : b'.approvalGate.requiredApprovals with
  | some n => exact hcount (by simp [hn]) approvals h
  | none =>
    simp only [MeetsBaseline, hn] at h
    exact .of_all fun a ha => h a (ht.approvers a ha)

theorem approvers_effective_nil {b : EnvironmentProtectionRules}
    {o : Option EnvironmentProjectOverlay} :
    (effectiveProtection b o).approvers = [] ↔ b.approvers = [] ∧ overlayApproversOf o = [] := by
  have happrovers : (effectiveProtection b o).approvers =
      firstOnce (b.approvers ++ overlayApproversOf o) := rfl
  rw [happrovers, List.eq_nil_iff_forall_not_mem, List.eq_nil_iff_forall_not_mem,
    List.eq_nil_iff_forall_not_mem]
  simp only [mem_firstOnce, List.mem_append]
  grind

theorem effectiveWaitTimerS_le {p p' : EffectiveProtection}
    (happrovers : p'.approvers = [] → p.approvers = [])
    (htimer : p.waitTimerS.toNat ≤ p'.waitTimerS.toNat) :
    p.effectiveWaitTimerS.toNat ≤ p'.effectiveWaitTimerS.toNat := by
  unfold EffectiveProtection.effectiveWaitTimerS
  simp only [List.isEmpty_iff]
  split_ifs with h h'
  · simp
  · simp
  · exact absurd (happrovers ‹_›) h
  · exact htimer

theorem toNat_max (x y : UInt32) : (max x y).toNat = max x.toNat y.toNat := by
  have hmax : max x y = if x ≤ y then y else x := rfl
  rw [hmax]
  split_ifs with h
  · have hle := UInt32.le_iff_toNat_le.mp h
    omega
  · have hlt := mt UInt32.le_iff_toNat_le.mpr h
    omega

theorem baseline_noWider {b b' : EnvironmentProtectionRules} (ht : Tighter b b')
    (hcount : CountKept b b') (o : Option EnvironmentProjectOverlay) :
    NoWider (effectiveProtection b' o) (effectiveProtection b o) := by
  apply noWider_of
  · intro gitRef h
    rw [refAllowed_effective, Bool.and_eq_true] at h ⊢
    exact ⟨ht.refs gitRef h.1, h.2⟩
  · intro h
    simp only [EffectiveProtection.unrestrictedRefs, AllowedRefConstraint.isUnrestricted,
      effectiveProtection, List.all_cons, Bool.and_eq_true, List.isEmpty_iff] at h ⊢
    exact ⟨ht.anyRef h.1, h.2⟩
  · intro h
    cases o with
    | none => exact ht.reason h
    | some overlay =>
      simp only [effectiveProtection, Option.map_some, Bool.or_eq_true] at h ⊢
      exact h.imp_left ht.reason
  · intro approvals h
    rw [approvalViolations_effective] at h ⊢
    exact ⟨meetsBaseline_of_countKept ht hcount h.1, h.2⟩
  · apply effectiveWaitTimerS_le
    · rw [approvers_effective_nil, approvers_effective_nil]
      rintro ⟨hb, ho⟩
      refine ⟨List.eq_nil_iff_forall_not_mem.mpr fun a ha => ?_, ho⟩
      simpa [hb] using ht.approvers a ha
    · have htimer := ht.timer
      cases o with
      | none => exact htimer
      | some overlay =>
        simp only [effectiveProtection, Option.map_some, toNat_max]
        omega

/-- An overlay's own settings of the gate are not read, only its other rules. -/
theorem overlay_noWider {o : Option EnvironmentProjectOverlay} {o' : EnvironmentProjectOverlay}
    (ht : Tighter ((o.map (·.rules)).getD .default) o'.rules) (b : EnvironmentProtectionRules) :
    NoWider (effectiveProtection b (some o')) (effectiveProtection b o) := by
  have happrovers : ∀ a ∈ overlayApproversOf o, a ∈ o'.rules.approvers := by
    intro a ha
    cases o with
    | none => simp [overlayApproversOf] at ha
    | some overlay => exact ht.approvers a ha
  apply noWider_of
  · intro gitRef h
    rw [refAllowed_effective, Bool.and_eq_true] at h ⊢
    cases o with
    | none => exact ⟨h.1, rfl⟩
    | some overlay => exact ⟨h.1, ht.refs gitRef h.2⟩
  · intro h
    cases o with
    | none =>
      simp only [EffectiveProtection.unrestrictedRefs, AllowedRefConstraint.isUnrestricted,
        effectiveProtection, Option.map_some, Option.map_none, Option.toList_some,
        Option.toList_none, List.all_cons, List.all_nil, Bool.and_eq_true] at h ⊢
      exact ⟨h.1, trivial⟩
    | some overlay =>
      simp only [EffectiveProtection.unrestrictedRefs, AllowedRefConstraint.isUnrestricted,
        effectiveProtection, Option.map_some, Option.toList_some, List.all_cons, List.all_nil,
        Bool.and_eq_true, List.isEmpty_iff] at h ⊢
      exact ⟨h.1, ht.anyRef h.2.1, trivial⟩
  · intro h
    cases o with
    | none =>
      simp only [effectiveProtection, Option.map_none, Option.map_some, Bool.or_eq_true] at h ⊢
      exact .inl h
    | some overlay =>
      simp only [effectiveProtection, Option.map_some, Bool.or_eq_true] at h ⊢
      exact h.imp_right ht.reason
  · intro approvals h
    rw [approvalViolations_effective] at h ⊢
    exact ⟨h.1, fun a ha => h.2 a (happrovers a ha)⟩
  · apply effectiveWaitTimerS_le
    · rw [approvers_effective_nil, approvers_effective_nil]
      rintro ⟨hb, ho⟩
      refine ⟨hb, List.eq_nil_iff_forall_not_mem.mpr fun a ha => ?_⟩
      have hnew : o'.rules.approvers = [] := ho
      simpa [hnew] using happrovers a ha
    · cases o with
      | none =>
        simp only [effectiveProtection, Option.map_some, Option.map_none, toNat_max]
        omega
      | some overlay =>
        have htimer : overlay.rules.waitTimerS.toNat ≤ o'.rules.waitTimerS.toNat := ht.timer
        simp only [effectiveProtection, Option.map_some, toNat_max]
        omega

theorem eligibility_noWider {e e' : EnvironmentProjectEligibility}
    (h : eligibilityLoosenings e e' = []) {project : Text} (hadmits : e'.admits project = true) :
    e.admits project = true := by
  cases e with
  | allProjects => rfl
  | projects p =>
    cases e' with
    | allProjects => cases h
    | projects q =>
      have hcovered : ∀ g ∈ q, covered p g = true := by
        intro g hg
        have hnone := List.filter_eq_nil_iff.mp (List.map_eq_nil_iff.mp h) g hg
        simpa using hnone
      exact any_covered_sound hcovered hadmits

/-- The entry of a digest that admission reads. -/
def entryOf (images : List ImageGrant) (d : Text) : Option ImageGrant :=
  images.find? fun g => g.imageDigest = d

/-- For every digest, what the first new entry grants the first old entry granted. -/
def FirstEntriesKept (old new : List ImageGrant) : Prop :=
  ∀ d, IsDigest d → ∀ e ∈ entryOf old d, ∀ e' ∈ entryOf new d,
    (e'.privileged = true → e.privileged = true) ∧ ∀ cap ∈ e'.capabilities, cap ∈ e.capabilities

/-- An entry grants a request. -/
def Grants (entry : ImageGrant) (req : GrantRequest) : Prop :=
  (req.privileged = true → entry.privileged = true) ∧
    ∀ cap ∈ req.addCapabilities, cap ∈ entry.capabilities

theorem entryViolations_nil {req : GrantRequest} {entry : ImageGrant} :
    entryViolations req entry = [] ↔ Grants entry req := by
  simp only [entryViolations, List.append_eq_nil_iff, List.map_eq_nil_iff, List.filter_eq_nil_iff,
    decide_eq_true_eq, not_not, Grants]
  constructor
  · rintro ⟨hprivileged, hcaps⟩
    refine ⟨fun hreq => ?_, hcaps⟩
    by_contra hentry
    rw [if_pos (by simp [hreq, hentry])] at hprivileged
    cases hprivileged
  · rintro ⟨hprivileged, hcaps⟩
    refine ⟨if_neg ?_, hcaps⟩
    simp only [Bool.and_eq_true, Bool.not_eq_true']
    rintro ⟨hreq, hentry⟩
    rw [hprivileged hreq] at hentry
    cases hentry

/-- A request for nothing governed is admitted; any other needs a pinned image and its entry. -/
theorem admitGrants_isOk {whitelist : List ImageGrant} {req : GrantRequest} {image : Text}
    {lockedOut : Bool} :
    (admitGrantsAgainstWhitelist whitelist req image lockedOut).isOk = true ↔
      (req.privileged = true ∨ req.addCapabilities ≠ []) →
        lockedOut = false ∧ ∃ d, imageDigest image = some d ∧
          ∃ entry ∈ entryOf whitelist d, Grants entry req := by
  have hasks : (req.privileged || !req.addCapabilities.isEmpty) = true ↔
      (req.privileged = true ∨ req.addCapabilities ≠ []) := by simp
  unfold admitGrantsAgainstWhitelist
  split_ifs with hreq hlocked
  · constructor
    · intro h
      cases h
    · intro h
      simpa [hlocked] using (h (hasks.mp hreq)).1
  · rw [hasks] at hreq
    have hunlocked : lockedOut = false := by simpa using hlocked
    cases hd : imageDigest image with
    | none => simp [hreq, Except.isOk, Except.toBool]
    | some d =>
      cases hentry : whitelist.find? fun g => g.imageDigest = d with
      | none => simp [hreq, hentry, entryOf, Except.isOk, Except.toBool]
      | some entry =>
        simp only [List.isEmpty_iff, entryOf, Option.some.injEq,
          exists_eq_left', hentry, Option.mem_def, hreq, hunlocked, true_and, forall_const]
        split_ifs with hgrants
        · simpa [Except.isOk, Except.toBool] using entryViolations_nil.mp hgrants
        · simpa [Except.isOk, Except.toBool] using mt entryViolations_nil.mpr hgrants
  · simp only [Except.isOk, Except.toBool, true_iff]
    exact fun h => absurd (hasks.mpr h) hreq

/-- A write that loosens no privilege names only digests listed before, and grants each no more
than its entries together did. -/
theorem imageLoosenings_nil {oldImages : List ImageGrant} {image : ImageGrant}
    (h : imageLoosenings oldImages image = []) :
    ∃ o ∈ oldImages, o.imageDigest = image.imageDigest := by
  simp only [imageLoosenings] at h
  split_ifs at h with hnone
  · rw [List.isEmpty_iff, List.filter_eq_nil_iff] at hnone
    simpa using hnone
  · rw [List.isEmpty_iff, List.filter_eq_nil_iff] at hnone
    simpa using hnone

theorem imageLoosenings_nil_union {oldImages : List ImageGrant} {image : ImageGrant}
    (h : imageLoosenings oldImages image = []) :
    (image.privileged = true →
      ∃ o ∈ oldImages, o.imageDigest = image.imageDigest ∧ o.privileged = true) ∧
    ∀ cap ∈ image.capabilities,
      ∃ o ∈ oldImages, o.imageDigest = image.imageDigest ∧ cap ∈ o.capabilities := by
  simp only [imageLoosenings] at h
  rw [ite_eq_iff, or_iff_right (by rintro ⟨-, h⟩; cases h)] at h
  obtain ⟨-, h⟩ := h
  obtain ⟨hprivileged, hcaps⟩ := List.append_eq_nil_iff.mp h
  constructor
  · intro himage
    by_contra hnone
    rw [if_pos] at hprivileged
    · cases hprivileged
    · simpa [himage] using hnone
  · intro cap hcap
    have hsome := List.filter_eq_nil_iff.mp (List.map_eq_nil_iff.mp hcaps) cap hcap
    simpa [and_assoc] using hsome

theorem dedupNeighbours_nil : ∀ {l : List Loosening}, dedupNeighbours l = [] → l = []
  | [], _ => rfl
  | [_], h => h
  | a :: b :: l, h => by
      rw [dedupNeighbours] at h
      split_ifs at h
      exact absurd (dedupNeighbours_nil h) (by simp)

theorem privilegeGrantLoosenings_nil {g : Option EnvironmentProjectPrivilegeGrant}
    {g' : EnvironmentProjectPrivilegeGrant} (h : privilegeGrantLoosenings g g' = []) :
    (∀ image ∈ g'.privilegedImages,
      imageLoosenings (EnvironmentProjectPrivilegeGrant.whitelist g) image = []) ∧
    (g'.permitK8sOverlay = true → EnvironmentProjectPrivilegeGrant.permitsK8sOverlay g = true) := by
  obtain ⟨himages, hoverlay⟩ := List.append_eq_nil_iff.mp (dedupNeighbours_nil h)
  refine ⟨List.flatMap_eq_nil_iff.mp himages, fun hpermits => ?_⟩
  by_contra hold
  rw [if_pos (by simp [hpermits, hold])] at hoverlay
  cases hoverlay

theorem entryOf_isSome_of_loosenings {old new : List ImageGrant} {d : Text} {e' : ImageGrant}
    (h : ∀ image ∈ new, imageLoosenings old image = []) (he' : e' ∈ entryOf new d) :
    ∃ e, e ∈ entryOf old d := by
  have hmem := List.mem_of_find?_eq_some he'
  have hd : e'.imageDigest = d := by simpa using List.find?_some he'
  obtain ⟨o, ho, hdigest⟩ := imageLoosenings_nil (h e' hmem)
  have hsome : ((entryOf old d).isSome) = true := by
    rw [entryOf, List.find?_isSome]
    exact ⟨o, ho, by simpa [hd] using hdigest⟩
  exact Option.isSome_iff_exists.mp hsome

theorem privileges_noWider {g : Option EnvironmentProjectPrivilegeGrant}
    {g' : EnvironmentProjectPrivilegeGrant} (h : privilegeGrantLoosenings g g' = [])
    (hfirst : FirstEntriesKept (EnvironmentProjectPrivilegeGrant.whitelist g) g'.privilegedImages)
    {req : GrantRequest} {image : Text} {lockedOut : Bool}
    (hok : (EnvironmentProjectPrivilegeGrant.admitGrants (some g') req image lockedOut).isOk = true) :
    (EnvironmentProjectPrivilegeGrant.admitGrants g req image lockedOut).isOk = true := by
  unfold EnvironmentProjectPrivilegeGrant.admitGrants at hok ⊢
  rw [admitGrants_isOk] at hok ⊢
  intro hasks
  obtain ⟨hlocked, d, hd, e', he', hgrants⟩ := hok hasks
  obtain ⟨e, he⟩ := entryOf_isSome_of_loosenings (privilegeGrantLoosenings_nil h).1 he'
  obtain ⟨hprivileged, hcaps⟩ := hfirst d ⟨image, hd⟩ e he e' he'
  exact ⟨hlocked, d, hd, e, he, fun hreq => hprivileged (hgrants.1 hreq),
    fun cap hcap => hcaps cap (hgrants.2 cap hcap)⟩

theorem firstEntriesKept_of_privileges {g : Option EnvironmentProjectPrivilegeGrant}
    {g' : EnvironmentProjectPrivilegeGrant}
    (h : ∀ req image lockedOut,
      (EnvironmentProjectPrivilegeGrant.admitGrants (some g') req image lockedOut).isOk = true →
        (EnvironmentProjectPrivilegeGrant.admitGrants g req image lockedOut).isOk = true) :
    FirstEntriesKept (EnvironmentProjectPrivilegeGrant.whitelist g) g'.privilegedImages := by
  rintro d ⟨image, hd⟩ e he e' he'
  have hgrants : ∀ req, (req.privileged = true ∨ req.addCapabilities ≠ []) → Grants e' req →
      Grants e req := by
    intro req hasks hreq
    have hok := h req image false
    unfold EnvironmentProjectPrivilegeGrant.admitGrants at hok
    rw [admitGrants_isOk, admitGrants_isOk] at hok
    obtain ⟨-, d', hd', e₁, he₁, hgrants⟩ := hok (fun _ => ⟨rfl, d, hd, e', he', hreq⟩) hasks
    obtain rfl : d = d' := Option.some.inj (hd.symm.trans hd')
    obtain rfl : e = e₁ := Option.some.inj (he.symm.trans he₁)
    exact hgrants
  constructor
  · intro hprivileged
    exact (hgrants ⟨false, [], true⟩ (.inl rfl) ⟨fun _ => hprivileged, by simp⟩).1 rfl
  · intro cap hcap
    exact (hgrants ⟨false, [cap], false⟩ (.inr (by simp)) ⟨by simp, by simpa using hcap⟩).2 cap
      (by simp)

/-- A baseline's first allowed pattern is itself a ref the baseline allows. -/
theorem exists_layerAllows (layer : List Text) : ∃ gitRef, layerAllows layer gitRef = true := by
  cases layer with
  | nil => exact ⟨[], rfl⟩
  | cons g gs =>
    refine ⟨g, ?_⟩
    have hself : globMatch g g = true := globMatch_iff.mpr (GlobMatches.refl g)
    simp [layerAllows, hself]

/-- A gate of the new baseline that releases on too few approvals would not have released before. -/
theorem countKept_of_noWider {b b' : EnvironmentProtectionRules}
    (h : NoWider (effectiveProtection b' none) (effectiveProtection b none)) : CountKept b b' := by
  intro _ approvals hmeets
  obtain ⟨gitRef, hallows⟩ := exists_layerAllows b'.allowedRefs
  have hadmits : (effectiveProtection b' none).admits gitRef approvals = .ok () := by
    refine admits_iff.mpr ⟨?_, ?_⟩
    · rw [refAllowed_effective]
      simpa using hallows
    · rw [approvalViolations_effective]
      exact ⟨hmeets, by simp [overlayApproversOf]⟩
  have hpassed := h.releases gitRef approvals 0 (releaseAt (effectiveProtection b' none) 0)
    (gateRelease_passed.mpr ⟨hadmits, le_rfl⟩)
  obtain ⟨hold, -⟩ := gateRelease_passed.mp hpassed
  exact ((approvalViolations_effective b none approvals).mp (admits_iff.mp hold).2).1

/-- Names that are each listed once are counted at most as often as in any list that has them all. -/
theorem approvedCount_le_of_nodup {l l' approvals : List Text} (hl : l.Nodup)
    (hsub : ∀ a ∈ l, a ∈ l') : EffectiveProtection.approvedCount l approvals ≤
      EffectiveProtection.approvedCount l' approvals := by
  rw [EffectiveProtection.approvedCount, EffectiveProtection.approvedCount,
    List.countP_eq_length_filter, List.countP_eq_length_filter]
  apply List.Subperm.length_le
  apply List.Nodup.subperm (hl.filter _)
  intro a ha
  obtain ⟨hmem, happroved⟩ := List.mem_filter.mp ha
  exact List.mem_filter.mpr ⟨hsub a hmem, happroved⟩

theorem requiredApprovals_le_of_validate {b : EnvironmentProtectionRules} {n : UInt32}
    (h : b.approvalGate.validate b.approvers = .ok ())
    (hn : b.approvalGate.requiredApprovals = some n) : n.toNat ≤ b.approvers.length := by
  by_contra hlt
  unfold ApprovalGateRules.validate at h
  rw [hn] at h
  simp only [Option.any_some, decide_eq_true_eq] at h
  split_ifs at h
  omega

/-- A baseline that lists each approver once keeps the count. -/
theorem countKept_of_nodup {b b' : EnvironmentProtectionRules}
    (h : protectionLoosenings b b' = []) (hnodup : b'.approvers.Nodup)
    (hvalid : b'.approvalGate.validate b'.approvers = .ok ()) : CountKept b b' := by
  intro hrequired approvals hmeets
  obtain ⟨n, hn⟩ := Option.ne_none_iff_exists'.mp hrequired
  have hle := requiredApprovals_le_of_validate hvalid hn
  have htighter := tighter_of_loosenings h
  obtain ⟨⟨⟨hlower, hadds⟩, -⟩, -⟩ :
      ((_ ∧ _) ∧ _) ∧ expiryLoosenings _ _ = [] := by
    simpa only [approvalGateLoosenings, List.append_eq_nil_iff] using
      (List.append_eq_nil_iff.mp h).2
  have hnew : ∀ a ∈ b'.approvers, a ∈ b.approvers := by
    intro a ha
    rw [hn] at hadds
    simpa using List.filter_eq_nil_iff.mp (List.map_eq_nil_iff.mp hadds) a ha
  have hkept : b.approvalGate.requiredApprovals = some n ∨ requiredOf b ≤ n.toNat := by
    by_contra hnot
    rw [not_or, not_le] at hnot
    rw [if_pos ⟨by rw [hn]; exact hnot.1, by simpa [requiredOf, hn] using hnot.2⟩] at hlower
    cases hlower
  simp only [MeetsBaseline, hn] at hmeets
  have hcount := @approvedCount_le_of_nodup _ _ approvals hnodup hnew
  cases hold : b.approvalGate.requiredApprovals with
  | some k =>
    have hk : k.toNat ≤ n.toNat := by
      rcases hkept with hkept | hkept
      · rw [Option.some.inj (hold.symm.trans hkept)]
      · simpa [requiredOf, hold] using hkept
    simp only [MeetsBaseline, hold]
    omega
  | none =>
    -- All the new entries are needed, and the old ones are among them.
    have hlength : b.approvers.length ≤ n.toNat := by
      simpa [requiredOf, hold] using hkept
    have hnames : b'.approvers.length ≤ b.approvers.length := (hnodup.subperm hnew).length_le
    have hall : EffectiveProtection.approvedCount b'.approvers approvals = b'.approvers.length := by
      have := List.countP_le_length (p := (· ∈ approvals)) (l := b'.approvers)
      unfold EffectiveProtection.approvedCount at hmeets ⊢
      omega
    rw [EffectiveProtection.approvedCount, List.countP_eq_length] at hall
    exact .of_all fun a ha => by simpa using hall a (htighter.approvers a ha)

/-- Where no digest was listed twice, its only entry is the one admission read. -/
theorem firstEntriesKept_of_nodup {old new : List ImageGrant}
    (h : ∀ image ∈ new, imageLoosenings old image = [])
    (hnodup : (old.map (·.imageDigest)).Nodup) : FirstEntriesKept old new := by
  intro d _ e he e' he'
  have hmem := List.mem_of_find?_eq_some he'
  have hd' : e'.imageDigest = d := by simpa using List.find?_some he'
  have hd : e.imageDigest = d := by simpa using List.find?_some he
  have honly : ∀ o ∈ old, o.imageDigest = e'.imageDigest → o = e := by
    intro o ho hdigest
    exact List.inj_on_of_nodup_map hnodup ho (List.mem_of_find?_eq_some he)
      (by rw [hdigest, hd', hd])
  obtain ⟨hprivileged, hcaps⟩ := imageLoosenings_nil_union (h e' hmem)
  constructor
  · intro hnew
    obtain ⟨o, ho, hdigest, hold⟩ := hprivileged hnew
    rwa [honly o ho hdigest] at hold
  · intro cap hcap
    obtain ⟨o, ho, hdigest, hold⟩ := hcaps cap hcap
    rwa [honly o ho hdigest] at hold

/-- A write with no loosening widens nothing exactly when it keeps the baseline's count and, for
every digest, what the first entry granted. -/
theorem neverWidens_iff_kept (b b' : EnvironmentProtectionRules)
    (o : Option EnvironmentProjectOverlay) (o' : EnvironmentProjectOverlay)
    (e e' : EnvironmentProjectEligibility) (g : Option EnvironmentProjectPrivilegeGrant)
    (g' : EnvironmentProjectPrivilegeGrant) :
    NeverWidens b b' o o' e e' g g' ↔
      (protectionLoosenings b b' = [] → CountKept b b') ∧
      (privilegeGrantLoosenings g g' = [] →
        FirstEntriesKept (EnvironmentProjectPrivilegeGrant.whitelist g) g'.privilegedImages) := by
  constructor
  · intro h
    exact ⟨fun hb => countKept_of_noWider (h.baseline hb none),
      fun hg => firstEntriesKept_of_privileges (h.privileges hg).1⟩
  · rintro ⟨hcount, hfirst⟩
    refine ⟨fun hb => ?_, fun ho => ?_, fun he project => ?_, fun hg => ⟨?_, ?_⟩⟩
    · exact baseline_noWider (tighter_of_loosenings hb) (hcount hb)
    · exact overlay_noWider (tighter_of_loosenings ho) b
    · exact eligibility_noWider he
    · exact fun req image lockedOut => privileges_noWider hg (hfirst hg)
    · simpa [EnvironmentProjectPrivilegeGrant.permitsK8sOverlay] using
        (privilegeGrantLoosenings_nil hg).2

/-- When a write with no loosening widens nothing; it does not where the new baseline lists each
approver once and the old grant each digest once. -/
theorem never_widens_iff (b b' : EnvironmentProtectionRules) (o : Option EnvironmentProjectOverlay)
    (o' : EnvironmentProjectOverlay) (e e' : EnvironmentProjectEligibility)
    (g : Option EnvironmentProjectPrivilegeGrant) (g' : EnvironmentProjectPrivilegeGrant) :
    (NeverWidens b b' o o' e e' g g' ↔
      (protectionLoosenings b b' = [] → CountKept b b') ∧
      (privilegeGrantLoosenings g g' = [] →
        FirstEntriesKept (EnvironmentProjectPrivilegeGrant.whitelist g) g'.privilegedImages)) ∧
    (b'.approvalGate.validate b'.approvers = .ok () → b'.approvers.Nodup →
      ((EnvironmentProjectPrivilegeGrant.whitelist g).map (·.imageDigest)).Nodup →
        NeverWidens b b' o o' e e' g g') := by
  have hiff := neverWidens_iff_kept b b' o o' e e' g g'
  refine ⟨hiff, fun hvalid hnames hdigests => hiff.mpr ⟨fun hb => ?_, fun hg => ?_⟩⟩
  · exact countKept_of_nodup hb hnames hvalid
  · exact firstEntriesKept_of_nodup (privilegeGrantLoosenings_nil hg).1 hdigests

-- Two writes that need no step-up: a count reached by naming one approver twice, and a digest
-- whose second entry becomes its first.

def bothMustApprove : EnvironmentProtectionRules :=
  { EnvironmentProtectionRules.default with approvers := ["amy".toList, "bo".toList] }

def amyTwice : EnvironmentProtectionRules :=
  { EnvironmentProtectionRules.default with
    approvers := ["amy".toList, "amy".toList, "bo".toList]
    approvalGate := { ApprovalGateRules.default with requiredApprovals := some 2 } }

def grantOf (images : List ImageGrant) : EnvironmentProjectPrivilegeGrant :=
  ⟨"acme".toList, "prod".toList, "web".toList, images, false⟩

def plainImage : ImageGrant := ⟨"sha256:ab".toList, false, []⟩

def privilegedImage : ImageGrant := ⟨"sha256:ab".toList, true, []⟩

theorem loosenings_miss_repeats :
    (bothMustApprove.approvalGate.validate bothMustApprove.approvers = .ok () ∧
      amyTwice.approvalGate.validate amyTwice.approvers = .ok () ∧
      ¬ NeverWidens bothMustApprove amyTwice none boOverlay .allProjects .allProjects none
        (grantOf [])) ∧
    ¬ NeverWidens bothMustApprove bothMustApprove none boOverlay .allProjects .allProjects
      (some (grantOf [plainImage, privilegedImage])) (grantOf [privilegedImage]) := by
  constructor
  · refine ⟨by decide, by decide, fun h => ?_⟩
    have hnone : protectionLoosenings bothMustApprove amyTwice = [] := by decide
    have hcount := countKept_of_noWider (h.baseline hnone none) (by decide) ["amy".toList]
    have hmissed : ¬ MeetsBaseline bothMustApprove ["amy".toList] := by
      intro hmeets
      exact absurd (hmeets "bo".toList (by decide)) (by decide)
    have hreached : MeetsBaseline amyTwice ["amy".toList] := by
      have hcounted : min (2 : UInt32).toNat amyTwice.approvers.length ≤
          EffectiveProtection.approvedCount amyTwice.approvers ["amy".toList] := by decide
      exact hcounted
    exact hmissed (hcount hreached)
  · intro h
    have hnone : privilegeGrantLoosenings (some (grantOf [plainImage, privilegedImage]))
        (grantOf [privilegedImage]) = [] := by decide
    have hdigest : imageDigest "web@sha256:ab".toList = some "sha256:ab".toList := by decide
    have hkept := firstEntriesKept_of_privileges (h.privileges hnone).1 "sha256:ab".toList
      ⟨"web@sha256:ab".toList, hdigest⟩ plainImage rfl privilegedImage rfl
    exact absurd (hkept.1 rfl) (by decide)

end Scarab.Project
