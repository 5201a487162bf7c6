import Scarab.EnvironmentProtection

/-!
# Release of an approval gate and re-check at launch

A gate releases on approvals that meet the Environment's two layers, and records the approver set
they met. A launch behind it compares the record with the approver set of that moment.
-/
namespace Scarab.Policy

open Scarab.Project

/-- A 64-bit signed result that saturates. -/
def saturated (x : ℤ) : ℤ := max (-2 ^ 63) (min (2 ^ 63 - 1) x)

theorem saturated_mono {x y : ℤ} (h : x ≤ y) : saturated x ≤ saturated y := by
  unfold saturated
  omega

theorem le_of_saturated_le {x y : ℤ} (hy : y < 2 ^ 63 - 1) (h : saturated x ≤ y) : x ≤ y := by
  unfold saturated at h
  omega

structure GateReleaseFacts where
  gitRef : Text
  protection : EffectiveProtection
  approvals : List Text
  waitBeganMs : ℤ
  nowMs : ℤ

/-- The approver set that approvals met, and when the wait timer runs out. -/
structure ApprovalMet where
  approvers : List Text
  required : Option UInt32
  releaseAt : ℤ

structure GateRelease where
  result : PolicyResult
  met : Option ApprovalMet

def gateReleaseResult (outcome : PolicyOutcome) : PolicyResult :=
  builtin "builtin:environment_approval_release".toList "environment-approval-release".toList outcome

/-- When the wait timer of a gate runs out. -/
def releaseAt (p : EffectiveProtection) (waitBeganMs : ℤ) : ℤ :=
  saturated (waitBeganMs + saturated (p.effectiveWaitTimerS.toNat * 1000))

def waitMessage (timerS : UInt32) (leftMs : ℤ) : Text :=
  "the approvals are in; the wait timer of ".toList ++ natText timerS.toNat ++ " s runs for ".toList ++
    natText ((leftMs + 999).tdiv 1000).toNat ++ " s more".toList

def gateRelease (f : GateReleaseFacts) : GateRelease :=
  match f.protection.admits f.gitRef f.approvals with
  | .error violations => ⟨gateReleaseResult (.requires violations), none⟩
  | .ok () =>
      let at_ := releaseAt f.protection f.waitBeganMs
      let set := f.protection.approverSet
      ⟨gateReleaseResult
          (if f.nowMs < at_ then
            .requires [waitMessage f.protection.effectiveWaitTimerS (at_ - f.nowMs)]
          else .passed),
        some ⟨set.1, set.2, at_⟩⟩

structure UpstreamGateFacts where
  gate : Text
  releasedAt : Option ℤ
  met : Option (List Text × Option UInt32)

structure LaunchFacts where
  environment : Text
  gitRef : Text
  protection : EffectiveProtection
  step : Text
  usesAuthority : Option Bool
  approvalGates : List UpstreamGateFacts
  nowMs : ℤ

structure LaunchCheck where
  result : Option PolicyResult
  refusal : Option Text
  beforeApproval : Bool

def maxAgeMs (p : EffectiveProtection) : ℤ := p.approvalGate.maxApprovalAgeS.toNat * 1000

def noGateRefusal (f : LaunchFacts) : Text :=
  "step ".toList ++ ticked f.step ++ " uses environment ".toList ++ ticked f.environment ++
    "'s authority, and no Environment approval gate is upstream of it: the Run was created before ".toList ++
    ticked f.environment ++ " had approvers, or no `gate: manual` guards the step; start a new Run so ".toList ++
    ticked f.environment ++ " can add its gate".toList

def refRefusal (f : LaunchFacts) : Text :=
  "ref ".toList ++ ticked f.gitRef ++ " is no longer allowed to deploy to environment ".toList ++
    ticked f.environment

def unreleasedRefusal (f : LaunchFacts) (gate : UpstreamGateFacts) : Text :=
  "Environment approval gate ".toList ++ ticked gate.gate ++ " upstream of step ".toList ++
    ticked f.step ++ " has not released".toList

def ageRefusal (f : LaunchFacts) (gate : UpstreamGateFacts) (ageMs : ℤ) : Text :=
  "Environment approval gate ".toList ++ ticked gate.gate ++ " released ".toList ++
    natText (ageMs.tdiv 1000).toNat ++ " s ago, longer than environment ".toList ++
    ticked f.environment ++ "'s maximum approval age of ".toList ++
    natText f.protection.approvalGate.maxApprovalAgeS.toNat ++
    " s; rerun the gate to ask the approvers again".toList

def approversRefusal (f : LaunchFacts) (gate : UpstreamGateFacts) : Text :=
  "environment ".toList ++ ticked f.environment ++
    "'s approvers changed since Environment approval gate ".toList ++ ticked gate.gate ++
    " released; rerun the gate to ask the approvers again".toList

/-- Why one gate does not admit the step; `none` when it does. -/
def gateRefusal (f : LaunchFacts) (gate : UpstreamGateFacts) : Option Text :=
  match gate.releasedAt with
  | none => some (unreleasedRefusal f gate)
  | some released =>
      let ageMs := saturated (f.nowMs - released)
      if ageMs > maxAgeMs f.protection then some (ageRefusal f gate ageMs)
      else if gate.met.any fun m => decide (m ≠ f.protection.approverSet) then
        some (approversRefusal f gate)
      else none

/-- One gate that admits the step is enough; else the reason is that of the gate latest in the
pipeline. -/
def refusal (f : LaunchFacts) : Option Text :=
  if f.approvalGates.isEmpty then some (noGateRefusal f)
  else if !f.protection.refAllowed f.gitRef then some (refRefusal f)
  else
    let whys := f.approvalGates.reverse.map (gateRefusal f)
    if none ∈ whys then none else whys.head?.join

def launchRecheck (f : LaunchFacts) : LaunchCheck :=
  if f.protection.approvers.isEmpty then ⟨none, none, false⟩
  else
    let unqualified := refusal f
    let refused := unqualified.filter fun _ => f.usesAuthority = some true
    ⟨some (builtin "builtin:environment_approval_recheck".toList "environment-approval-recheck".toList
        (match refused with
          | none => .passed
          | some r => .denied [r])),
      refused, unqualified.isSome⟩

/-- The two layers' approvals: of every overlay approver, and of as many entries of the baseline's
list as are required. -/
structure MeetsLayers (p : EffectiveProtection) (n : ℕ) (approvals : List Text) : Prop where
  overlay : ∀ a ∈ p.overlayApprovers, a ∈ approvals
  baseline : min n p.baselineApprovers.length ≤
    EffectiveProtection.approvedCount p.baselineApprovers approvals

theorem approvalViolations_none {p : EffectiveProtection}
    (hn : p.approvalGate.requiredApprovals = none) (approvals : List Text) :
    p.approvalViolations approvals = [] ↔ ∀ a ∈ p.approvers, a ∈ approvals := by
  simp [EffectiveProtection.approvalViolations, hn]

theorem approvalViolations_some {p : EffectiveProtection} {n : UInt32}
    (hn : p.approvalGate.requiredApprovals = some n) (approvals : List Text) :
    p.approvalViolations approvals = [] ↔ MeetsLayers p n.toNat approvals := by
  simp only [EffectiveProtection.approvalViolations, hn, List.append_eq_nil_iff,
    List.map_eq_nil_iff, List.filter_eq_nil_iff, decide_eq_true_eq, not_not]
  constructor
  · rintro ⟨hoverlay, hcount⟩
    refine ⟨hoverlay, ?_⟩
    by_contra hlt
    rw [if_pos (by omega)] at hcount
    cases hcount
  · rintro ⟨hoverlay, hcount⟩
    refine ⟨hoverlay, ?_⟩
    rw [if_neg (by omega)]

theorem admits_iff {p : EffectiveProtection} {gitRef : Text} {approvals : List Text} :
    p.admits gitRef approvals = .ok () ↔
      p.refAllowed gitRef = true ∧ p.approvalViolations approvals = [] := by
  unfold EffectiveProtection.admits
  cases h : p.refAllowed gitRef <;> simp

/-- A gate that may release now. -/
theorem gateRelease_passed {f : GateReleaseFacts} :
    (gateRelease f).result.outcome = .passed ↔
      f.protection.admits f.gitRef f.approvals = .ok () ∧
        releaseAt f.protection f.waitBeganMs ≤ f.nowMs := by
  unfold gateRelease
  cases h : f.protection.admits f.gitRef f.approvals with
  | error violations => simp [gateReleaseResult, builtin]
  | ok u =>
    simp only [gateReleaseResult, builtin, true_and]
    split_ifs with hnow
    · simp
      omega
    · simp
      omega

theorem gateRelease_met {f : GateReleaseFacts} {m : ApprovalMet} (h : (gateRelease f).met = some m) :
    f.protection.admits f.gitRef f.approvals = .ok () ∧
      (m.approvers, m.required) = f.protection.approverSet := by
  unfold gateRelease at h
  cases hadmits : f.protection.admits f.gitRef f.approvals with
  | error violations => simp [hadmits] at h
  | ok u =>
    simp only [hadmits, Option.some.injEq] at h
    rw [← h]
    exact ⟨rfl, rfl⟩

/-- A launch behind one released gate. -/
def behindOne (environment gitRef : Text) (p : EffectiveProtection) (step : Text)
    (usesAuthority : Option Bool) (gate : Text) (released : ℤ)
    (met : List Text × Option UInt32) (nowMs : ℤ) : LaunchFacts :=
  ⟨environment, gitRef, p, step, usesAuthority, [⟨gate, some released, some met⟩], nowMs⟩

theorem behindOne_admitted {environment gitRef step gate : Text} {p : EffectiveProtection}
    {uses : Option Bool} {released now : ℤ} {met : List Text × Option UInt32}
    (hp : p.approvers ≠ []) :
    (launchRecheck (behindOne environment gitRef p step uses gate released met now)).beforeApproval =
        false ↔
      p.refAllowed gitRef = true ∧ saturated (now - released) ≤ maxAgeMs p ∧
        met = p.approverSet := by
  set f := behindOne environment gitRef p step uses gate released met now with hf
  have hprotection : f.protection = p := rfl
  have hbefore : (launchRecheck f).beforeApproval = (refusal f).isSome := by
    have hne : p.approvers.isEmpty = false := by simpa using hp
    simp [launchRecheck, hprotection, hne]
  have hone : refusal f =
      if p.refAllowed gitRef then gateRefusal f ⟨gate, some released, some met⟩
      else some (refRefusal f) := by
    by_cases href : p.refAllowed gitRef = true
    · cases hgate : gateRefusal f ⟨gate, some released, some met⟩ <;>
        simp [refusal, hf, behindOne, href, ← hgate]
    · simp [refusal, hf, behindOne, href]
  rw [hbefore, hone]
  by_cases href : p.refAllowed gitRef = true
  · rw [if_pos href]
    simp only [gateRefusal, hprotection, href, true_and]
    by_cases hage : saturated (now - released) > maxAgeMs p
    · simp [hf, behindOne, hage]
    · by_cases hmet : met = p.approverSet
      · simp [hf, behindOne, hage, hmet]
        omega
      · simp [hf, behindOne, hage, hmet]
  · simp [href]

/-- Whatever approvals released a gate under `p₁`, a launch behind that gate alone that `p₂` does
not hold back has approvals `p₂` admits, from a release within its maximum approval age. -/
def LaunchesOnlyApproved (p₁ p₂ : EffectiveProtection) (gitRef : Text) : Prop :=
  ∀ approvals waitBegan now met,
    (gateRelease ⟨gitRef, p₁, approvals, waitBegan, now⟩).met = some met →
    (gateRelease ⟨gitRef, p₁, approvals, waitBegan, now⟩).result.outcome = .passed →
    ∀ environment step uses gate released launched,
      (launchRecheck (behindOne environment gitRef p₂ step uses gate released
        (met.approvers, met.required) launched)).beforeApproval = false →
      p₂.approvers ≠ [] →
      p₂.admits gitRef approvals = .ok () ∧ launched - released ≤ maxAgeMs p₂

/-- With a required count, every set of approvers that meets the layers of `p₁` meets those of
`p₂`. -/
def LayersKept (p₁ p₂ : EffectiveProtection) : Prop :=
  ∀ n, p₁.approvalGate.requiredApprovals = some n →
    ∀ approvals, MeetsLayers p₁ n.toNat approvals → MeetsLayers p₂ n.toNat approvals

/-- Whichever of the candidates make up `need` entries of `counted`, they have `least` entries of
`pool`. -/
def alwaysHas (counted pool : List Text) : List Text → ℕ → ℕ → Bool
  | [], need, least => decide (0 < need) || decide (least = 0)
  | x :: xs, need, least =>
      alwaysHas counted pool xs need least &&
        alwaysHas counted pool xs (need - counted.count x) (least - pool.count x)

theorem alwaysHas_iff {counted pool : List Text} {candidates : List Text} {need least : ℕ} :
    alwaysHas counted pool candidates need least = true ↔
      ∀ chosen : List Text, chosen.Sublist candidates → need ≤ (chosen.map counted.count).sum →
        least ≤ (chosen.map pool.count).sum := by
  induction candidates generalizing need least with
  | nil =>
    simp only [alwaysHas, Bool.or_eq_true, decide_eq_true_eq, List.sublist_nil, forall_eq,
      List.map_nil, List.sum_nil]
    omega
  | cons x xs ih =>
    simp only [alwaysHas, Bool.and_eq_true, ih]
    constructor
    · rintro ⟨hskip, htake⟩ chosen hchosen hneed
      rcases List.sublist_cons_iff.mp hchosen with hchosen | ⟨rest, rfl, hrest⟩
      · exact hskip chosen hchosen hneed
      · have htaken := htake rest hrest
        simp only [List.map_cons, List.sum_cons] at hneed ⊢
        omega
    · refine fun h => ⟨fun chosen hchosen => h chosen (hchosen.cons x), fun rest hrest hneed => ?_⟩
      have htaken := h (x :: rest) (hrest.cons_cons x)
      simp only [List.map_cons, List.sum_cons] at htaken
      omega

/-- With one entry for each candidate the fewest of `pool` are left by choosing others first. -/
theorem alwaysHas_of_nodup {counted pool : List Text} (hpool : pool.Nodup) :
    ∀ {candidates : List Text} {need least : ℕ}, (∀ x ∈ candidates, counted.count x = 1) →
      (alwaysHas counted pool candidates need least = true ↔
        candidates.length < need ∨ least ≤ need - candidates.countP (· ∉ pool)) := by
  intro candidates
  induction candidates with
  | nil =>
    intro need least _
    simp only [alwaysHas, Bool.or_eq_true, decide_eq_true_eq, List.length_nil, List.countP_nil]
    omega
  | cons x xs ih =>
    intro need least hone
    have hrest : ∀ y ∈ xs, counted.count y = 1 := fun y hy => hone y (List.mem_cons_of_mem _ hy)
    have hle : xs.countP (· ∉ pool) ≤ xs.length := List.countP_le_length
    simp only [alwaysHas, Bool.and_eq_true, ih hrest, hone x List.mem_cons_self, List.length_cons,
      List.countP_cons]
    by_cases hx : x ∈ pool
    · simp only [List.count_eq_one_of_mem hpool hx, hx, not_true_eq_false, decide_false,
        Bool.false_eq_true, if_false]
      omega
    · simp only [List.count_eq_zero_of_not_mem hx, hx, not_false_eq_true, decide_true, if_true]
      omega

/-- The baseline's approvers that are no overlay approvers. -/
def countedOnly (p : EffectiveProtection) : List Text :=
  p.baselineApprovers.dedup.filter (· ∉ p.overlayApprovers)

/-- How the two layers may be edited between a release and a launch when `n` approvals are counted:
each overlay approver of the launch is one of the release, or its count cannot be met without that
approver; and the entries of the launch's baseline that an approved release always has are enough
for its count. -/
structure LayersSafe (p₁ p₂ : EffectiveProtection) (n : ℕ) : Prop where
  overlay : ∀ a ∈ p₂.overlayApprovers, a ∈ p₁.overlayApprovers ∨
    p₁.baselineApprovers.length < min n p₁.baselineApprovers.length + p₁.baselineApprovers.count a
  counted : alwaysHas p₁.baselineApprovers p₂.baselineApprovers (countedOnly p₁)
    (min n p₁.baselineApprovers.length - p₁.baselineApprovers.countP (· ∈ p₁.overlayApprovers))
    (min n p₂.baselineApprovers.length - p₂.baselineApprovers.countP (· ∈ p₁.overlayApprovers)) = true

/-- Where no approver is listed twice in a baseline, the second condition is arithmetic: of the count
that the overlay's approvers leave open, those who are not in the launch's baseline are lost. -/
theorem layersSafe_of_nodup {p₁ p₂ : EffectiveProtection} (h₁ : p₁.baselineApprovers.Nodup)
    (h₂ : p₂.baselineApprovers.Nodup) (n : ℕ) :
    LayersSafe p₁ p₂ n ↔
      (∀ a ∈ p₂.overlayApprovers, a ∈ p₁.overlayApprovers ∨
        a ∈ p₁.baselineApprovers ∧ p₁.baselineApprovers.length ≤ n) ∧
      min n p₂.baselineApprovers.length ≤
        p₂.baselineApprovers.countP (· ∈ p₁.overlayApprovers) +
          (min n p₁.baselineApprovers.length - p₁.baselineApprovers.countP (· ∈ p₁.overlayApprovers) -
            (countedOnly p₁).countP (· ∉ p₂.baselineApprovers)) := by
  have hcandidates : ∀ x ∈ countedOnly p₁, p₁.baselineApprovers.count x = 1 := by
    intro x hx
    exact List.count_eq_one_of_mem h₁ (List.mem_dedup.mp (List.mem_filter.mp hx).1)
  have hlength : (countedOnly p₁).length + p₁.baselineApprovers.countP (· ∈ p₁.overlayApprovers) =
      p₁.baselineApprovers.length := by
    rw [countedOnly, h₁.dedup, ← List.countP_eq_length_filter,
      List.length_eq_countP_add_countP (fun a => decide (a ∈ p₁.overlayApprovers))
        (l := p₁.baselineApprovers), Nat.add_comm]
    simp
  have hforced : ∀ a, p₁.baselineApprovers.length <
      min n p₁.baselineApprovers.length + p₁.baselineApprovers.count a ↔
        a ∈ p₁.baselineApprovers ∧ p₁.baselineApprovers.length ≤ n := by
    intro a
    by_cases ha : a ∈ p₁.baselineApprovers
    · have hpos : 0 < p₁.baselineApprovers.length := List.length_pos_of_mem ha
      simp only [List.count_eq_one_of_mem h₁ ha, ha, true_and]
      omega
    · simp only [List.count_eq_zero_of_not_mem ha, ha, false_and, iff_false]
      omega
  constructor
  · rintro ⟨hoverlay, hcounted⟩
    refine ⟨fun a ha => (hoverlay a ha).imp_right (hforced a).mp, ?_⟩
    rcases (alwaysHas_of_nodup h₂ hcandidates).mp hcounted with h | h <;> omega
  · rintro ⟨hoverlay, hcounted⟩
    refine ⟨fun a ha => (hoverlay a ha).imp_right (hforced a).mpr, ?_⟩
    exact (alwaysHas_of_nodup h₂ hcandidates).mpr (.inr (by omega))

/-- Entries of approvers chosen beside others are added to theirs. -/
theorem countP_mem_append (l others : List Text) :
    ∀ {chosen : List Text}, chosen.Nodup → (∀ a ∈ chosen, a ∉ others) →
      l.countP (· ∈ others ++ chosen) = l.countP (· ∈ others) + (chosen.map l.count).sum := by
  intro chosen
  induction chosen with
  | nil => simp
  | cons x xs ih =>
    intro hnodup hapart
    obtain ⟨hx, hxs⟩ := List.nodup_cons.mp hnodup
    have hrest := ih hxs fun a ha => hapart a (List.mem_cons_of_mem _ ha)
    have hone : l.countP (· ∈ others ++ x :: xs) = l.countP (· ∈ others ++ xs) + l.count x := by
      have hnew : x ∉ others ++ xs := by
        simp only [List.mem_append, not_or]
        exact ⟨hapart x List.mem_cons_self, hx⟩
      clear ih hrest
      induction l with
      | nil => rfl
      | cons y ys ihy =>
        rw [List.countP_cons, List.countP_cons, List.count_cons, ihy]
        by_cases hy : y = x
        · subst hy
          simp [hnew]
          omega
        · simp [hy]
          omega
    rw [hone, hrest, List.map_cons, List.sum_cons]
    omega

/-- Without one approver a list loses that approver's entries. -/
theorem countP_add_count_le {l approvals : List Text} {a : Text} (ha : a ∉ approvals) :
    l.countP (· ∈ approvals) + l.count a ≤ l.length := by
  rw [List.count, List.length_eq_countP_add_countP (fun b => decide (b ∈ approvals)) (l := l)]
  refine Nat.add_le_add_left (List.countP_mono_left fun b _ hb => ?_) _
  rw [beq_iff_eq] at hb
  simp [hb, ha]

theorem nodup_countedOnly (p : EffectiveProtection) : (countedOnly p).Nodup :=
  (List.nodup_dedup _).filter _

theorem not_mem_of_countedOnly {p : EffectiveProtection} {a : Text} (h : a ∈ countedOnly p) :
    a ∉ p.overlayApprovers := by
  simpa using (List.mem_filter.mp h).2

/-- The layers are kept exactly by the safe edits. -/
theorem layersKept_iff {p₁ p₂ : EffectiveProtection} :
    LayersKept p₁ p₂ ↔
      ∀ n, p₁.approvalGate.requiredApprovals = some n → LayersSafe p₁ p₂ n.toNat := by
  constructor
  · intro h n hn
    constructor
    · intro a ha
      by_contra hne
      push Not at hne
      obtain ⟨hover, hroom⟩ := hne
      -- everyone but `a` approves
      have hmeets : MeetsLayers p₁ n.toNat
          ((p₁.baselineApprovers ++ p₁.overlayApprovers).filter (· ≠ a)) := by
        refine ⟨fun b hb => ?_, ?_⟩
        · refine List.mem_filter.mpr ⟨List.mem_append_right _ hb, ?_⟩
          simpa using fun hba : b = a => hover (hba ▸ hb)
        · have hcount : EffectiveProtection.approvedCount p₁.baselineApprovers
              ((p₁.baselineApprovers ++ p₁.overlayApprovers).filter (· ≠ a)) =
                p₁.baselineApprovers.countP (fun b => ¬ (b == a) = true) := by
            refine List.countP_congr fun b hb => ?_
            simp [hb]
          have hsplit := List.length_eq_countP_add_countP (l := p₁.baselineApprovers) (· == a)
          rw [← List.count] at hsplit
          rw [hcount]
          omega
      have hin := (h n hn _ hmeets).overlay a ha
      simp at hin
    · refine alwaysHas_iff.mpr fun chosen hchosen hneed => ?_
      have hnodup := hchosen.nodup (nodup_countedOnly p₁)
      have hapart : ∀ a ∈ chosen, a ∉ p₁.overlayApprovers :=
        fun a ha => not_mem_of_countedOnly (hchosen.subset ha)
      have hmeets : MeetsLayers p₁ n.toNat (p₁.overlayApprovers ++ chosen) := by
        refine ⟨fun b hb => List.mem_append_left _ hb, ?_⟩
        rw [EffectiveProtection.approvedCount, countP_mem_append _ _ hnodup hapart]
        omega
      have hcount := (h n hn _ hmeets).baseline
      rw [EffectiveProtection.approvedCount, countP_mem_append _ _ hnodup hapart] at hcount
      omega
  · intro h n hn approvals hmeets
    obtain ⟨hoverlay, hcounted⟩ := h n hn
    refine ⟨fun a ha => ?_, ?_⟩
    · rcases hoverlay a ha with ha | hforced
      · exact hmeets.overlay a ha
      · by_contra hnot
        have hbound := countP_add_count_le (l := p₁.baselineApprovers) hnot
        have hcount := hmeets.baseline
        rw [EffectiveProtection.approvedCount] at hcount
        omega
    · have hsub : ((countedOnly p₁).filter (· ∈ approvals)).Sublist (countedOnly p₁) :=
        List.filter_sublist
      have hnodup := hsub.nodup (nodup_countedOnly p₁)
      have hapart : ∀ a ∈ (countedOnly p₁).filter (· ∈ approvals), a ∉ p₁.overlayApprovers :=
        fun a ha => not_mem_of_countedOnly (hsub.subset ha)
      have hsplit := fun l => countP_mem_append l p₁.overlayApprovers hnodup hapart
      have hbase : p₁.baselineApprovers.countP
          (· ∈ p₁.overlayApprovers ++ (countedOnly p₁).filter (· ∈ approvals)) =
            p₁.baselineApprovers.countP (· ∈ approvals) := by
        refine List.countP_congr fun b hb => ?_
        by_cases hover : b ∈ p₁.overlayApprovers
        · simp [hover, hmeets.overlay b hover]
        · simp [hover, countedOnly, hb]
      have hpool : p₂.baselineApprovers.countP
          (· ∈ p₁.overlayApprovers ++ (countedOnly p₁).filter (· ∈ approvals)) ≤
            p₂.baselineApprovers.countP (· ∈ approvals) := by
        refine List.countP_mono_left fun b _ hb => ?_
        simp only [decide_eq_true_eq, List.mem_append, List.mem_filter] at hb ⊢
        rcases hb with hb | ⟨-, hb⟩
        · exact hmeets.overlay b hb
        · exact hb
      have hcount := hmeets.baseline
      have hleast := alwaysHas_iff.mp hcounted _ hsub
      have h₁ := hsplit p₁.baselineApprovers
      have h₂ := hsplit p₂.baselineApprovers
      rw [EffectiveProtection.approvedCount] at hcount ⊢
      omega

theorem maxAgeMs_lt (p : EffectiveProtection) : maxAgeMs p < 2 ^ 63 - 1 := by
  have h := p.approvalGate.maxApprovalAgeS.toNat_lt
  unfold maxAgeMs
  omega

theorem mem_of_approverSet {p₁ p₂ : EffectiveProtection} (h : p₁.approverSet = p₂.approverSet)
    {a : Text} (ha : a ∈ p₂.approvers) : a ∈ p₁.approvers := by
  have hsorted : EffectiveProtection.sortTexts p₁.approvers =
      EffectiveProtection.sortTexts p₂.approvers := congrArg Prod.fst h
  have hmem : a ∈ EffectiveProtection.sortTexts p₂.approvers := List.mem_mergeSort.mpr ha
  rw [← hsorted] at hmem
  exact List.mem_mergeSort.mp hmem

/-- The same approver set admits the same approvals when nothing is counted, and the layers decide
when something is. -/
theorem approvalViolations_of_approverSet {p₁ p₂ : EffectiveProtection}
    (hset : p₁.approverSet = p₂.approverSet) (hkept : LayersKept p₁ p₂) {approvals : List Text}
    (h : p₁.approvalViolations approvals = []) : p₂.approvalViolations approvals = [] := by
  have hrequired : p₁.approvalGate.requiredApprovals = p₂.approvalGate.requiredApprovals :=
    congrArg Prod.snd hset
  cases hn : p₁.approvalGate.requiredApprovals with
  | none =>
    rw [approvalViolations_none hn] at h
    rw [approvalViolations_none (hrequired ▸ hn)]
    exact fun a ha => h a (mem_of_approverSet hset ha)
  | some n =>
    rw [approvalViolations_some hn] at h
    rw [approvalViolations_some (hrequired ▸ hn)]
    exact hkept n hn approvals h

theorem launchesOnlyApproved_of_layersKept {p₁ p₂ : EffectiveProtection} {gitRef : Text}
    (h : p₁.refAllowed gitRef = true → p₂.refAllowed gitRef = true → p₂.approvers ≠ [] →
      p₁.approverSet = p₂.approverSet → LayersKept p₁ p₂) :
    LaunchesOnlyApproved p₁ p₂ gitRef := by
  intro approvals waitBegan now met hmet _ environment step uses gate released launched hlaunch hp
  obtain ⟨hadmits, hset⟩ := gateRelease_met hmet
  obtain ⟨href, hage, hsame⟩ := (behindOne_admitted hp).mp hlaunch
  obtain ⟨href₁, happroved⟩ := admits_iff.mp hadmits
  have hsets : p₁.approverSet = p₂.approverSet := hset.symm.trans hsame
  refine ⟨admits_iff.mpr ⟨href, ?_⟩, le_of_saturated_le (maxAgeMs_lt p₂) hage⟩
  exact approvalViolations_of_approverSet hsets (h href₁ href hp hsets) happroved

/-- A set of approvers that meets only the layers of the release launches all the same. -/
theorem layersKept_of_launchesOnlyApproved {p₁ p₂ : EffectiveProtection} {gitRef : Text}
    (h : LaunchesOnlyApproved p₁ p₂ gitRef) (href₁ : p₁.refAllowed gitRef = true)
    (href₂ : p₂.refAllowed gitRef = true) (hp : p₂.approvers ≠ [])
    (hset : p₁.approverSet = p₂.approverSet) : LayersKept p₁ p₂ := by
  intro n hn approvals hmeets
  have hadmits : p₁.admits gitRef approvals = .ok () :=
    admits_iff.mpr ⟨href₁, (approvalViolations_some hn approvals).mpr hmeets⟩
  obtain ⟨met, hmet⟩ :
      ∃ met, (gateRelease ⟨gitRef, p₁, approvals, 0, releaseAt p₁ 0⟩).met = some met := by
    simp [gateRelease, hadmits]
  have hpassed :
      (gateRelease ⟨gitRef, p₁, approvals, 0, releaseAt p₁ 0⟩).result.outcome = .passed :=
    gateRelease_passed.mpr ⟨hadmits, le_rfl⟩
  have hsame : (met.approvers, met.required) = p₂.approverSet := (gateRelease_met hmet).2.trans hset
  have hage : saturated (0 - 0) ≤ maxAgeMs p₂ := by
    have hzero : saturated (0 - 0) = 0 := by decide
    rw [hzero]
    unfold maxAgeMs
    omega
  have hlaunch : (launchRecheck (behindOne [] gitRef p₂ [] none [] 0
      (met.approvers, met.required) 0)).beforeApproval = false :=
    (behindOne_admitted hp).mpr ⟨href₂, hage, hsame⟩
  obtain ⟨hadmits₂, -⟩ := h approvals 0 _ met hmet hpassed [] [] none [] 0 0 hlaunch hp
  have hrequired : p₁.approvalGate.requiredApprovals = p₂.approvalGate.requiredApprovals :=
    congrArg Prod.snd hset
  exact (approvalViolations_some (hrequired ▸ hn) approvals).mp (admits_iff.mp hadmits₂).2

/-- A launch goes by approvals that meet the rules of the moment exactly when, where the refs pass
both and the recorded approver sets agree, the two layers were edited safely; for baselines without
repeats that is arithmetic on the lists. -/
theorem launches_only_approved_iff (p₁ p₂ : EffectiveProtection) (gitRef : Text) :
    (LaunchesOnlyApproved p₁ p₂ gitRef ↔
      (p₁.refAllowed gitRef = true → p₂.refAllowed gitRef = true → p₂.approvers ≠ [] →
        p₁.approverSet = p₂.approverSet → ∀ n, p₁.approvalGate.requiredApprovals = some n →
          LayersSafe p₁ p₂ n.toNat)) ∧
    (p₁.baselineApprovers.Nodup → p₂.baselineApprovers.Nodup → ∀ n, LayersSafe p₁ p₂ n ↔
      (∀ a ∈ p₂.overlayApprovers, a ∈ p₁.overlayApprovers ∨
        a ∈ p₁.baselineApprovers ∧ p₁.baselineApprovers.length ≤ n) ∧
      min n p₂.baselineApprovers.length ≤
        p₂.baselineApprovers.countP (· ∈ p₁.overlayApprovers) +
          (min n p₁.baselineApprovers.length - p₁.baselineApprovers.countP (· ∈ p₁.overlayApprovers) -
            (countedOnly p₁).countP (· ∉ p₂.baselineApprovers))) := by
  refine ⟨?_, fun h₁ h₂ n => layersSafe_of_nodup h₁ h₂ n⟩
  simp only [← layersKept_iff]
  exact ⟨layersKept_of_launchesOnlyApproved, launchesOnlyApproved_of_layersKept⟩

-- Between release and launch an approver moves from the baseline to a Project's overlay.

def oneOfTwo : EnvironmentProtectionRules :=
  { EnvironmentProtectionRules.default with
    approvers := ["amy".toList, "bo".toList]
    approvalGate := { ApprovalGateRules.default with requiredApprovals := some 1 } }

def oneOfOne : EnvironmentProtectionRules := { oneOfTwo with approvers := ["amy".toList] }

def boOverlay : EnvironmentProjectOverlay :=
  ⟨"acme".toList, "prod".toList, "web".toList,
    { EnvironmentProtectionRules.default with approvers := ["bo".toList] }⟩

theorem moved_approver_not_asked :
    ¬ LaunchesOnlyApproved (effectiveProtection oneOfTwo none)
      (effectiveProtection oneOfOne (some boOverlay)) "refs/heads/main".toList := by
  intro h
  have happrovers : (effectiveProtection oneOfTwo none).approvers =
      (effectiveProtection oneOfOne (some boOverlay)).approvers := by decide
  have hset : (effectiveProtection oneOfTwo none).approverSet =
      (effectiveProtection oneOfOne (some boOverlay)).approverSet := by
    rw [EffectiveProtection.approverSet, EffectiveProtection.approverSet, happrovers]
    rfl
  have hkept := layersKept_of_launchesOnlyApproved h (by decide) (by decide) (by decide) hset
  have hmeets : MeetsLayers (effectiveProtection oneOfTwo none) (1 : UInt32).toNat ["amy".toList] :=
    ⟨by decide, by decide⟩
  have hbo := (hkept 1 rfl _ hmeets).overlay "bo".toList (by decide)
  exact absurd hbo (by decide)

end Scarab.Policy
