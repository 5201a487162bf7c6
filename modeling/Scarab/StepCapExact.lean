import Scarab.StepCap
import Scarab.TextEncoding

/-!
# The step cap is exact

`inline_level` checks the invoke path before it goes down, so the recursion stops. A file that
meets no other problem is refused for one of the two caps exactly when its unfolding passes one,
and the expansion cap is passed only by a file over the step cap or with a plugin's gate under as
many libraries as the depth cap allows. A tower of libraries with such a gate on top is refused
although it inlines to few nodes.
-/
namespace Scarab.Pipeline

variable {tc : Toolchain} {libs : Libraries}

/-- The recursion of `inline_level`: a library is inlined one level down unless the path already
has as many as may be nested. -/
def InlinesBy (tc : Toolchain) (libs : Libraries) (inline : Recurse) : Prop :=
  ∀ level stack steps c, inline level stack steps c =
    inlineLevelWith tc libs (if maxInvokeDepth ≤ stack.length then none else some inline)
      level stack steps c

/-- The room below a path is what the depth check leaves it. -/
def inlineFrom (tc : Toolchain) (libs : Libraries) : Recurse := fun level stack steps c =>
  inlineLevel tc libs (maxInvokeDepth - stack.length) level stack steps c

/-- A level goes down only with one more library on the path. -/
theorem inlineLevelWith_congr {f g : Recurse} {stack : List Frame}
    (h : ∀ level frame steps c, f level (frame :: stack) steps c = g level (frame :: stack) steps c)
    (level : Level) (steps : List StepSpec) (c : Compile) :
    inlineLevelWith tc libs (some f) level stack steps c =
      inlineLevelWith tc libs (some g) level stack steps c := by
  have hparsed : ∀ siblings exposed step source written lib hash acc c,
      inlineParsed tc level stack siblings exposed f step source written lib hash acc c =
        inlineParsed tc level stack siblings exposed g step source written lib hash acc c := by
    intro siblings exposed step source written lib hash acc c
    simp only [inlineParsed, h]
  have hstep : ∀ siblings exposed step acc c,
      inlineStep tc libs (some f) level stack siblings exposed step acc c =
        inlineStep tc libs (some g) level stack siblings exposed step acc c := by
    intro siblings exposed step acc c
    simp only [inlineStep, inlineTarget, inlineInvoke, inlineLibrary, hparsed]
  have hsteps : ∀ siblings exposed steps acc c,
      inlineSteps tc libs (some f) level stack siblings exposed steps acc c =
        inlineSteps tc libs (some g) level stack siblings exposed steps acc c := by
    intro siblings exposed steps
    induction steps with
    | nil => exact fun acc c => rfl
    | cons step rest ih =>
      intro acc c
      simp only [inlineSteps, hstep, ih]
  simp only [inlineLevelWith, hsteps]

theorem inlineFrom_inlines : InlinesBy tc libs (inlineFrom tc libs) := by
  intro level stack steps c
  by_cases hfull : maxInvokeDepth ≤ stack.length
  · have hroom : maxInvokeDepth - stack.length = 0 := by omega
    rw [if_pos hfull, inlineFrom, hroom]
    rfl
  · obtain ⟨room, hroom⟩ : ∃ room, maxInvokeDepth - stack.length = room + 1 :=
      ⟨maxInvokeDepth - stack.length - 1, by omega⟩
    rw [if_neg hfull, inlineFrom, hroom]
    refine inlineLevelWith_congr (fun level frame steps c => ?_) level steps c
    have hbelow : maxInvokeDepth - (frame :: stack).length = room := by
      rw [List.length_cons]
      omega
    rw [inlineFrom, hbelow]

/-- Whatever computes by the recursion of `inline_level` computes this. -/
theorem InlinesBy.eq {inline : Recurse} (h : InlinesBy tc libs inline) (level : Level)
    (stack : List Frame) (steps : List StepSpec) (c : Compile) :
    inline level stack steps c = inlineFrom tc libs level stack steps c := by
  induction hroom : maxInvokeDepth - stack.length generalizing level stack steps c with
  | zero =>
    rw [h, inlineFrom_inlines, if_pos (by omega), if_pos (by omega)]
  | succ room ih =>
    rw [h, inlineFrom_inlines, if_neg (by omega), if_neg (by omega)]
    refine inlineLevelWith_congr (fun level frame steps c => ih _ _ _ _ ?_) level steps c
    rw [List.length_cons]
    omega

/-- A matrix that is expanded leaves its ids. -/
theorem expandStep_ids {step : StepSpec} {work work' : MatrixWork} {invs : List StepSpec}
    (h : expandStep tc step work = (.ok invs, work')) : invs.map (·.id) = compiledIds tc step := by
  rw [instancesOf_ids (expandStep_instancesOf h)]
  rfl

theorem refused_append {passed : Prop} {ds : List Diagnostic} {d : Diagnostic}
    (h : d.problem.isOther = true ∨ (passed ∧ d.problem.isCap = true)) :
    Refused passed (ds ++ [d]) := by
  intro _
  rcases h with hother | ⟨hpass, hcap⟩
  · exact .inl ⟨d, by simp, hother⟩
  · exact .inr ⟨hpass, d, by simp, hcap⟩

/-- Diagnostics are only added to what was expanded. -/
theorem expandSteps_grows (steps : List StepSpec) (e : Expansion) :
    e.diagnostics <+: (expandSteps tc steps e).diagnostics := by
  induction steps generalizing e with
  | nil => exact List.prefix_rfl
  | cons step rest ih =>
    simp only [expandSteps]
    split
    · refine List.IsPrefix.trans ?_ (ih _)
      exact List.prefix_append _ _
    · split_ifs
      · exact List.prefix_append _ _
      · exact List.prefix_append _ _
      · refine List.IsPrefix.trans ?_ (ih _)
        exact List.prefix_rfl

theorem expandSteps_tally {passed : Prop} {steps : List StepSpec} {e : Expansion}
    (hclean : e.diagnostics = [])
    (hpass : maxCompiledSteps < e.steps.length + (steps.flatMap (compiledIds tc)).length →
      passed) :
    Refused passed (expandSteps tc steps e).diagnostics := by
  induction steps generalizing e with
  | nil => exact fun hne => absurd hclean hne
  | cons step rest ih =>
    rw [List.flatMap_cons, List.length_append] at hpass
    simp only [expandSteps]
    split
    · next p matrix hp =>
      have hfound : Refused passed (e.diagnostics ++ [⟨step.id, .matrix p⟩]) := by
        apply refused_append
        rcases expandStep_error hp with hother | ⟨rfl, hlen⟩
        · exact .inl hother
        · refine .inr ⟨hpass ?_, rfl⟩
          rw [compiledIds_length]
          omega
      have hgrows := @expandSteps_grows tc rest { e with
        matrix := matrix, diagnostics := e.diagnostics ++ [⟨step.id, .matrix p⟩] }
      intro _
      rcases hfound (by simp) with ⟨d, hd, hother⟩ | ⟨hpassed, d, hd, hcap⟩
      · exact .inl ⟨d, hgrows.mem hd, hother⟩
      · exact .inr ⟨hpassed, d, hgrows.mem hd, hcap⟩
    · next concrete matrix hs =>
      have hlen : concrete.length = (compiledIds tc step).length := by
        rw [← expandStep_ids hs, List.length_map]
      split_ifs with hmany hlarge
      · refine refused_append (.inr ⟨hpass ?_, rfl⟩)
        simp only [List.length_append] at hmany
        omega
      · exact refused_append (.inl rfl)
      · refine ih hclean fun hlt => hpass ?_
        simp only [List.length_append] at hlt
        omega

/-- Nothing is expanded past the step cap. -/
theorem expandSteps_length {steps : List StepSpec} {e : Expansion}
    (hd : (expandSteps tc steps e).diagnostics = []) (hlen : e.steps.length ≤ maxCompiledSteps) :
    (expandSteps tc steps e).steps.length ≤ maxCompiledSteps := by
  induction steps generalizing e with
  | nil => exact hlen
  | cons step rest ih =>
    simp only [expandSteps] at hd ⊢
    split at hd
    · exact ih hd hlen
    · split_ifs at hd ⊢ with hmany hlarge
      · simp at hd
      · simp at hd
      · exact ih hd (Nat.le_of_not_lt hmany)

theorem start_running : Running Compile.start := ⟨rfl, rfl, Nat.zero_le _⟩

theorem start_sound : Compile.start.work.Sound tc libs := by
  constructor
  · intro target src ir hash h
    cases h
  · intro target src outs h
    cases h

/-- Refused with a diagnostic of the step cap or of the expansion cap. -/
def RefusedForCaps (r : Except CompileError PipelineIr) : Prop :=
  ∃ ds, r = .error (.validation ds) ∧ ∃ d ∈ ds, d.problem.isCap = true

/-- There is no diagnostic but those of the two caps. -/
def OnlyCaps (r : Except CompileError PipelineIr) : Prop :=
  (∃ ir, r = .ok ir) ∨
    ∃ ds, r = .error (.validation ds) ∧ ∀ d ∈ ds, d.problem.isOther = false

theorem compileLibs_length {yaml : Text} {ir : PipelineIr} (h : compileLibs tc libs yaml = .ok ir) :
    ir.steps.length ≤ maxCompiledSteps := by
  unfold compileLibs at h
  split_ifs at h
  split at h
  · cases h
  · split_ifs at h
    simp only at h
    split_ifs at h with hdiag hexp hlen hval
    split at h
    · cases h
    · obtain rfl := Except.ok.inj h
      have hle := expandSteps_length (by simpa using hexp) (Nat.zero_le _)
      simpa [compiledIr] using hle

/-- The compiled ids are the nodes of the unfolding. -/
theorem compileLibs_ids {yaml : Text} {authored ir : PipelineIr} {u : Unfolding}
    (h : compileLibs tc libs yaml = .ok ir) (hparse : tc.parseYaml yaml = .ok authored)
    (hu : Unfolds tc libs 0 authored.steps u) :
    ir.steps.map (·.id) = u.nodes ∧ u.invokes ≤ maxInvokeExpansions := by
  have htally : Tally True (Fills tc (inlineInvokes tc libs authored.steps).1 u.nodes) u.invokes
      Compile.start (inlineInvokes tc libs authored.steps).2 :=
    inlineLevel_tallies maxInvokeDepth 0 True _ [] _ u _ hu start_running start_sound
      (fun _ => trivial) (fun _ => trivial)
  unfold compileLibs at h
  split_ifs at h
  rw [hparse] at h
  simp only at h
  split_ifs at h with hlib hdiag hexp hlen hval
  split at h
  · cases h
  · obtain rfl := Except.ok.inj h
    obtain ⟨hrun, hcount, hfills⟩ := htally.clean (by simpa using hdiag)
    obtain ⟨-, hok, hsteps, hids⟩ := expandSteps_spec (by simpa using hexp)
    have hinstances : ∀ s ∈ (inlineInvokes tc libs authored.steps).1,
        (instances tc s).map (·.id) = compiledIds tc s := by
      intro s hs
      rw [instancesOf_ids (hok s hs)]
      rfl
    constructor
    · simp only [compiledIr, hsteps, List.nil_append, List.map_map, List.map_flatMap]
      rw [← hfills.ids]
      exact List.flatMap_congr hinstances
    · have hwithin := hrun.within
      rw [hcount] at hwithin
      simpa [Compile.start] using hwithin

theorem validateSteps_other (host : Host) (steps : List StepSpec) :
    ∀ d ∈ validateSteps host steps, d.problem.isOther = true := by
  have hdup : ∀ (ss : List StepSpec) (seen : List Text), ∀ d ∈ duplicateIds seen ss,
      d.problem.isOther = true := by
    intro ss
    induction ss with
    | nil => exact fun seen d hd => absurd hd List.not_mem_nil
    | cons s ss ih =>
      intro seen d hd
      rcases List.mem_append.mp hd with hd | hd
      · split_ifs at hd
        · obtain rfl := List.mem_singleton.mp hd
          rfl
        · cases hd
      · exact ih _ d hd
  intro d hd
  rcases List.mem_append.mp hd with hd | hd
  · exact hdup _ _ d hd
  · obtain ⟨s, -, hd⟩ := List.mem_flatMap.mp hd
    obtain ⟨p, hp, rfl⟩ := List.mem_map.mp hd
    exact stepProblems_other _ s p hp

/-- A compile that is refused has met another problem, or a cap its unfolding passes. -/
theorem compileLibs_refused {yaml : Text} {authored : PipelineIr} {u : Unfolding}
    {ds : List Diagnostic} (h : compileLibs tc libs yaml = .error (.validation ds))
    (hparse : tc.parseYaml yaml = .ok authored) (hu : Unfolds tc libs 0 authored.steps u) :
    (∃ d ∈ ds, d.problem.isOther = true) ∨
      ((maxCompiledSteps < u.nodes.length ∨ maxInvokeExpansions < u.invokes) ∧
        ∃ d ∈ ds, d.problem.isCap = true) := by
  have htally : Tally (maxCompiledSteps < u.nodes.length ∨ maxInvokeExpansions < u.invokes)
      (Fills tc (inlineInvokes tc libs authored.steps).1 u.nodes) u.invokes
      Compile.start (inlineInvokes tc libs authored.steps).2 :=
    inlineLevel_tallies maxInvokeDepth 0 _ _ [] _ u _ hu start_running start_sound
      .inl (fun hlt => .inr (by simpa [Compile.start] using hlt))
  unfold compileLibs at h
  by_cases hlarge : byteLen yaml > maxSourceBytes
  · rw [if_pos hlarge] at h
    cases h
  · rw [if_neg hlarge, hparse] at h
    simp only at h
    split_ifs at h with hlib hdiag hexp hlen hval
    · cases h
    · obtain rfl := CompileError.validation.inj (Except.error.inj h)
      exact htally.refused (by simpa using hdiag)
    · obtain rfl := CompileError.validation.inj (Except.error.inj h)
      obtain ⟨-, -, hfills⟩ := htally.clean (by simpa using hdiag)
      refine expandSteps_tally rfl (fun hlt => .inl ?_) (by simpa using hexp)
      simpa [hfills.ids] using hlt
    · obtain rfl := CompileError.validation.inj (Except.error.inj h)
      exact .inl ⟨_, List.mem_singleton_self _, rfl⟩
    · obtain rfl := CompileError.validation.inj (Except.error.inj h)
      obtain ⟨d, hd⟩ := List.exists_mem_of_ne_nil _ (by simpa using hval)
      exact .inl ⟨d, hd, validateSteps_other _ _ d hd⟩
    · split at h
      · cases h
      · cases h

/-- With no other diagnostic, a file is refused for a cap exactly when its unfolding passes one. -/
theorem refusedForCaps_iff {yaml : Text} {authored : PipelineIr} {u : Unfolding}
    (hparse : tc.parseYaml yaml = .ok authored) (hu : Unfolds tc libs 0 authored.steps u)
    (honly : OnlyCaps (compileLibs tc libs yaml)) :
    RefusedForCaps (compileLibs tc libs yaml) ↔
      maxCompiledSteps < u.nodes.length ∨ maxInvokeExpansions < u.invokes := by
  constructor
  · rintro ⟨ds, hds, -⟩
    rcases compileLibs_refused hds hparse hu with ⟨d, hd, hother⟩ | ⟨hpassed, -⟩
    · rcases honly with ⟨ir, hir⟩ | ⟨ds', hds', hnone⟩
      · rw [hir] at hds
        cases hds
      · rw [hds'] at hds
        obtain rfl := CompileError.validation.inj (Except.error.inj hds)
        rw [hnone d hd] at hother
        cases hother
    · exact hpassed
  · intro hpassed
    rcases honly with ⟨ir, hir⟩ | ⟨ds, hds, hnone⟩
    · obtain ⟨hids, hinvokes⟩ := compileLibs_ids hir hparse hu
      have hlen := compileLibs_length hir
      rw [← List.length_map (f := (·.id)), hids] at hlen
      omega
    · rcases compileLibs_refused hds hparse hu with ⟨d, hd, hother⟩ | ⟨-, hcap⟩
      · rw [hnone d hd] at hother
        cases hother
      · exact ⟨ds, hds, hcap⟩

/-- The recursion stops, what compiles is under the step cap, and a file that meets no other
problem is refused for a cap exactly when it has too many nodes if and only if it has, or its
invokes are within the expansion cap. With no plugin's gate under as many libraries as may be
nested they are. -/
theorem step_cap_exact (tc : Toolchain) (libs : Libraries) :
    (InlinesBy tc libs (inlineFrom tc libs) ∧ ∀ inline, InlinesBy tc libs inline →
      ∀ level stack steps c,
        inline level stack steps c = inlineFrom tc libs level stack steps c) ∧
    (∀ yaml ir, compileLibs tc libs yaml = .ok ir → ir.steps.length ≤ maxCompiledSteps) ∧
    ∀ yaml authored u, tc.parseYaml yaml = .ok authored → Unfolds tc libs 0 authored.steps u →
      OnlyCaps (compileLibs tc libs yaml) →
      ((RefusedForCaps (compileLibs tc libs yaml) ↔ maxCompiledSteps < u.nodes.length) ↔
        (u.invokes ≤ maxInvokeExpansions ∨ maxCompiledSteps < u.nodes.length)) ∧
      (u.depth ≤ maxInvokeDepth →
        u.invokes ≤ maxInvokeExpansions ∨ maxCompiledSteps < u.nodes.length) := by
  refine ⟨⟨inlineFrom_inlines, fun inline h => h.eq⟩, fun yaml ir h => compileLibs_length h, ?_⟩
  intro yaml authored u hparse hu honly
  have hrefused := refusedForCaps_iff hparse hu honly
  constructor
  · rw [hrefused]
    constructor
    · intro hexact
      by_contra hboth
      push Not at hboth
      have hmany := hexact.mp (.inr hboth.1)
      omega
    · intro hcond
      omega
  · intro hdepth
    have hinvokes := hu.invokes_le
    by_contra hboth
    push Not at hboth
    have hle : u.depth * u.nodes.length ≤ maxInvokeDepth * maxCompiledSteps :=
      Nat.mul_le_mul hdepth hboth.2
    have hcap : maxInvokeExpansions = maxInvokeDepth * maxCompiledSteps := rfl
    omega

-- Eight libraries, each with one step that invokes the next, and a plugin's gate in the last. A
-- file that invokes the first from 911 steps has 911 nodes and 8199 invokes.

/-- A step that sets nothing but what it invokes. -/
def invokeStep (id raw : Text) : StepSpec := { StepSpec.named id with invoke := some raw }

def gateStep : StepSpec :=
  { invokeStep ['g'] "plugin:p/g".toList with gateExpiresAfter := some 60 }

def floorName (k : ℕ) : Text := ['t', '/', Nat.digitChar k]

def floorTarget (k : ℕ) : Text := "lib:".toList ++ floorName k

def floorStep (k : ℕ) : StepSpec :=
  if k < 8 then invokeStep ['s'] (floorTarget (k + 1)) else gateStep

def floorIr (k : ℕ) : PipelineIr := ⟨2, true, false, ⟨[], []⟩, [], [floorStep k]⟩

def floorHead : Text := textLines ["kind: library", "steps:"] ++ "  - id: ".toList

def floorYaml (k : ℕ) : Text :=
  floorHead ++
    if k < 8 then "s\n    invoke: ".toList ++ floorTarget (k + 1) ++ ['\n']
    else textLines ["g", "    invoke: plugin:p/g", "    gate_expires_after: 60"]

def floorHashes : List Text :=
  [addressText 0x8b9c7429806a7e48ec71cd04e45c4df864f288940a956e1ce6bfddabf6563bb3,
    addressText 0xe29ad224ad33594a44c9ad564b9994b9e543996e11fdb23f58b801b601cdc8f4,
    addressText 0x7146a9873ab521fa008327acba54aab78bae4677905d123968b58c5b73cb52d5,
    addressText 0x4af997a594c5d19220a69c26c147adf1215490b21f8bfd2aa3fdb23024a46b53,
    addressText 0x5cb82ecf3e59005e927a20b424039d57d026b565e5458df90b267decc1aea95b,
    addressText 0xece94c38ba5406209ba94f0abe88512e636689906457523484222f380f58da73,
    addressText 0x74cc2ca4259cc2e658a80c36ff53a2353c133a424b6a1e7694d75af9afcf1705,
    addressText 0x6fd054b8842ed7ba7b608e9eb6f92ff38af6711c5f908c1efea1667c1ced1687]

def towerSteps (n : ℕ) : List StepSpec :=
  (List.range n).map fun i => invokeStep ('s' :: natText i) (floorTarget 1)

def towerIr (n : ℕ) : PipelineIr := ⟨2, false, false, ⟨[], []⟩, [], towerSteps n⟩

def towerHead : Text := "steps:\n".toList

def towerYaml (n : ℕ) : Text :=
  towerHead ++ (List.range n).flatMap fun i =>
    "  - id: s".toList ++ natText i ++ "\n    invoke: ".toList ++ floorTarget 1 ++ ['\n']

def towerTools (n : ℕ) : Toolchain := tableToolchain []
  (((List.range 8).map fun k => (floorYaml (k + 1), floorIr (k + 1), floorHashes.getD k [])) ++
    [(towerYaml n, towerIr n,
      addressText 0xc015816ddd2b6bfdd15d82029f664b497d2c429832f7759ef9276d2796520987)])

def towerLibraries : Libraries :=
  ⟨∅, SortedMap.ofList ((List.range 8).map fun k =>
      (floorName (k + 1), ⟨floorYaml (k + 1), "git:t@5d1c".toList⟩)),
    SortedMap.ofList [("p/g".toList, ⟨⟨[], []⟩,
      addressText 0x9f64a747e1b97f131fabb6b447296c9b6f0201e79fb3c5356e6c77e89b6a806a⟩)]⟩

section tower

variable {n : ℕ}

theorem floor_target {k : ℕ} (h : 1 ≤ k) (h' : k ≤ 8) :
    parseInvokeTarget (floorTarget k) = .ok (.lib (floorName k)) := by
  interval_cases k <;> rfl

theorem floor_source {k : ℕ} (h : 1 ≤ k) (h' : k ≤ 8) :
    librarySource towerLibraries (.lib (floorName k)) =
      .ok ⟨floorYaml k, .library, floorName k, some "git:t@5d1c".toList, floorTarget k⟩ := by
  interval_cases k <;> rfl

theorem floor_parse {k : ℕ} (h : 1 ≤ k) (h' : k ≤ 8) :
    (towerTools n).parseYaml (floorYaml k) = .ok (floorIr k) := by
  interval_cases k <;> rfl

theorem floor_small {k : ℕ} (h : 1 ≤ k) (h' : k ≤ 8) : byteLen (floorYaml k) ≤ 128 := by
  interval_cases k <;> decide

theorem gate_target : parseInvokeTarget "plugin:p/g".toList = .ok (.plugin "p/g".toList) := by
  rfl

theorem floorTarget_injOn {j k : ℕ} (hj : j ≤ 8) (hk : k ≤ 8) (h : floorTarget j = floorTarget k) :
    j = k := by
  have hdigit : Nat.digitChar j = Nat.digitChar k := by simpa [floorTarget, floorName] using h
  exact digitChar_injOn (by omega) (by omega) hdigit

theorem floorStep_cases (k : ℕ) :
    (k < 8 ∧ floorStep k = invokeStep ['s'] (floorTarget (k + 1))) ∨
      (8 ≤ k ∧ floorStep k = gateStep) := by
  by_cases h : k < 8
  · exact .inl ⟨h, if_pos h⟩
  · exact .inr ⟨by omega, if_neg h⟩

/-- What was read so far: floors of the tower, each once, whatever their texts come to. -/
structure Thrifty (w : Work) : Prop where
  parsed : ∀ k p, k ≤ 8 → w.full.get (floorTarget k) = some p →
    ∃ hash, p = .library (floorIr k) hash
  floors : ∀ written ∈ w.admitted, ∃ k, 1 ≤ k ∧ k ≤ 8 ∧ written = floorTarget k
  once : w.admitted.Nodup
  bytes : w.bytes ≤ 128 * w.admitted.length

structure Quiet (c : Compile) : Prop where
  caps : ∀ d ∈ c.diagnostics, d.problem.isOther = false
  going : c.stopped = false → c.diagnostics = []
  thrifty : Thrifty c.work

theorem Thrifty.admitted_length {w : Work} (h : Thrifty w) : w.admitted.length ≤ 8 := by
  have hsubset : w.admitted ⊆ (List.range 8).map fun k => floorTarget (k + 1) := by
    intro written hmem
    obtain ⟨k, hpos, hle, rfl⟩ := h.floors written hmem
    refine List.mem_map.mpr ⟨k - 1, List.mem_range.mpr (by omega), ?_⟩
    rw [Nat.sub_add_cancel hpos]
  simpa using (h.once.subperm hsubset).length_le

/-- Every floor's text is within the budget. -/
theorem Thrifty.admitSource {w : Work} (h : Thrifty w) {k : ℕ} (hpos : 1 ≤ k) (hle : k ≤ 8) :
    (w.admitSource (floorTarget k) (floorYaml k)).1 = true ∧
      Thrifty (w.admitSource (floorTarget k) (floorYaml k)).2 := by
  have hsmall := floor_small hpos hle
  have hbytes := h.bytes
  have hlen := h.admitted_length
  have hbudget : 2048 ≤ maxLibrarySourceBytes := by decide
  unfold Work.admitSource
  by_cases hin : floorTarget k ∈ w.admitted
  · rw [if_pos hin]
    exact ⟨rfl, h⟩
  · have hfits : ¬ w.bytes + byteLen (floorYaml k) > maxLibrarySourceBytes := by omega
    rw [if_neg hin, if_neg hfits]
    refine ⟨rfl, h.parsed, ?_, List.nodup_cons.mpr ⟨hin, h.once⟩, ?_⟩
    · intro written hmem
      rcases List.mem_cons.mp hmem with rfl | hmem
      · exact ⟨k, hpos, hle, rfl⟩
      · exact h.floors written hmem
    · simp only [List.length_cons]
      omega

theorem Thrifty.parse {w : Work} (h : Thrifty w) {k : ℕ} (hpos : 1 ≤ k) (hle : k ≤ 8) :
    ∃ hash w', w.parse (towerTools n) (floorTarget k) (floorYaml k) =
      (.library (floorIr k) hash, w') ∧ Thrifty w' := by
  obtain ⟨hfits, hkept⟩ := h.admitSource hpos hle
  cases hget : w.full.get (floorTarget k) with
  | some done =>
    obtain ⟨hash, rfl⟩ := h.parsed k _ hle hget
    exact ⟨hash, w, by simp [Work.parse, hget], h⟩
  | none =>
    set admitted := (w.admitSource (floorTarget k) (floorYaml k)).2 with hadmitted
    refine ⟨(towerTools n).sha256Hex (floorYaml k), { admitted with
        full := admitted.full.insert (floorTarget k)
          (.library (floorIr k) ((towerTools n).sha256Hex (floorYaml k))) },
      by simp [Work.parse, hget, hfits, floor_parse hpos hle, ← hadmitted], ?_⟩
    refine ⟨?_, hkept.floors, hkept.once, hkept.bytes⟩
    intro j p hj hp
    simp only [SortedMap.get_insert] at hp
    split_ifs at hp with hsame
    · obtain rfl := floorTarget_injOn hj hle hsame
      exact ⟨_, (Option.some.inj hp).symm⟩
    · exact hkept.parsed j p hj hp

theorem Thrifty.exposedOf {w : Work} (h : Thrifty w) {k : ℕ} (hpos : 1 ≤ k) (hle : k ≤ 8) :
    Thrifty (w.exposedOf (towerTools n) (floorTarget k) (floorYaml k)).2 := by
  obtain ⟨-, hkept⟩ := h.admitSource hpos hle
  unfold Work.exposedOf
  split
  · exact h
  · exact ⟨hkept.parsed, hkept.floors, hkept.once, hkept.bytes⟩

/-- The steps of the tower's files: those that go up to floor `k + 1`, or its gate. -/
inductive Climbs : ℕ → StepSpec → Prop
  | up {k : ℕ} (hk : k < 8) (id : Text) : Climbs k (invokeStep id (floorTarget (k + 1)))
  | top : Climbs 8 gateStep

theorem floorStep_climbs {k : ℕ} (hk : k ≤ 8) : Climbs k (floorStep k) := by
  by_cases h : k < 8
  · rw [floorStep, if_pos h]
    exact .up h ['s']
  · obtain rfl : k = 8 := by omega
    exact .top

theorem exposedOutputs_thrifty {k : ℕ} {steps : List StepSpec} (hsteps : ∀ s ∈ steps, Climbs k s)
    {w : Work} (h : Thrifty w) :
    Thrifty (exposedOutputs (towerTools n) towerLibraries steps w).2 := by
  induction steps generalizing w with
  | nil => exact h
  | cons s ss ih =>
    have hrest := fun s hs => hsteps s (List.mem_cons_of_mem _ hs)
    cases hsteps s List.mem_cons_self with
    | up hk id =>
      have hpos : 1 ≤ k + 1 := by omega
      have hread : (exposedStep (towerTools n) towerLibraries
          (invokeStep id (floorTarget (k + 1))) (floorTarget (k + 1)) w).2 =
            (w.exposedOf (towerTools n) (floorTarget (k + 1)) (floorYaml (k + 1))).2 := by
        have hsmall := floor_small hpos hk
        have hlimit : ¬ byteLen (floorYaml (k + 1)) > maxSourceBytes := by
          have hmax : 128 ≤ maxSourceBytes := by decide
          omega
        have hsource : towerLibraries.sourceOf (.lib (floorName (k + 1))) =
          some (floorYaml (k + 1)) := librarySource_src (floor_source hpos hk)
        simp [exposedStep, invokeStep, StepSpec.named, floor_target hpos hk, hsource, hlimit]
        rfl
      have hplugin : isPluginInvoke (floorTarget (k + 1)) = false := by
        simp [isPluginInvoke, floor_target hpos hk]
      have hnext := h.exposedOf (n := n) hpos hk
      rw [← hread] at hnext
      simp only [exposedOutputs, invokeStep, hplugin]
      exact ih hrest hnext
    | top =>
      have hplugin : isPluginInvoke "plugin:p/g".toList = true := by
        rw [isPluginInvoke, gate_target]
      simp only [exposedOutputs, gateStep, invokeStep, hplugin]
      exact ih hrest h

section quiet

variable {level : Level} {stack : List Frame} {siblings : List StepSpec} {exposed : Exposed}
  {acc : LevelAcc} {c : Compile} {k : ℕ}

theorem Quiet.stop (h : Quiet c) (step : Text) {p : Problem} (hp : p.isOther = false) :
    Quiet (c.stop step p) := by
  unfold Compile.stop
  split_ifs with hs
  · exact h
  · refine ⟨fun d hd => ?_, fun hgo => absurd hgo (by simp), h.thrifty⟩
    rcases List.mem_append.mp hd with hd | hd
    · exact h.caps d hd
    · obtain rfl := List.mem_singleton.mp hd
      exact hp

theorem Quiet.work (h : Quiet c) {w : Work} (hw : Thrifty w) : Quiet { c with work := w } :=
  ⟨h.caps, h.going, hw⟩

/-- A list takes no more than its steps do. -/
def Light (acc : LevelAcc) : Prop := acc.bytes ≤ 256 * acc.out.length

theorem pushNodes_quiet (h : Quiet c) (hl : Light acc) (at_ : Text) (nodes : List StepSpec) :
    Quiet (pushNodes (towerTools n) at_ nodes acc c).2 ∧
      Light (pushNodes (towerTools n) at_ nodes acc c).1 := by
  induction nodes generalizing acc c with
  | nil => exact ⟨h, hl⟩
  | cons node nodes ih =>
    have hcapped : Quiet (capped (towerTools n) at_ { acc with out := acc.out ++ [node] } c).2 ∧
        Light (capped (towerTools n) at_ { acc with out := acc.out ++ [node] } c).1 := by
      unfold Light at hl
      unfold capped Light
      split_ifs with hmany
      · refine ⟨h.stop at_ rfl, ?_⟩
        simp only [List.length_append, List.length_singleton]
        omega
      · have hlen : (towerTools n).jsonLen node = 256 := rfl
        have hsmall : 256 * maxCompiledSteps ≤ maxCompiledIrBytes := by decide
        have hfits : acc.bytes + (towerTools n).jsonLen node ≤ maxCompiledIrBytes := by
          simp only [List.length_append, List.length_singleton] at hmany
          omega
        simp only [List.getLast?_append, List.getLast?_singleton, Option.some_or, hfits, if_true]
        refine ⟨h, ?_⟩
        simp only [List.length_append, List.length_singleton]
        omega
    simp only [pushNodes]
    split_ifs
    · exact hcapped
    · exact ih hcapped.1 hcapped.2

theorem report_nil (c : Compile) (step : Text) : c.report step [] = c := by
  simp [Compile.report]

/-- Where nothing is declared nothing is bound. -/
theorem bindWith_nothing {host : Host} {step : StepSpec} (clean : Bool) :
    (bindWith host step [] level siblings exposed clean).problems = [] := by
  simp [bindWith, outputView]

theorem checkWith_nothing {host : Host} {step : StepSpec} (hwith : step.with_ = ∅) :
    checkWith host step [] = [] := by
  simp [checkWith, hwith]
  rfl

theorem inlinePlugin_quiet (h : Quiet c) (hl : Light acc) :
    Quiet (inlinePlugin (towerTools n) towerLibraries level siblings exposed gateStep
        "p/g".toList acc c).2 ∧
      Light (inlinePlugin (towerTools n) towerLibraries level siblings exposed gateStep
        "p/g".toList acc c).1 := by
  have hgate : ∃ sha, towerLibraries.pluginGates.get "p/g".toList = some ⟨⟨[], []⟩, sha⟩ :=
    ⟨_, rfl⟩
  obtain ⟨sha, hgate⟩ := hgate
  have hnodes : ∃ nodes, pluginGateNodes (towerTools n) gateStep "p/g".toList ⟨⟨[], []⟩, sha⟩ level
      siblings exposed c = (nodes, c) := by
    have hfields : pluginFieldProblems gateStep = [] := rfl
    have hreads : pluginReadProblems (towerTools n).toHost gateStep = [] := rfl
    have hguard : guardProblems (towerTools n).toHost level gateStep = [] := by
      unfold guardProblems
      split
      · next hwhen => cases hwhen
      · rfl
    have hwith : gateStep.with_ = ∅ := rfl
    simp only [pluginGateNodes, hfields, report_nil, validateParamSpecs,
      checkWith_nothing hwith, bindWith_nothing, hreads, hguard, List.append_nil]
    exact ⟨_, rfl⟩
  obtain ⟨nodes, hnodes⟩ := hnodes
  simp only [inlinePlugin, hgate, hnodes]
  exact pushNodes_quiet h hl _ _

theorem guardProblems_nothing {host : Host} {step : StepSpec} (hwhen : step.when_ = none) :
    guardProblems host level step = [] := by
  unfold guardProblems
  split
  · next hsome =>
    rw [hwhen] at hsome
    cases hsome
  · rfl

/-- A plain step reads no output. -/
theorem outputFields_nothing {host : Host} (invokeId : Text) {t : StepSpec} (ht : Climbs k t) :
    outputFields host invokeId t = [] := by
  cases ht with
  | up hk id => rfl
  | top => rfl

theorem validateInterface_nothing {host : Host} {step : StepSpec} (hwith : step.with_ = ∅)
    (hsiblings : ∀ t ∈ siblings, Climbs k t) (j : ℕ) :
    validateInterface host step (floorIr j) siblings = [] := by
  have hforge : forgeTokenInputReads host (floorIr j) = [] := by
    rcases floorStep_cases j with ⟨-, hj⟩ | ⟨-, hj⟩ <;>
      simp [forgeTokenInputReads, floorIr, hj, invokeStep, gateStep, StepSpec.named,
        StepSpec.hasForgeToken]
  have hreads : ((siblings.filter (·.id ≠ step.id)).flatMap fun t =>
      (outputFields host step.id t).flatMap fun field =>
        if step.matrix.isSome then [Problem.matrixedOutput field]
        else if !(floorIr j).interface.outputs.any (·.name = field) then [.undeclaredOutput field]
        else if step.id ∉ t.needs then [.outputWithoutNeeds field]
        else []) = [] := by
    refine List.flatMap_eq_nil_iff.mpr fun t ht => ?_
    rw [outputFields_nothing step.id (hsiblings t (List.mem_of_mem_filter ht))]
    rfl
  have hinputs : (floorIr j).interface.inputs = [] := rfl
  have houtputs : (floorIr j).interface.outputs = [] := rfl
  simp only [validateInterface, hforge, hreads, hinputs, checkWith_nothing hwith]
  simp [validateParamSpecs, houtputs]

/-- A floor's list, inlined from a state that meets nothing. -/
def Recurse.QuietOn (k : ℕ) (recurse : Recurse) : Prop :=
  ∀ level stack c, (∀ f ∈ stack, ∃ j, 1 ≤ j ∧ j ≤ k ∧ f.written = floorTarget j) → Quiet c →
    Quiet (recurse level stack [floorStep k] c).2

theorem copyLibrary_quiet (h : Quiet c) (hl : Light acc) {step : StepSpec} (hstep : Climbs k step)
    (link : OriginEntry) (lib : PipelineIr) (withNeeds : List Text) (resolved : List StepSpec) :
    Quiet (copyLibrary (towerTools n) step link lib withNeeds resolved acc c).2 ∧
      Light (copyLibrary (towerTools n) step link lib withNeeds resolved acc c).1 := by
  have hgates : onlyGatesProblems step resolved = [] := by
    cases hstep <;> simp [onlyGatesProblems, invokeStep, gateStep, StepSpec.named]
  have hexpand : expandStep (towerTools n) step c.work.matrix = (.ok [step], c.work.matrix) := by
    cases hstep <;> rfl
  have hpushed := pushNodes_quiet (n := n) h hl step.id
    ([step].flatMap fun inv => resolved.map
      (inlinedNode link (step.deploy || lib.deploy) (resolved.map (·.id)) withNeeds inv))
  simp only [copyLibrary]
  split_ifs
  · exact ⟨h, hl⟩
  · simp only [hgates, report_nil, hexpand]
    split_ifs
    · exact hpushed
    · exact hpushed

theorem inlineLibrary_quiet (h : Quiet c) (hl : Light acc) {id : Text} (hk : k < 8)
    (hstack : ∀ f ∈ stack, ∃ j, 1 ≤ j ∧ j ≤ k ∧ f.written = floorTarget j)
    (hsiblings : ∀ t ∈ siblings, Climbs k t) {recurse : Recurse}
    (hrec : recurse.QuietOn (k + 1)) (source : LibrarySource)
    (hsource : source.src = floorYaml (k + 1)) :
    Quiet (inlineLibrary (towerTools n) (some recurse) level stack siblings exposed
        (invokeStep id (floorTarget (k + 1))) (.lib (floorName (k + 1))) source acc c).2 ∧
      Light (inlineLibrary (towerTools n) (some recurse) level stack siblings exposed
        (invokeStep id (floorTarget (k + 1))) (.lib (floorName (k + 1))) source acc c).1 := by
  have hpos : 1 ≤ k + 1 := by omega
  have hwritten : (InvokeTarget.lib (floorName (k + 1))).written = floorTarget (k + 1) := rfl
  have hcycle : (stack.any (·.written = floorTarget (k + 1))) = false := by
    refine List.any_eq_false.mpr fun f hf => ?_
    obtain ⟨j, -, hj, hname⟩ := hstack f hf
    have hne : floorTarget j ≠ floorTarget (k + 1) := by
      intro hsame
      have heq := floorTarget_injOn (by omega) (by omega) hsame
      omega
    simpa [hname] using hne
  have hsmall : ¬ byteLen (floorYaml (k + 1)) > maxSourceBytes := by
    have hbytes := floor_small hpos hk
    have hmax : 128 ≤ maxSourceBytes := by decide
    omega
  obtain ⟨hash, w, hparse, hw⟩ := h.thrifty.parse (n := n) hpos hk
  have hlibrary : (floorIr (k + 1)).isLibrary = true := rfl
  have hfields : libraryFieldProblems (floorIr (k + 1)) = [] := rfl
  have hsteps : (floorIr (k + 1)).steps = [floorStep (k + 1)] := rfl
  have hwith : (invokeStep id (floorTarget (k + 1))).with_ = ∅ := rfl
  have hwhen : (invokeStep id (floorTarget (k + 1))).when_ = none := rfl
  simp only [inlineLibrary, hwritten, hcycle, hsmall, hsource, hparse, hlibrary, hfields,
    report_nil, hsteps, inlineParsed, validateInterface_nothing hwith hsiblings,
    guardProblems_nothing hwhen, Bool.false_eq_true, if_false, Bool.not_true, List.isEmpty_cons,
    List.nil_append, List.append_nil]
  have hinputs : (floorIr (k + 1)).interface.inputs = [] := rfl
  simp only [hinputs, bindWith_nothing, report_nil]
  have hquiet := h.work hw
  refine copyLibrary_quiet (k := k) (hrec _ _ _ ?_ hquiet) hl (.up hk id) _ _ _ _
  intro f hf
  rcases List.mem_cons.mp hf with rfl | hf
  · exact ⟨k + 1, hpos, le_rfl, rfl⟩
  · obtain ⟨j, hj, hle, hname⟩ := hstack f hf
    exact ⟨j, hj, by omega, hname⟩

/-- The levels below a floor that is not the last. -/
def QuietBelow (k : ℕ) (recurse : Option Recurse) : Prop :=
  k < 8 → ∃ r, recurse = some r ∧ r.QuietOn (k + 1)

theorem inlineStep_quiet (h : Quiet c) (hl : Light acc)
    (hstack : ∀ f ∈ stack, ∃ j, 1 ≤ j ∧ j ≤ k ∧ f.written = floorTarget j)
    (hsiblings : ∀ t ∈ siblings, Climbs k t) {recurse : Option Recurse}
    (hrec : QuietBelow k recurse) {step : StepSpec} (hstep : Climbs k step) :
    Quiet (inlineStep (towerTools n) towerLibraries recurse level stack siblings exposed step
        acc c).2 ∧
      Light (inlineStep (towerTools n) towerLibraries recurse level stack siblings exposed step
        acc c).1 := by
  have hcounted : Quiet { c with expansions := c.expansions + 1 } := ⟨h.caps, h.going, h.thrifty⟩
  have hcompiler : compilerFields step = [] := by
    cases hstep <;> rfl
  have hfields : invokeFieldProblems step = [] := by
    cases hstep <;> rfl
  cases hstep with
  | up hk id =>
    obtain ⟨r, rfl, hr⟩ := hrec hk
    have hpos : 1 ≤ k + 1 := by omega
    have hinvoke : (invokeStep id (floorTarget (k + 1))).invoke = some (floorTarget (k + 1)) := rfl
    have hexpires : (invokeStep id (floorTarget (k + 1))).gateExpiresAfter = none := rfl
    simp only [inlineStep, hcompiler, report_nil, hinvoke, inlineTarget, hfields, hexpires,
      floor_target hpos hk, InvokeTarget.isFile, Bool.and_false, Option.isSome_none,
      Bool.false_and, Bool.false_eq_true, if_false, inlineInvoke, floor_source hpos hk]
    split_ifs
    · exact ⟨hcounted.stop _ rfl, hl⟩
    · exact inlineLibrary_quiet hcounted hl hk hstack hsiblings hr _ rfl
  | top =>
    have hinvoke : gateStep.invoke = some "plugin:p/g".toList := rfl
    simp only [inlineStep, hcompiler, report_nil, hinvoke, inlineTarget, hfields, gate_target,
      InvokeTarget.isFile, InvokeTarget.isPlugin, Bool.and_false, Bool.not_true,
      Bool.false_eq_true, if_false, inlineInvoke]
    split_ifs
    · exact ⟨hcounted.stop _ rfl, hl⟩
    · exact inlinePlugin_quiet hcounted hl

theorem inlineSteps_quiet (h : Quiet c) (hl : Light acc)
    (hstack : ∀ f ∈ stack, ∃ j, 1 ≤ j ∧ j ≤ k ∧ f.written = floorTarget j)
    (hsiblings : ∀ t ∈ siblings, Climbs k t) {recurse : Option Recurse}
    (hrec : QuietBelow k recurse) {steps : List StepSpec} (hsteps : ∀ s ∈ steps, Climbs k s) :
    Quiet (inlineSteps (towerTools n) towerLibraries recurse level stack siblings exposed steps
      acc c).2 := by
  induction steps generalizing acc c with
  | nil => exact h
  | cons step rest ih =>
    by_cases hgo : c.stopped = true
    · have hspent : c.spent = c := by
        unfold Compile.spent Compile.stop
        split_ifs <;> rfl
      simp only [inlineSteps, hspent, hgo, if_true]
      exact h
    · have hgo : c.stopped = false := by simpa using hgo
      have hspent : c.spent = c := by
        simp [Compile.spent, h.going hgo, maxInlineDiagnostics]
      have hstep : Quiet (inlineStep (towerTools n) towerLibraries recurse level stack siblings
            exposed step acc c).2 ∧
          Light (inlineStep (towerTools n) towerLibraries recurse level stack siblings
            exposed step acc c).1 :=
        inlineStep_quiet h hl hstack hsiblings hrec (hsteps step List.mem_cons_self)
      simp only [inlineSteps, hspent, hgo, Bool.false_eq_true, if_false]
      split_ifs
      · exact hstep.1
      · exact ih hstep.1 hstep.2 fun s hs => hsteps s (List.mem_cons_of_mem step hs)

theorem inlineLevelWith_quiet (h : Quiet c)
    (hstack : ∀ f ∈ stack, ∃ j, 1 ≤ j ∧ j ≤ k ∧ f.written = floorTarget j)
    {recurse : Option Recurse} (hrec : QuietBelow k recurse) {steps : List StepSpec}
    (hsteps : ∀ s ∈ steps, Climbs k s) (hunique : duplicateInvokes [] steps = []) :
    Quiet (inlineLevelWith (towerTools n) towerLibraries recurse level stack steps c).2 := by
  have hwork := exposedOutputs_thrifty (n := n) hsteps h.thrifty
  have hstart : Quiet { c with
      work := (exposedOutputs (towerTools n) towerLibraries steps c.work).2
      diagnostics := c.diagnostics ++ (duplicateInvokes [] steps).map fun id =>
        ⟨id, .duplicateId⟩ } := by
    refine ⟨?_, ?_, hwork⟩
    · simpa [hunique] using h.caps
    · simpa [hunique] using h.going
  have hall : Quiet (inlineSteps (towerTools n) towerLibraries recurse level stack steps
      (exposedOutputs (towerTools n) towerLibraries steps c.work).1 steps ⟨[], ∅, 0⟩ _).2 :=
    inlineSteps_quiet hstart (Nat.zero_le _) hstack hsteps hrec hsteps
  simp only [inlineLevelWith]
  split_ifs
  · exact hall
  · exact hall

end quiet

/-- Every floor of the tower, from the top down. -/
theorem inlineLevel_quiet {room k : ℕ} (hk : room + k = 8) :
    Recurse.QuietOn k (inlineLevel (towerTools n) towerLibraries room) := by
  induction room generalizing k with
  | zero =>
    intro level stack c hstack hquiet
    obtain rfl : k = 8 := by omega
    refine inlineLevelWith_quiet hquiet hstack (fun hlt => absurd hlt (by omega))
      (fun s hs => ?_) rfl
    rw [List.mem_singleton.mp hs]
    exact floorStep_climbs le_rfl
  | succ room ih =>
    intro level stack c hstack hquiet
    refine inlineLevelWith_quiet hquiet hstack (fun hlt => ⟨_, rfl, ih (by omega)⟩)
      (fun s hs => ?_) ?_
    · rw [List.mem_singleton.mp hs]
      exact floorStep_climbs (by omega)
    · simp [duplicateInvokes]

theorem towerSteps_climb (n : ℕ) : ∀ s ∈ towerSteps n, Climbs 0 s := by
  intro s hs
  obtain ⟨i, -, rfl⟩ := List.mem_map.mp hs
  exact .up (by omega) _

theorem duplicateInvokes_nil {before steps : List StepSpec}
    (h : ((before ++ steps).map (·.id)).Nodup) : duplicateInvokes before steps = [] := by
  induction steps generalizing before with
  | nil => rfl
  | cons s ss ih =>
    have hfresh : before.any (·.id = s.id) = false := by
      refine List.any_eq_false.mpr fun t ht => ?_
      rw [List.map_append, List.map_cons] at h
      have hne := (List.nodup_append.mp h).2.2 t.id (List.mem_map_of_mem ht) s.id (by simp)
      simpa using hne
    have hrest : ((before ++ [s] ++ ss).map (·.id)).Nodup := by simpa using h
    simp [duplicateInvokes, hfresh, ih hrest]

theorem towerSteps_nodup (n : ℕ) : ((towerSteps n).map (·.id)).Nodup := by
  have hids : (towerSteps n).map (·.id) = (List.range n).map fun i => 's' :: natText i := by
    simp [towerSteps, invokeStep, StepSpec.named]
  rw [hids]
  exact List.nodup_range.map fun i j hij => natText_injective (List.cons.inj hij).2

theorem tower_quiet (n : ℕ) :
    Quiet (inlineInvokes (towerTools n) towerLibraries (towerSteps n)).2 := by
  have hstart : Quiet Compile.start := by
    refine ⟨by simp [Compile.start], fun _ => rfl, ?_, ?_, List.nodup_nil, Nat.zero_le _⟩
    · intro k p _ hget
      cases hget
    · intro written hmem
      cases hmem
  refine inlineLevelWith_quiet hstart (by simp) (k := 0) ?_ (towerSteps_climb n)
    (duplicateInvokes_nil (towerSteps_nodup n))
  exact fun _ => ⟨_, rfl, inlineLevel_quiet rfl⟩

/-- The floors from the `k`-th up are one node under an invoke step each. -/
theorem floor_unfolds {room k : ℕ} (hk : room + k = 8) (hpos : 1 ≤ k) :
    ∃ u, Unfolds (towerTools n) towerLibraries k [floorStep k] u ∧ u.nodes.length = 1 ∧
      u.invokes = room + 1 := by
  induction room generalizing k with
  | zero =>
    obtain rfl : k = 8 := by omega
    have hkept : suffixes (towerTools n) (floorStep 8).matrix = [[]] := rfl
    exact ⟨_, .gate rfl gate_target (by simp [hkept]) .nil, by simp [compiledIds_length, hkept], rfl⟩
  | succ room ih =>
    obtain ⟨inner, hinner, hnodes, hinvokes⟩ := ih (k := k + 1) (by omega) (by omega)
    have hlt : k < 8 := by omega
    have hkept : suffixes (towerTools n) (invokeStep ['s'] (floorTarget (k + 1))).matrix = [[]] :=
      rfl
    rw [floorStep, if_pos hlt]
    refine ⟨_, .library rfl (floor_target (by omega) hlt) (floor_source (by omega) hlt)
      (floor_parse (by omega) hlt) (by simp [floorIr]) hlt (by simp [hkept]) hinner .nil, ?_, ?_⟩
    · simp [copiesOf_length, hkept, hnodes]
    · simp only [hinvokes]

theorem tower_unfolds (ids : List Text) : ∃ u, Unfolds (towerTools n) towerLibraries 0
    (ids.map fun id => invokeStep id (floorTarget 1)) u ∧ u.nodes.length = ids.length ∧
      u.invokes = 9 * ids.length := by
  induction ids with
  | nil => exact ⟨_, .nil, rfl, rfl⟩
  | cons id ids ih =>
    obtain ⟨others, hothers, hnodes, hinvokes⟩ := ih
    obtain ⟨inner, hinner, hone, hfloors⟩ :=
      floor_unfolds (n := n) (k := 1) (show 7 + 1 = 8 from rfl) le_rfl
    have hkept : suffixes (towerTools n) (invokeStep id (floorTarget 1)).matrix = [[]] := rfl
    refine ⟨_, .library rfl (floor_target le_rfl (by omega)) (floor_source le_rfl (by omega))
      (floor_parse le_rfl (by omega)) (by simp [floorIr]) (by decide) (by simp [hkept]) hinner
      hothers, ?_, ?_⟩
    · simp only [List.length_append, copiesOf_length, hkept, hone, hnodes, List.length_cons,
        List.length_nil]
      omega
    · simp only [hfloors, hinvokes, List.length_cons]
      omega

theorem tower_parse (n : ℕ) : (towerTools n).parseYaml (towerYaml n) = .ok (towerIr n) := by
  have hother : ∀ k, floorYaml k ≠ towerYaml n := by
    intro k h
    have hfloor : (floorYaml k).head? = some 'k' := by
      rw [floorYaml, List.head?_append, show floorHead.head? = some 'k' by decide]
      rfl
    have htower : (towerYaml n).head? = some 's' := by
      rw [towerYaml, List.head?_append, show towerHead.head? = some 's' by decide]
      rfl
    rw [h, htower] at hfloor
    exact absurd hfloor (by decide)
  have hfloors : (((List.range 8).map fun k => (floorYaml (k + 1), floorIr (k + 1),
      floorHashes.getD k [])).find? fun f => decide (f.1 = towerYaml n)) = none := by
    simp [List.find?_eq_none, hother]
  simp only [towerTools, tableToolchain, List.find?_append, hfloors]
  simp

/-- As many invokes as `n` chains of nine have, and only `n` nodes. -/
theorem tower_exceeds (hn : maxInvokeExpansions < 9 * n)
    (hsmall : ¬ byteLen (towerYaml n) > maxSourceBytes) :
    ∃ u, Unfolds (towerTools n) towerLibraries 0 (towerIr n).steps u ∧ u.nodes.length = n ∧
      OnlyCaps (compileLibs (towerTools n) towerLibraries (towerYaml n)) ∧
      RefusedForCaps (compileLibs (towerTools n) towerLibraries (towerYaml n)) := by
  have hsteps : (towerIr n).steps = ((List.range n).map fun i => 's' :: natText i).map
      fun id => invokeStep id (floorTarget 1) := by
    simp [towerIr, towerSteps]
  obtain ⟨u, hu, hnodes, hinvokes⟩ :=
    tower_unfolds (n := n) ((List.range n).map fun i => 's' :: natText i)
  rw [← hsteps] at hu
  simp only [List.length_map, List.length_range] at hnodes hinvokes
  have hparse := tower_parse n
  have hquiet := tower_quiet n
  have hmet : (inlineInvokes (towerTools n) towerLibraries (towerIr n).steps).2.diagnostics ≠
      [] := by
    intro hclean
    have htally : Tally True _ u.invokes Compile.start
        (inlineInvokes (towerTools n) towerLibraries (towerIr n).steps).2 :=
      inlineLevel_tallies maxInvokeDepth 0 True _ [] _ u _ hu start_running start_sound
        (fun _ => trivial) (fun _ => trivial)
    obtain ⟨hrun, hcount, -⟩ := htally.clean hclean
    have hwithin := hrun.within
    rw [hcount] at hwithin
    have hzero : Compile.start.expansions = 0 := rfl
    omega
  have hcompile : compileLibs (towerTools n) towerLibraries (towerYaml n) = .error (.validation
      (inlineInvokes (towerTools n) towerLibraries (towerIr n).steps).2.diagnostics) := by
    have hbad : (!(inlineInvokes (towerTools n) towerLibraries
        (towerIr n).steps).2.diagnostics.isEmpty) = true := by
      simpa using hmet
    have hfile : (towerIr n).isLibrary = false := rfl
    simp only [compileLibs, hsmall, hparse, hfile, hbad, if_true, if_false, Bool.false_eq_true]
  have honly : OnlyCaps (compileLibs (towerTools n) towerLibraries (towerYaml n)) :=
    .inr ⟨_, hcompile, hquiet.caps⟩
  exact ⟨u, hu, hnodes, honly, (refusedForCaps_iff hparse hu honly).mpr (.inr (by omega))⟩

theorem towerYaml_small : ¬ byteLen (towerYaml 911) > maxSourceBytes := by
  have hpart : ∀ i : ℕ, byteLen ("  - id: s".toList ++ natText i ++ "\n    invoke: ".toList ++
      floorTarget 1 ++ ['\n']) = 30 + byteLen (natText i) := by
    intro i
    have hbefore : byteLen "  - id: s".toList = 9 := by decide
    have hafter : byteLen "\n    invoke: ".toList = 13 := by decide
    have htarget : byteLen (floorTarget 1) = 7 := by decide
    have hend : byteLen ['\n'] = 1 := by decide
    simp only [byteLen_append, hbefore, hafter, htarget, hend]
    omega
  have hflat : ∀ is : List ℕ, byteLen (is.flatMap fun i => "  - id: s".toList ++ natText i ++
      "\n    invoke: ".toList ++ floorTarget 1 ++ ['\n']) =
        30 * is.length + (is.map fun i => byteLen (natText i)).sum := by
    intro is
    induction is with
    | nil => rfl
    | cons i is ih =>
      rw [List.flatMap_cons, byteLen_append, hpart, ih, List.length_cons, List.map_cons,
        List.sum_cons]
      omega
  have hdigits : ((List.range 911).map fun i => byteLen (natText i)).sum ≤ 4096 := by
    decide +kernel
  have hhead : byteLen towerHead = 7 := by decide
  have hmax : 65536 ≤ maxSourceBytes := by decide
  rw [towerYaml, byteLen_append, hflat, hhead, List.length_range]
  omega

/-- The file is refused although no library of it is nested too deep: the depth check counts the
libraries on the path to one that is invoked, and a plugin's gate is not checked. -/
theorem tower_refused : ∃ u, (towerTools 911).parseYaml (towerYaml 911) = .ok (towerIr 911) ∧
    Unfolds (towerTools 911) towerLibraries 0 (towerIr 911).steps u ∧
    u.nodes.length ≤ maxCompiledSteps ∧
    OnlyCaps (compileLibs (towerTools 911) towerLibraries (towerYaml 911)) ∧
    RefusedForCaps (compileLibs (towerTools 911) towerLibraries (towerYaml 911)) := by
  obtain ⟨u, hu, hnodes, honly, hrefused⟩ :=
    tower_exceeds (n := 911) (by decide) towerYaml_small
  have hlen : u.nodes.length ≤ maxCompiledSteps := by
    rw [hnodes]
    decide
  exact ⟨u, tower_parse 911, hu, hlen, honly, hrefused⟩

end tower
end Scarab.Pipeline
