import Scarab.PipelineBinding
import Scarab.PipelineCompile

/-!
# What a compile that goes through inlines

Diagnostics are only added, so a compile that ends with none met none on the way. `Piece` says
what one step then added to its level, and `Inlines` what a level became.
-/
namespace Scarab.Pipeline

variable {tc : Toolchain} {libs : Libraries}

theorem InvokeTarget.written_injective : Function.Injective InvokeTarget.written := by
  intro a b h
  unfold InvokeTarget.written at h
  cases a <;> cases b <;> dsimp only at h
  case file.file => exact congrArg InvokeTarget.file (List.append_cancel_left h)
  case lib.lib => exact congrArg InvokeTarget.lib (List.append_cancel_left h)
  case plugin.plugin => exact congrArg InvokeTarget.plugin (List.append_cancel_left h)
  all_goals
    have hhead := congrArg List.head? h
    simp at hhead

/-- Every library parsed so far was parsed from the source its target names. -/
structure Work.Sound (tc : Toolchain) (libs : Libraries) (w : Work) : Prop where
  full : ∀ {target : InvokeTarget} {src : Text} {ir : PipelineIr} {hash : Text},
    w.full.get target.written = some (.library ir hash) → libs.sourceOf target = some src →
      tc.parseYaml src = .ok ir ∧ hash = tc.sha256Hex src
  exposed : ∀ {target : InvokeTarget} {src : Text} {outs : List Text},
    w.exposed.get target.written = some (some outs) → libs.sourceOf target = some src →
      ∃ i, tc.parseInterface src = some i ∧ outs = i.outputs.map (·.name)

namespace Work

theorem admitSource_full (w : Work) (written src : Text) :
    (w.admitSource written src).2.full = w.full := by
  unfold admitSource
  split_ifs <;> rfl

theorem admitSource_exposed (w : Work) (written src : Text) :
    (w.admitSource written src).2.exposed = w.exposed := by
  unfold admitSource
  split_ifs <;> rfl

theorem Sound.admitSource {w : Work} (h : w.Sound tc libs) (written src : Text) :
    (w.admitSource written src).2.Sound tc libs := by
  constructor
  · intro target s ir hash hget
    rw [admitSource_full] at hget
    exact h.full hget
  · intro target s outs hget
    rw [admitSource_exposed] at hget
    exact h.exposed hget

theorem Sound.parse {w : Work} (h : w.Sound tc libs) {target : InvokeTarget} {src : Text}
    (hsrc : libs.sourceOf target = some src) :
    (w.parse tc target.written src).2.Sound tc libs := by
  unfold Work.parse
  split
  · exact h
  · have ha := h.admitSource target.written src
    constructor
    · intro t s ir hash hget hs
      simp only [SortedMap.get_insert] at hget
      by_cases hk : t.written = target.written
      · obtain rfl := InvokeTarget.written_injective hk
        obtain rfl : src = s := Option.some.inj (hsrc.symm.trans hs)
        grind
      · rw [if_neg hk] at hget
        exact ha.full hget hs
    · intro t s outs hget hs
      exact ha.exposed hget hs

/-- A library given out by `parse` is the one its source says. -/
theorem Sound.parse_library {w : Work} (h : w.Sound tc libs) {target : InvokeTarget} {src : Text}
    (hsrc : libs.sourceOf target = some src) {ir : PipelineIr} {hash : Text}
    (hp : (w.parse tc target.written src).1 = .library ir hash) :
    tc.parseYaml src = .ok ir ∧ hash = tc.sha256Hex src := by
  unfold Work.parse at hp
  split at hp
  · next done hget => exact h.full (hp ▸ hget) hsrc
  · grind

theorem Sound.exposedOf {w : Work} (h : w.Sound tc libs) {target : InvokeTarget} {src : Text}
    (hsrc : libs.sourceOf target = some src) :
    (w.exposedOf tc target.written src).2.Sound tc libs ∧
      ∀ outs, (w.exposedOf tc target.written src).1 = some outs →
        ∃ i, tc.parseInterface src = some i ∧ outs = i.outputs.map (·.name) := by
  unfold Work.exposedOf
  split
  · next done hget =>
    refine ⟨h, fun outs ho => ?_⟩
    exact h.exposed (ho ▸ hget) hsrc
  · have ha := h.admitSource target.written src
    have hread : ∀ outs, (if (w.admitSource target.written src).1 = true then
        (tc.parseInterface src).map fun i => i.outputs.map (·.name) else none) = some outs →
        ∃ i, tc.parseInterface src = some i ∧ outs = i.outputs.map (·.name) := by
      intro outs ho
      split_ifs at ho
      obtain ⟨i, hi, rfl⟩ := Option.map_eq_some_iff.mp ho
      exact ⟨i, hi, rfl⟩
    refine ⟨⟨fun hget hs => ha.full hget hs, ?_⟩, hread⟩
    intro t s outs hget hs
    simp only [SortedMap.get_insert] at hget
    by_cases hk : t.written = target.written
    · rw [if_pos hk] at hget
      obtain rfl := InvokeTarget.written_injective hk
      obtain rfl : src = s := Option.some.inj (hsrc.symm.trans hs)
      exact hread outs (Option.some.inj hget)
    · rw [if_neg hk] at hget
      exact ha.exposed hget hs

end Work

/-- What any part of a compile does to its state: diagnostics are added at the end, and nothing
stops a compile but a diagnostic. -/
structure Compile.Leads (tc : Toolchain) (libs : Libraries) (c c' : Compile) : Prop where
  grows : c.diagnostics <+: c'.diagnostics
  running : c'.diagnostics = [] → c.stopped = false → c'.stopped = false
  sound : c.work.Sound tc libs → c'.work.Sound tc libs

namespace Compile.Leads

variable {c c' c'' : Compile}

/-- A state without diagnostics comes from one without. -/
theorem clean (h : c.Leads tc libs c') (hd : c'.diagnostics = []) : c.diagnostics = [] := by
  have hgrows := h.grows
  rwa [hd, List.prefix_nil] at hgrows

theorem refl (c : Compile) : c.Leads tc libs c := ⟨List.prefix_rfl, fun _ h => h, id⟩

theorem trans (h : c.Leads tc libs c') (h' : c'.Leads tc libs c'') : c.Leads tc libs c'' :=
  ⟨h.grows.trans h'.grows,
    fun hd hs => h'.running hd (h.running (h'.clean hd) hs), fun hw => h'.sound (h.sound hw)⟩

theorem report (c : Compile) (step : Text) (problems : List Problem) :
    c.Leads tc libs (c.report step problems) :=
  ⟨List.prefix_append _ _, fun _ h => h, id⟩

theorem push (c : Compile) (step : Text) (problem : Problem) :
    c.Leads tc libs (c.push step problem) := report c step [problem]

theorem stop (c : Compile) (step : Text) (problem : Problem) :
    c.Leads tc libs (c.stop step problem) := by
  unfold Compile.stop
  split_ifs with h
  · exact refl c
  · refine ⟨List.prefix_append _ _, fun hd => ?_, id⟩
    simp [Compile.push, Compile.report] at hd

theorem spent (c : Compile) : c.Leads tc libs c.spent := by
  unfold Compile.spent
  split_ifs
  · exact stop c _ _
  · exact refl c

theorem work {w : Work} (h : c.work.Sound tc libs → w.Sound tc libs) :
    c.Leads tc libs { c with work := w } := ⟨List.prefix_rfl, fun _ h => h, h⟩

theorem matrix (c : Compile) (m : MatrixWork) :
    c.Leads tc libs { c with work := { c.work with matrix := m } } :=
  work fun h => ⟨h.full, h.exposed⟩

end Compile.Leads

theorem report_diagnostics {c : Compile} {step : Text} {problems : List Problem}
    (h : (c.report step problems).diagnostics = []) : problems = [] := by
  simpa using (List.append_eq_nil_iff.mp h).2

theorem push_diagnostics {c : Compile} {step : Text} {problem : Problem} :
    (c.push step problem).diagnostics ≠ [] := by
  simp [Compile.push, Compile.report]

theorem stop_diagnostics {c : Compile} {step : Text} {problem : Problem} (hs : c.stopped = false) :
    (c.stop step problem).diagnostics ≠ [] := by
  simp [Compile.stop, hs, Compile.push, Compile.report]

section leads

variable (level : Level) (stack : List Frame) (siblings : List StepSpec) (exposed : Exposed)
  (step : StepSpec) (acc : LevelAcc) (c : Compile)

theorem capped_leads (at_ : Text) : c.Leads tc libs (capped tc at_ acc c).2 := by
  unfold capped
  split_ifs
  · exact .stop c _ _
  · split
    · exact .refl c
    · split_ifs
      · exact .refl c
      · exact .stop c _ _

theorem pushNodes_leads (at_ : Text) (nodes : List StepSpec) :
    c.Leads tc libs (pushNodes tc at_ nodes acc c).2 := by
  induction nodes generalizing acc c with
  | nil => exact .refl c
  | cons n ns ih =>
    have hcap : c.Leads tc libs (capped tc at_ { acc with out := acc.out ++ [n] } c).2 :=
      capped_leads _ _ _
    simp only [pushNodes]
    split_ifs
    · exact hcap
    · exact hcap.trans (ih _ _)

theorem exposedStep_sound {s : StepSpec} {raw : Text} {w : Work} (h : w.Sound tc libs) :
    (exposedStep tc libs s raw w).2.Sound tc libs := by
  unfold exposedStep
  split_ifs
  · exact h
  · split
    · exact h
    · split
      · exact h
      · next hsrc =>
        split_ifs
        · exact h
        · exact (h.exposedOf hsrc).1

theorem exposedOutputs_sound {steps : List StepSpec} {w : Work} (h : w.Sound tc libs) :
    (exposedOutputs tc libs steps w).2.Sound tc libs := by
  induction steps generalizing w with
  | nil => exact h
  | cons s ss ih =>
    simp only [exposedOutputs]
    split
    · exact ih h
    · split_ifs
      · exact ih h
      · exact ih (exposedStep_sound h)
      · exact ih (exposedStep_sound h)

theorem pluginGateNodes_leads (target : Text) (def_ : PluginGateDef) :
    c.Leads tc libs (pluginGateNodes tc step target def_ level siblings exposed c).2 := by
  simp only [pluginGateNodes]
  split
  · exact ((Compile.Leads.report c _ _).trans (.report _ _ _)).trans
      ((Compile.Leads.matrix _ _).trans (.push _ _ _))
  · exact ((Compile.Leads.report c _ _).trans (.report _ _ _)).trans (Compile.Leads.matrix _ _)

theorem inlineRunStep_leads :
    c.Leads tc libs (inlineRunStep tc level siblings exposed step acc c).2 := by
  have hwith : c.Leads tc libs
      (if step.with_.entries.isEmpty then c else c.push step.id .withOffInvoke) := by
    split_ifs
    · exact .refl c
    · exact .push c _ _
  simp only [inlineRunStep]
  split
  · exact (hwith.trans (.report _ _ _)).trans (pushNodes_leads _ _ _ _)
  · exact hwith.trans (pushNodes_leads _ _ _ _)

theorem inlinePlugin_leads (target : Text) :
    c.Leads tc libs (inlinePlugin tc libs level siblings exposed step target acc c).2 := by
  simp only [inlinePlugin]
  split
  · exact .push c _ _
  · exact (pluginGateNodes_leads level siblings exposed step c target _).trans
      (pushNodes_leads _ _ _ _)

/-- A level below does to the state what any part of a compile does. -/
def Recurse.Leads (tc : Toolchain) (libs : Libraries) (recurse : Recurse) : Prop :=
  ∀ (level : Level) (stack : List Frame) (steps : List StepSpec) (c : Compile),
    c.Leads tc libs (recurse level stack steps c).2

theorem copyLibrary_leads (link : OriginEntry) (lib : PipelineIr) (withNeeds : List Text)
    (resolved : List StepSpec) :
    c.Leads tc libs (copyLibrary tc step link lib withNeeds resolved acc c).2 := by
  simp only [copyLibrary]
  split_ifs
  · exact .refl c
  · split
    · exact ((Compile.Leads.report _ _ _).trans (.matrix _ _)).trans (.push _ _ _)
    · split_ifs
      · exact ((Compile.Leads.report _ _ _).trans (.matrix _ _)).trans (pushNodes_leads _ _ _ _)
      · exact ((Compile.Leads.report _ _ _).trans (.matrix _ _)).trans (pushNodes_leads _ _ _ _)

/-- The problems of an invoke step whose library was parsed. -/
def invokeProblems (host : Host) (level : Level) (siblings : List StepSpec) (exposed : Exposed)
    (step : StepSpec) (lib : PipelineIr) : List Problem :=
  let iface := validateInterface host step lib siblings
  iface ++ (bindWith host step lib.interface.inputs level siblings exposed iface.isEmpty).problems ++
    guardProblems host level step

theorem inlineParsed_leads_report {recurse : Recurse} (hrec : recurse.Leads tc libs)
    (source : LibrarySource) (written : Text) (lib : PipelineIr) (hash : Text) :
    (c.report step.id (invokeProblems tc.toHost level siblings exposed step lib)).Leads tc libs
      (inlineParsed tc level stack siblings exposed recurse step source written lib hash acc c).2 := by
  simp only [inlineParsed]
  exact (hrec _ _ _ _).trans (copyLibrary_leads _ _ _ _ _ _ _)

theorem inlineParsed_leads {recurse : Recurse} (hrec : recurse.Leads tc libs)
    (source : LibrarySource) (written : Text) (lib : PipelineIr) (hash : Text) :
    c.Leads tc libs
      (inlineParsed tc level stack siblings exposed recurse step source written lib hash acc c).2 :=
  (Compile.Leads.report c _ _).trans
    (inlineParsed_leads_report _ _ _ _ _ _ _ hrec source written lib hash)

theorem librarySource_src {target : InvokeTarget} {source : LibrarySource}
    (h : librarySource libs target = .ok source) : libs.sourceOf target = some source.src := by
  unfold librarySource at h
  unfold Libraries.sourceOf
  split at h <;> try split at h
  all_goals grind

theorem inlineLibrary_leads {recurse : Option Recurse}
    (hrec : ∀ r, recurse = some r → r.Leads tc libs) {target : InvokeTarget}
    {source : LibrarySource} (hsource : libs.sourceOf target = some source.src) :
    c.Leads tc libs
      (inlineLibrary tc recurse level stack siblings exposed step target source acc c).2 := by
  have hparse : ∀ w, (c.work.parse tc target.written source.src).2 = w →
      c.Leads tc libs { c with work := w } := by
    intro w hw
    exact .work fun h => hw ▸ h.parse hsource
  unfold inlineLibrary
  cases recurse with
  | none =>
    dsimp only
    split_ifs
    · exact .push c _ _
    · exact .push c _ _
  | some r =>
    dsimp only
    split_ifs
    · exact .push c _ _
    · exact .push c _ _
    · split
      · next w hp => exact (hparse w (by rw [hp])).trans (.push _ _ _)
      · next w hp => exact (hparse w (by rw [hp])).trans (.push _ _ _)
      · next lib hash w hp =>
        have h₁ := hparse w (by rw [hp])
        split_ifs
        · exact h₁.trans (.push _ _ _)
        · exact h₁.trans ((Compile.Leads.report _ _ _).trans (.push _ _ _))
        · exact h₁.trans ((Compile.Leads.report _ _ _).trans
            (inlineParsed_leads _ _ _ _ _ _ _ (hrec r rfl) _ _ _ _))

theorem inlineInvoke_leads {recurse : Option Recurse}
    (hrec : ∀ r, recurse = some r → r.Leads tc libs) (target : InvokeTarget) :
    c.Leads tc libs
      (inlineInvoke tc libs recurse level stack siblings exposed step target acc c).2 := by
  unfold inlineInvoke
  split
  · exact inlinePlugin_leads _ _ _ _ _ _ _
  · split
    · exact .push c _ _
    · next hs => exact inlineLibrary_leads _ _ _ _ _ _ _ hrec (librarySource_src hs)

theorem inlineTarget_leads {recurse : Option Recurse}
    (hrec : ∀ r, recurse = some r → r.Leads tc libs) (raw : Text) :
    c.Leads tc libs
      (inlineTarget tc libs recurse level stack siblings exposed step raw acc c).2 := by
  have hcount : c.Leads tc libs { c with expansions := c.expansions + 1 } :=
    ⟨List.prefix_rfl, fun _ h => h, id⟩
  unfold inlineTarget
  by_cases hmax : c.expansions + 1 > maxInvokeExpansions
  · simp only [hmax, if_true]
    exact hcount.trans (.stop _ _ _)
  · simp only [hmax, if_false]
    have hfields := hcount.trans (.report { c with expansions := c.expansions + 1 } step.id
      (invokeFieldProblems step))
    cases parseInvokeTarget raw with
    | error e => exact hfields.trans (.push _ _ _)
    | ok target =>
      dsimp only
      generalize Compile.report _ _ _ = c₁ at hfields ⊢
      have hexpires : c.Leads tc libs
          (if step.gateExpiresAfter.isSome && !target.isPlugin then
            c₁.push step.id .expiresOffPlugin else c₁) := by
        split_ifs
        · exact hfields.trans (.push _ _ _)
        · exact hfields
      generalize (if (_ && _) = true then Compile.push _ _ _ else _) = c₂ at hexpires ⊢
      split_ifs
      · exact hexpires.trans (.push _ _ _)
      · exact hexpires.trans (inlineInvoke_leads _ _ _ _ _ _ _ hrec _)

theorem inlineStep_leads {recurse : Option Recurse}
    (hrec : ∀ r, recurse = some r → r.Leads tc libs) :
    c.Leads tc libs
      (inlineStep tc libs recurse level stack siblings exposed step acc c).2 := by
  have hfields : c.Leads tc libs (c.report step.id (compilerFields step)) := .report c _ _
  simp only [inlineStep]
  split
  · exact hfields.trans (inlineRunStep_leads _ _ _ _ _ _)
  · exact hfields.trans (inlineTarget_leads _ _ _ _ _ _ _ hrec _)

theorem inlineSteps_leads {recurse : Option Recurse}
    (hrec : ∀ r, recurse = some r → r.Leads tc libs) (steps : List StepSpec) :
    c.Leads tc libs
      (inlineSteps tc libs recurse level stack siblings exposed steps acc c).2 := by
  induction steps generalizing acc c with
  | nil => exact .refl c
  | cons s ss ih =>
    have hspent : c.Leads tc libs c.spent := .spent c
    simp only [inlineSteps]
    split_ifs
    · exact hspent
    · exact hspent.trans (inlineStep_leads _ _ _ _ _ _ _ hrec)
    · exact (hspent.trans (inlineStep_leads _ _ _ _ _ _ _ hrec)).trans (ih _ _)

end leads

theorem inlineLevelWith_leads {recurse : Option Recurse}
    (hrec : ∀ r, recurse = some r → r.Leads tc libs) :
    (inlineLevelWith tc libs recurse).Leads tc libs := by
  intro level stack steps c
  simp only [inlineLevelWith]
  set c₁ : Compile := { c with
    work := (exposedOutputs tc libs steps c.work).2
    diagnostics := c.diagnostics ++ (duplicateInvokes [] steps).map fun id => ⟨id, .duplicateId⟩ }
  have h₁ : c.Leads tc libs c₁ :=
    ⟨List.prefix_append _ _, fun _ h => h, fun h => exposedOutputs_sound h⟩
  have h₂ := h₁.trans (inlineSteps_leads level stack steps
    (exposedOutputs tc libs steps c.work).1 ⟨[], ∅, 0⟩ c₁ hrec steps)
  split_ifs
  · exact h₂
  · exact h₂

theorem inlineLevel_leads (room : ℕ) : (inlineLevel tc libs room).Leads tc libs := by
  induction room with
  | zero =>
    refine inlineLevelWith_leads fun r h => ?_
    cases h
  | succ room ih =>
    refine inlineLevelWith_leads fun r h => ?_
    obtain rfl := Option.some.inj h
    exact ih

/-- What the steps of a level became. -/
abbrev LevelRel := Level → List Frame → List StepSpec → List StepSpec → Prop

/-- What one step added to its level: its nodes, and where references to it move. -/
structure Piece where
  step : StepSpec
  nodes : List StepSpec
  leaves : Option (List Text)

def Piece.addTo (seam : Seam) (p : Piece) : Seam :=
  match p.leaves with
  | none => seam
  | some leaves => seam.insert p.step.id leaves

def seamOf (pieces : List Piece) : Seam := pieces.foldl Piece.addTo ∅

/-- The instances of a step, when its matrix can be expanded. -/
def instancesOf (tc : Toolchain) (step : StepSpec) : Except MatrixProblem (List StepSpec) :=
  match step.matrix with
  | none => .ok [step]
  | some matrix => matrixInstances tc step matrix

/-- A step that runs, with its scope. -/
def ownStep (host : Host) (level : Level) (siblings : List StepSpec) (exposed : Exposed)
    (step : StepSpec) : StepSpec :=
  match level.library with
  | some _ => (libraryStepScope host step level siblings exposed).1
  | none => invokeOutputScope host step exposed

/-- The inputs of a target as an invoke step that met no problem binds them. -/
def boundFor (host : Host) (level : Level) (siblings : List StepSpec) (exposed : Exposed)
    (step : StepSpec) (inputs : List ParamSpec) : BoundWith :=
  bindWith host step inputs level siblings exposed true

section adds

variable (tc : Toolchain) (libs : Libraries) (below : Option LevelRel) (level : Level)
  (stack : List Frame) (siblings : List StepSpec) (exposed : Exposed)

/-- How a step that met no problem was inlined. -/
inductive Adds : Piece → Prop
  | run {step : StepSpec} (hinvoke : step.invoke = none)
      (hscope : level.library.isSome →
        (libraryStepScope tc.toHost step level siblings exposed).2 = []) :
      Adds ⟨step, [ownStep tc.toHost level siblings exposed step], none⟩
  | gate {step : StepSpec} {raw name : Text} {def_ : PluginGateDef} {invs : List StepSpec}
      (hinvoke : step.invoke = some raw) (htarget : parseInvokeTarget raw = .ok (.plugin name))
      (hfields : invokeFieldProblems step = []) (hdef : libs.pluginGates.get name = some def_)
      (hbound : (boundFor tc.toHost level siblings exposed step def_.interface.inputs).problems = [])
      (hguard : guardProblems tc.toHost level step = []) (hinvs : instancesOf tc step = .ok invs) :
      Adds ⟨step,
        invs.map (pluginNode level (pluginNames name).1 (pluginNames name).2 def_
          (boundFor tc.toHost level siblings exposed step def_.interface.inputs)),
        if step.matrix.isSome then some (invs.map (·.id)) else none⟩
  | library {step : StepSpec} {raw : Text} {target : InvokeTarget} {source : LibrarySource}
      {lib : PipelineIr} {rel : LevelRel} {resolved invs : List StepSpec}
      (hinvoke : step.invoke = some raw) (htarget : parseInvokeTarget raw = .ok target)
      (hfields : invokeFieldProblems step = [])
      (hclosed : stack.head?.any (·.installed) = true → target.isFile = false)
      (hsource : librarySource libs target = .ok source)
      (hparse : tc.parseYaml source.src = .ok lib) (hbelow : below = some rel)
      (hiface : validateInterface tc.toHost step lib siblings = [])
      (hbound : (boundFor tc.toHost level siblings exposed step lib.interface.inputs).problems = [])
      (hguard : guardProblems tc.toHost level step = [])
      (hresolved : rel
        (innerLevel level source.label lib.interface.inputs
          (boundFor tc.toHost level siblings exposed step lib.interface.inputs))
        (⟨target.written, source.label, source.kind = .library⟩ :: stack) lib.steps resolved)
      (hinvs : instancesOf tc step = .ok invs) (hsteps : lib.steps ≠ []) :
      Adds ⟨step,
        invs.flatMap fun inv => resolved.map
          (inlinedNode (source.link (tc.sha256Hex source.src)) (step.deploy || lib.deploy)
            (resolved.map (·.id))
            (boundFor tc.toHost level siblings exposed step lib.interface.inputs).withNeeds inv),
        some (invs.flatMap (copyLeaves resolved))⟩

end adds

/-- What each invoke step is known to expose was read from its library's interface. -/
def ExposedSound (tc : Toolchain) (libs : Libraries) (steps : List StepSpec) (exposed : Exposed) :
    Prop :=
  ∀ {name : Text} {outs : List Text}, exposed.get name = some (some outs) →
    ∃ s ∈ steps, s.id = name ∧ s.matrix = none ∧ ∃ raw target src iface,
      s.invoke = some raw ∧ parseInvokeTarget raw = .ok target ∧
      libs.sourceOf target = some src ∧ tc.parseInterface src = some iface ∧
      outs = iface.outputs.map (·.name)

/-- How a level that met no problem was inlined, given the level below. -/
inductive LevelInlines (tc : Toolchain) (libs : Libraries) (below : Option LevelRel) : LevelRel
  | mk {level : Level} {stack : List Frame} {pieces : List Piece} {exposed : Exposed}
      (hexposed : ExposedSound tc libs (pieces.map (·.step)) exposed)
      (hunique : duplicateInvokes [] (pieces.map (·.step)) = [])
      (hfields : ∀ p ∈ pieces, compilerFields p.step = [])
      (hpieces : ∀ p ∈ pieces,
        Adds tc libs below level stack (pieces.map (·.step)) exposed p) :
      LevelInlines tc libs below level stack (pieces.map (·.step))
        ((pieces.flatMap (·.nodes)).map (seamStep (seamOf pieces)))

def Inlines (tc : Toolchain) (libs : Libraries) : ℕ → LevelRel
  | 0 => LevelInlines tc libs none
  | room + 1 => LevelInlines tc libs (some (Inlines tc libs room))

/-- What holds of a level when it holds of the level below holds of every level. -/
theorem Inlines.induction {P : LevelRel → Prop}
    (h : ∀ below, (∀ rel, below = some rel → P rel) → P (LevelInlines tc libs below)) (room : ℕ) :
    P (Inlines tc libs room) := by
  induction room with
  | zero =>
    refine h none fun rel hrel => ?_
    cases hrel
  | succ room ih =>
    refine h _ fun rel hrel => ?_
    obtain rfl := Option.some.inj hrel
    exact ih

/-- Every level is one over a level below of which the same holds. -/
theorem Inlines.exists_below {P : LevelRel → Prop}
    (h : ∀ below, (∀ rel, below = some rel → P rel) → P (LevelInlines tc libs below)) (room : ℕ) :
    ∃ below, Inlines tc libs room = LevelInlines tc libs below ∧ ∀ rel, below = some rel → P rel := by
  cases room with
  | zero =>
    refine ⟨none, rfl, fun rel hrel => ?_⟩
    cases hrel
  | succ room =>
    refine ⟨_, rfl, fun rel hrel => ?_⟩
    obtain rfl := Option.some.inj hrel
    exact Inlines.induction h room

theorem expandStep_instancesOf {step : StepSpec} {work work' : MatrixWork} {invs : List StepSpec}
    (h : expandStep tc step work = (.ok invs, work')) : instancesOf tc step = .ok invs := by
  unfold expandStep at h
  unfold instancesOf
  split at h
  · next hm => simpa [hm] using congrArg Prod.fst h
  · next m hm =>
    split at h
    · cases h
    · simpa [hm] using congrArg Prod.fst h

section spec

variable {level : Level} {stack : List Frame} {siblings : List StepSpec} {exposed : Exposed}
  {step : StepSpec} {acc : LevelAcc} {c : Compile}

theorem capped_spec {at_ : Text} (hd : (capped tc at_ acc c).2.diagnostics = [])
    (hs : c.stopped = false) :
    (capped tc at_ acc c).1.out = acc.out ∧ (capped tc at_ acc c).1.seam = acc.seam ∧
      (capped tc at_ acc c).2 = c := by
  unfold capped at hd ⊢
  split_ifs at hd ⊢
  · exact absurd hd (stop_diagnostics hs)
  · split at hd
    · exact ⟨rfl, rfl, rfl⟩
    · split_ifs at hd ⊢
      · exact ⟨rfl, rfl, rfl⟩
      · exact absurd hd (stop_diagnostics hs)

theorem pushNodes_clean {at_ : Text} {nodes : List StepSpec}
    (hd : (pushNodes tc at_ nodes acc c).2.diagnostics = []) : c.diagnostics = [] := by
  have hlead : c.Leads tc ⟨∅, ∅, ∅⟩ (pushNodes tc at_ nodes acc c).2 := pushNodes_leads acc c at_ nodes
  exact hlead.clean hd

theorem pushNodes_spec {at_ : Text} {nodes : List StepSpec}
    (hd : (pushNodes tc at_ nodes acc c).2.diagnostics = []) (hs : c.stopped = false) :
    (pushNodes tc at_ nodes acc c).1.out = acc.out ++ nodes ∧
      (pushNodes tc at_ nodes acc c).1.seam = acc.seam := by
  induction nodes generalizing acc c with
  | nil => simp [pushNodes]
  | cons n ns ih =>
    simp only [pushNodes] at hd ⊢
    split_ifs at hd ⊢ with hstop
    · obtain ⟨-, -, hc⟩ := capped_spec hd hs
      rw [hc, hs] at hstop
      cases hstop
    · obtain ⟨hout, hseam, -⟩ := capped_spec (pushNodes_clean hd) hs
      obtain ⟨ihout, ihseam⟩ := ih hd (by simpa using hstop)
      rw [ihout, ihseam, hout, hseam]
      simp

theorem inlineRunStep_spec (hinvoke : step.invoke = none)
    (hd : (inlineRunStep tc level siblings exposed step acc c).2.diagnostics = [])
    (hs : c.stopped = false) {below : Option LevelRel} :
    ∃ p : Piece, p.step = step ∧ Adds tc libs below level stack siblings exposed p ∧
      (inlineRunStep tc level siblings exposed step acc c).1.out = acc.out ++ p.nodes ∧
      (inlineRunStep tc level siblings exposed step acc c).1.seam = p.addTo acc.seam := by
  have hwith : (if step.with_.entries.isEmpty then c else c.push step.id .withOffInvoke).stopped =
      false := by
    split_ifs
    · exact hs
    · exact hs
  refine ⟨⟨step, [ownStep tc.toHost level siblings exposed step], none⟩, rfl, ?_⟩
  unfold inlineRunStep at hd ⊢
  cases hlib : level.library with
  | none =>
    simp only [hlib] at hd ⊢
    obtain ⟨hout, hseam⟩ := pushNodes_spec hd hwith
    refine ⟨.run hinvoke (by simp [hlib]), ?_, hseam⟩
    rw [hout]
    simp [ownStep, hlib]
  | some l =>
    simp only [hlib] at hd ⊢
    have hproblems := report_diagnostics (pushNodes_clean hd)
    obtain ⟨hout, hseam⟩ := pushNodes_spec hd hwith
    refine ⟨.run hinvoke fun _ => hproblems, ?_, hseam⟩
    rw [hout]
    simp [ownStep, hlib]

theorem pluginGateNodes_spec {target : Text} {def_ : PluginGateDef}
    (hd : (pluginGateNodes tc step target def_ level siblings exposed c).2.diagnostics = []) :
    ∃ invs, instancesOf tc step = .ok invs ∧
      (boundFor tc.toHost level siblings exposed step def_.interface.inputs).problems = [] ∧
      guardProblems tc.toHost level step = [] ∧
      (pluginGateNodes tc step target def_ level siblings exposed c).2.stopped = c.stopped ∧
      (pluginGateNodes tc step target def_ level siblings exposed c).1 =
        invs.map (pluginNode level (pluginNames target).1 (pluginNames target).2 def_
          (boundFor tc.toHost level siblings exposed step def_.interface.inputs)) := by
  simp only [pluginGateNodes] at hd ⊢
  split at hd
  · exact absurd hd push_diagnostics
  · next invs hinvs =>
    have hproblems := report_diagnostics hd
    simp only [List.append_eq_nil_iff] at hproblems
    obtain ⟨⟨⟨⟨hparams, hwith⟩, hbound⟩, -⟩, hguard⟩ := hproblems
    simp only [hparams, hwith] at hbound ⊢
    have hinsts : instancesOf tc step = .ok invs := expandStep_instancesOf (Prod.ext hinvs rfl)
    exact ⟨invs, hinsts, hbound, hguard, rfl, rfl⟩

theorem inlinePlugin_spec {raw name : Text} (hinvoke : step.invoke = some raw)
    (htarget : parseInvokeTarget raw = .ok (.plugin name))
    (hfields : invokeFieldProblems step = [])
    (hd : (inlinePlugin tc libs level siblings exposed step name acc c).2.diagnostics = [])
    (hs : c.stopped = false) {below : Option LevelRel} :
    ∃ p : Piece, p.step = step ∧ Adds tc libs below level stack siblings exposed p ∧
      (inlinePlugin tc libs level siblings exposed step name acc c).1.out = acc.out ++ p.nodes ∧
      (inlinePlugin tc libs level siblings exposed step name acc c).1.seam = p.addTo acc.seam := by
  unfold inlinePlugin at hd ⊢
  cases hdef : libs.pluginGates.get name with
  | none =>
    simp only [hdef] at hd
    exact absurd hd push_diagnostics
  | some def_ =>
    simp only [hdef] at hd ⊢
    obtain ⟨invs, hinvs, hbound, hguard, hstop, hnodes⟩ := pluginGateNodes_spec (pushNodes_clean hd)
    obtain ⟨hout, hseam⟩ := pushNodes_spec hd (hstop.trans hs)
    refine ⟨_, rfl, .gate hinvoke htarget hfields hdef hbound hguard hinvs, ?_, ?_⟩
    · rw [hout, hnodes]
      split_ifs <;> rfl
    · have hids : ∀ level installation gate def_ bound,
          (invs.map (pluginNode level installation gate def_ bound)).map (·.id) =
            invs.map (·.id) := by
        intro level installation gate def_ bound
        simp [pluginNode]
      rw [hseam, hnodes, hids]
      unfold Piece.addTo
      split_ifs <;> rfl

/-- A level below, when it meets no problem, does what `rel` says. -/
def Recurse.Meets (tc : Toolchain) (libs : Libraries) (recurse : Recurse) (rel : LevelRel) : Prop :=
  ∀ (level : Level) (stack : List Frame) (steps : List StepSpec) (c : Compile),
    (recurse level stack steps c).2.diagnostics = [] → c.stopped = false →
      c.work.Sound tc libs → rel level stack steps (recurse level stack steps c).1

theorem copyLibrary_spec {link : OriginEntry} {lib : PipelineIr} {withNeeds : List Text}
    {resolved : List StepSpec}
    (hd : (copyLibrary tc step link lib withNeeds resolved acc c).2.diagnostics = [])
    (hs : c.stopped = false) :
    ∃ invs, instancesOf tc step = .ok invs ∧
      (copyLibrary tc step link lib withNeeds resolved acc c).1.out = acc.out ++
        (invs.flatMap fun inv => resolved.map
          (inlinedNode link (step.deploy || lib.deploy) (resolved.map (·.id)) withNeeds inv)) ∧
      (copyLibrary tc step link lib withNeeds resolved acc c).1.seam =
        acc.seam.insert step.id (invs.flatMap (copyLeaves resolved)) := by
  simp only [copyLibrary, hs, Bool.false_eq_true, if_false] at hd ⊢
  split at hd
  · exact absurd hd push_diagnostics
  · next invs matrix hinvs =>
    have hpushed : ∀ at_ nodes, ∀ c₁ : Compile, c₁.stopped = false →
        (pushNodes tc at_ nodes acc c₁).2.diagnostics = [] →
          (pushNodes tc at_ nodes acc c₁).2.stopped = false := by
      intro at_ nodes c₁ hs₁ hd₁
      have hlead : c₁.Leads tc ⟨∅, ∅, ∅⟩ (pushNodes tc at_ nodes acc c₁).2 := pushNodes_leads _ _ _ _
      exact hlead.running hd₁ hs₁
    split_ifs at hd ⊢ with hstop
    · rw [hpushed _ _ _ (by exact hs) hd] at hstop
      cases hstop
    · obtain ⟨hout, hseam⟩ := pushNodes_spec hd (by exact hs)
      exact ⟨invs, expandStep_instancesOf hinvs, hout, by rw [hseam]⟩

theorem inlineParsed_spec {recurse : Recurse} {rel : LevelRel} (hlead : recurse.Leads tc libs)
    (hrec : recurse.Meets tc libs rel) {raw : Text} {target : InvokeTarget}
    {source : LibrarySource} {lib : PipelineIr} (hinvoke : step.invoke = some raw)
    (htarget : parseInvokeTarget raw = .ok target) (hfields : invokeFieldProblems step = [])
    (hclosed : stack.head?.any (·.installed) = true → target.isFile = false)
    (hsource : librarySource libs target = .ok source)
    (hparse : tc.parseYaml source.src = .ok lib) (hsteps : lib.steps ≠ [])
    (hd : (inlineParsed tc level stack siblings exposed recurse step source target.written lib
      (tc.sha256Hex source.src) acc c).2.diagnostics = [])
    (hs : c.stopped = false) (hw : c.work.Sound tc libs) :
    ∃ p : Piece, p.step = step ∧
      Adds tc libs (some rel) level stack siblings exposed p ∧
      (inlineParsed tc level stack siblings exposed recurse step source target.written lib
        (tc.sha256Hex source.src) acc c).1.out = acc.out ++ p.nodes ∧
      (inlineParsed tc level stack siblings exposed recurse step source target.written lib
        (tc.sha256Hex source.src) acc c).1.seam = p.addTo acc.seam := by
  have hproblems := report_diagnostics
    ((inlineParsed_leads_report _ _ _ _ _ _ _ hlead _ _ _ _).clean hd)
  simp only [invokeProblems, List.append_eq_nil_iff] at hproblems
  obtain ⟨⟨hiface, hbound⟩, hguard⟩ := hproblems
  simp only [inlineParsed, hiface, List.isEmpty_nil] at hd hbound ⊢
  have hcopied : ∀ withNeeds resolved (c₁ : Compile), c₁.Leads tc libs
      (copyLibrary tc step (source.link (tc.sha256Hex source.src)) lib withNeeds resolved acc c₁).2 :=
    fun withNeeds resolved c₁ => copyLibrary_leads step acc c₁ _ lib withNeeds resolved
  have hdr := (hcopied _ _ _).clean hd
  have hstop := (hlead _ _ _ _).running hdr hs
  have hresolved := hrec _ _ _ _ hdr hs hw
  obtain ⟨invs, hinvs, hout, hseam⟩ := copyLibrary_spec hd hstop
  exact ⟨_, rfl, .library hinvoke htarget hfields hclosed hsource hparse rfl hiface hbound hguard
    hresolved hinvs hsteps, hout, hseam⟩

theorem inlineLibrary_spec {recurse : Option Recurse} {below : Option LevelRel}
    (hlead : ∀ r, recurse = some r → r.Leads tc libs)
    (hrec : ∀ r, recurse = some r → ∃ rel, below = some rel ∧ r.Meets tc libs rel) {raw : Text}
    {target : InvokeTarget} {source : LibrarySource} (hinvoke : step.invoke = some raw)
    (htarget : parseInvokeTarget raw = .ok target) (hfields : invokeFieldProblems step = [])
    (hclosed : stack.head?.any (·.installed) = true → target.isFile = false)
    (hsource : librarySource libs target = .ok source)
    (hd : (inlineLibrary tc recurse level stack siblings exposed step target source acc c).2.diagnostics
      = [])
    (hs : c.stopped = false) (hw : c.work.Sound tc libs) :
    ∃ p : Piece, p.step = step ∧ Adds tc libs below level stack siblings exposed p ∧
      (inlineLibrary tc recurse level stack siblings exposed step target source acc c).1.out =
        acc.out ++ p.nodes ∧
      (inlineLibrary tc recurse level stack siblings exposed step target source acc c).1.seam =
        p.addTo acc.seam := by
  have hsrc := librarySource_src hsource
  cases recurse with
  | none =>
    simp only [inlineLibrary] at hd
    split_ifs at hd <;> exact absurd hd push_diagnostics
  | some r =>
    obtain ⟨rel, hbelow, hmeets⟩ := hrec r rfl
    subst hbelow
    simp only [inlineLibrary] at hd ⊢
    split_ifs at hd ⊢
    · exact absurd hd push_diagnostics
    · exact absurd hd push_diagnostics
    · split at hd
      · exact absurd hd push_diagnostics
      · exact absurd hd push_diagnostics
      · next lib hash w hp =>
        have hw₁ : w.Sound tc libs := by
          have := hw.parse hsrc
          rwa [hp] at this
        obtain ⟨hparse, rfl⟩ := hw.parse_library hsrc (congrArg Prod.fst hp)
        split_ifs at hd ⊢ with _ hsteps
        · exact absurd hd push_diagnostics
        · exact absurd hd push_diagnostics
        · exact inlineParsed_spec (hlead r rfl) hmeets hinvoke htarget hfields hclosed hsource
            hparse (by simpa using hsteps) hd hs hw₁

theorem inlineInvoke_spec {recurse : Option Recurse} {below : Option LevelRel}
    (hlead : ∀ r, recurse = some r → r.Leads tc libs)
    (hrec : ∀ r, recurse = some r → ∃ rel, below = some rel ∧ r.Meets tc libs rel) {raw : Text}
    {target : InvokeTarget} (hinvoke : step.invoke = some raw)
    (htarget : parseInvokeTarget raw = .ok target) (hfields : invokeFieldProblems step = [])
    (hclosed : stack.head?.any (·.installed) = true → target.isFile = false)
    (hd : (inlineInvoke tc libs recurse level stack siblings exposed step target acc c).2.diagnostics
      = [])
    (hs : c.stopped = false) (hw : c.work.Sound tc libs) :
    ∃ p : Piece, p.step = step ∧ Adds tc libs below level stack siblings exposed p ∧
      (inlineInvoke tc libs recurse level stack siblings exposed step target acc c).1.out =
        acc.out ++ p.nodes ∧
      (inlineInvoke tc libs recurse level stack siblings exposed step target acc c).1.seam =
        p.addTo acc.seam := by
  unfold inlineInvoke at hd ⊢
  split at hd
  · exact inlinePlugin_spec hinvoke htarget hfields hd hs
  · cases hsource : librarySource libs target with
    | error p =>
      simp only [hsource] at hd
      exact absurd hd push_diagnostics
    | ok source =>
      simp only [hsource] at hd ⊢
      exact inlineLibrary_spec hlead hrec hinvoke htarget hfields hclosed hsource hd hs hw

theorem inlineTarget_spec {recurse : Option Recurse} {below : Option LevelRel}
    (hlead : ∀ r, recurse = some r → r.Leads tc libs)
    (hrec : ∀ r, recurse = some r → ∃ rel, below = some rel ∧ r.Meets tc libs rel) {raw : Text}
    (hinvoke : step.invoke = some raw)
    (hd : (inlineTarget tc libs recurse level stack siblings exposed step raw acc c).2.diagnostics
      = [])
    (hs : c.stopped = false) (hw : c.work.Sound tc libs) :
    ∃ p : Piece, p.step = step ∧ Adds tc libs below level stack siblings exposed p ∧
      (inlineTarget tc libs recurse level stack siblings exposed step raw acc c).1.out =
        acc.out ++ p.nodes ∧
      (inlineTarget tc libs recurse level stack siblings exposed step raw acc c).1.seam =
        p.addTo acc.seam := by
  unfold inlineTarget at hd ⊢
  by_cases hmax : c.expansions + 1 > maxInvokeExpansions
  · simp only [hmax, if_true] at hd
    exact absurd hd (stop_diagnostics hs)
  · simp only [hmax, if_false] at hd ⊢
    cases htarget : parseInvokeTarget raw with
    | error e =>
      simp only [htarget] at hd
      exact absurd hd push_diagnostics
    | ok target =>
      simp only [htarget] at hd ⊢
      set c₁ : Compile := { c with expansions := c.expansions + 1 }.report step.id
        (invokeFieldProblems step)
      set c₂ := if step.gateExpiresAfter.isSome && !target.isPlugin then
          c₁.push step.id .expiresOffPlugin
        else c₁ with hc₂
      have hlead₂ : c₁.Leads tc libs c₂ := by
        rw [hc₂]
        split_ifs
        · exact .push c₁ _ _
        · exact .refl c₁
      have hs₁ : c₁.stopped = false := hs
      have hw₁ : c₁.work.Sound tc libs := hw
      split_ifs at hd ⊢ with hfile
      · exact absurd hd push_diagnostics
      · have hd₂ := (inlineInvoke_leads level stack siblings exposed step acc c₂ hlead target).clean hd
        have hfields := report_diagnostics (hlead₂.clean hd₂)
        refine inlineInvoke_spec hlead hrec hinvoke htarget hfields (fun hinst => ?_) hd
          (hlead₂.running hd₂ hs₁) (hlead₂.sound hw₁)
        simpa [hinst] using hfile

theorem inlineStep_spec {recurse : Option Recurse} {below : Option LevelRel}
    (hlead : ∀ r, recurse = some r → r.Leads tc libs)
    (hrec : ∀ r, recurse = some r → ∃ rel, below = some rel ∧ r.Meets tc libs rel)
    (hd : (inlineStep tc libs recurse level stack siblings exposed step acc c).2.diagnostics = [])
    (hs : c.stopped = false) (hw : c.work.Sound tc libs) :
    ∃ p : Piece, p.step = step ∧ compilerFields p.step = [] ∧
      Adds tc libs below level stack siblings exposed p ∧
      (inlineStep tc libs recurse level stack siblings exposed step acc c).1.out =
        acc.out ++ p.nodes ∧
      (inlineStep tc libs recurse level stack siblings exposed step acc c).1.seam =
        p.addTo acc.seam := by
  unfold inlineStep at hd ⊢
  cases hinvoke : step.invoke with
  | none =>
    simp only [hinvoke] at hd ⊢
    have hlead' : ∀ c₁ : Compile, c₁.Leads tc libs _ :=
      fun c₁ => inlineRunStep_leads level siblings exposed step acc c₁
    have hfields := report_diagnostics ((hlead' _).clean hd)
    obtain ⟨p, hstep, hadds, hout, hseam⟩ := inlineRunStep_spec hinvoke hd hs
    exact ⟨p, hstep, hstep ▸ hfields, hadds, hout, hseam⟩
  | some raw =>
    simp only [hinvoke] at hd ⊢
    have hfields := report_diagnostics
      ((inlineTarget_leads level stack siblings exposed step acc _ hlead raw).clean hd)
    obtain ⟨p, rfl, hadds, hout, hseam⟩ := inlineTarget_spec hlead hrec hinvoke hd hs hw
    exact ⟨p, rfl, hfields, hadds, hout, hseam⟩

theorem inlineSteps_spec {recurse : Option Recurse} {below : Option LevelRel}
    (hlead : ∀ r, recurse = some r → r.Leads tc libs)
    (hrec : ∀ r, recurse = some r → ∃ rel, below = some rel ∧ r.Meets tc libs rel)
    {steps : List StepSpec}
    (hd : (inlineSteps tc libs recurse level stack siblings exposed steps acc c).2.diagnostics = [])
    (hs : c.stopped = false) (hw : c.work.Sound tc libs) :
    ∃ pieces : List Piece, pieces.map (·.step) = steps ∧
      (∀ p ∈ pieces, compilerFields p.step = []) ∧
      (∀ p ∈ pieces, Adds tc libs below level stack siblings exposed p) ∧
      (inlineSteps tc libs recurse level stack siblings exposed steps acc c).1.out =
        acc.out ++ pieces.flatMap (·.nodes) ∧
      (inlineSteps tc libs recurse level stack siblings exposed steps acc c).1.seam =
        pieces.foldl Piece.addTo acc.seam := by
  induction steps generalizing acc c with
  | nil => exact ⟨[], rfl, by simp, by simp, by simp [inlineSteps], rfl⟩
  | cons step rest ih =>
    have hspent : c.Leads tc libs c.spent := .spent c
    have hstep := inlineStep_leads level stack siblings exposed step acc c.spent hlead
    have hrest := fun acc c => inlineSteps_leads level stack siblings exposed acc c hlead rest
    simp only [inlineSteps] at hd ⊢
    cases h₁ : c.spent.stopped with
    | true =>
      simp only [h₁, if_true] at hd
      rw [hspent.running hd hs] at h₁
      cases h₁
    | false =>
    simp only [h₁, Bool.false_eq_true, if_false] at hd ⊢
    split_ifs at hd ⊢ with h₂
    · rw [hstep.running hd h₁] at h₂
      cases h₂
    · have hd₂ := (hrest _ _).clean hd
      obtain ⟨p, rfl, hfields, hadds, hout, hseam⟩ :=
        inlineStep_spec hlead hrec hd₂ h₁ (hspent.sound hw)
      obtain ⟨ps, rfl, hfs, hps, hpout, hpseam⟩ :=
        ih hd (by simpa using h₂) (hstep.sound (hspent.sound hw))
      refine ⟨p :: ps, rfl, ?_, ?_, ?_, ?_⟩
      · simpa using ⟨hfields, hfs⟩
      · simpa using ⟨hadds, hps⟩
      · rw [hpout, hout]
        simp
      · rw [hpseam, hseam]
        rfl

end spec

theorem exposedStep_spec {s : StepSpec} {raw : Text} {w : Work} (hw : w.Sound tc libs)
    {outs : List Text} (h : (exposedStep tc libs s raw w).1 = some outs) :
    s.matrix = none ∧ ∃ target src iface, parseInvokeTarget raw = .ok target ∧
      libs.sourceOf target = some src ∧ tc.parseInterface src = some iface ∧
      outs = iface.outputs.map (·.name) := by
  unfold exposedStep at h
  split_ifs at h with hm
  split at h
  · cases h
  · next target ht =>
    split at h
    · cases h
    · next src hsrc =>
      split_ifs at h
      obtain ⟨iface, hi, ho⟩ := (hw.exposedOf hsrc).2 outs h
      exact ⟨by simpa using hm, target, src, iface, ht, hsrc, hi, ho⟩

theorem exposedOutputs_spec {steps : List StepSpec} {w : Work} (hw : w.Sound tc libs) :
    ExposedSound tc libs steps (exposedOutputs tc libs steps w).1 := by
  induction steps generalizing w with
  | nil =>
    intro name outs h
    cases h
  | cons s ss ih =>
    intro name outs h
    have hlater : ∀ w', w'.Sound tc libs →
        (exposedOutputs tc libs ss w').1.get name = some (some outs) →
        ∃ t ∈ s :: ss, t.id = name ∧ t.matrix = none ∧ ∃ raw target src iface,
          t.invoke = some raw ∧ parseInvokeTarget raw = .ok target ∧
          libs.sourceOf target = some src ∧ tc.parseInterface src = some iface ∧
          outs = iface.outputs.map (·.name) := by
      intro w' hw' h'
      obtain ⟨t, ht, hfacts⟩ := ih hw' h'
      exact ⟨t, List.mem_cons_of_mem _ ht, hfacts⟩
    simp only [exposedOutputs] at h
    cases hinvoke : s.invoke with
    | none =>
      simp only [hinvoke] at h
      exact hlater w hw h
    | some raw =>
      simp only [hinvoke] at h
      split_ifs at h with hplugin hlate
      · exact hlater w hw h
      · exact hlater _ (exposedStep_sound hw) h
      · rw [SortedMap.get_insert] at h
        split_ifs at h with hid
        · obtain ⟨hm, facts⟩ := exposedStep_spec hw (Option.some.inj h)
          exact ⟨s, List.mem_cons_self, hid.symm, hm, raw, by simpa [hinvoke] using facts⟩
        · exact hlater _ (exposedStep_sound hw) h

theorem inlineLevelWith_meets {recurse : Option Recurse} {below : Option LevelRel}
    (hlead : ∀ r, recurse = some r → r.Leads tc libs)
    (hrec : ∀ r, recurse = some r → ∃ rel, below = some rel ∧ r.Meets tc libs rel) :
    (inlineLevelWith tc libs recurse).Meets tc libs (LevelInlines tc libs below) := by
  intro level stack steps c hd hs hw
  simp only [inlineLevelWith] at hd ⊢
  set exposed := (exposedOutputs tc libs steps c.work).1
  set c₁ : Compile := { c with
    work := (exposedOutputs tc libs steps c.work).2
    diagnostics := c.diagnostics ++ (duplicateInvokes [] steps).map fun id => ⟨id, .duplicateId⟩ }
    with hc₁
  have hs₁ : c₁.stopped = false := hs
  have hw₁ : c₁.work.Sound tc libs := exposedOutputs_sound hw
  have hsteps := inlineSteps_leads level stack steps exposed ⟨[], ∅, 0⟩ c₁ hlead steps
  split_ifs at hd ⊢ with hstop
  · rw [hsteps.running hd hs₁] at hstop
    cases hstop
  · have hunique : duplicateInvokes [] steps = [] := by
      simpa [hc₁] using (List.append_eq_nil_iff.mp (hsteps.clean hd)).2
    obtain ⟨pieces, rfl, hfields, hadds, hout, hseam⟩ := inlineSteps_spec hlead hrec hd hs₁ hw₁
    rw [hout, hseam]
    simpa [seamOf] using LevelInlines.mk (exposedOutputs_spec hw) hunique hfields hadds

theorem inlineLevel_meets (room : ℕ) :
    (inlineLevel tc libs room).Meets tc libs (Inlines tc libs room) := by
  induction room with
  | zero =>
    refine inlineLevelWith_meets (fun r h => ?_) (fun r h => ?_)
    · cases h
    · cases h
  | succ room ih =>
    refine inlineLevelWith_meets (fun r h => ?_) (fun r h => ?_)
    · obtain rfl := Option.some.inj h
      exact inlineLevel_leads room
    · obtain rfl := Option.some.inj h
      exact ⟨_, rfl, ih⟩

/-- The level of the pipeline file. -/
def topLevel : Level := ⟨Scope.run, none, []⟩

theorem inlineInvokes_inlines {steps : List StepSpec}
    (hd : (inlineInvokes tc libs steps).2.diagnostics = []) :
    Inlines tc libs maxInvokeDepth topLevel [] steps (inlineInvokes tc libs steps).1 := by
  refine inlineLevel_meets maxInvokeDepth _ _ _ _ hd rfl ⟨?_, ?_⟩
  · intro target src ir hash h
    cases h
  · intro target src outs h
    cases h

/-- What each instance of a step adds to its id. -/
def suffixes (tc : Toolchain) : Option Matrix → List Text
  | none => [[]]
  | some matrix =>
      match keptCombinations tc.toHost matrix.exclude (combinations matrix.dimensions.entries) with
      | .error _ => []
      | .ok kept => kept.map combinationSuffix

theorem instancesOf_ids {step : StepSpec} {invs : List StepSpec}
    (h : instancesOf tc step = .ok invs) :
    invs.map (·.id) = (suffixes tc step.matrix).map (step.id ++ ·) := by
  unfold instancesOf at h
  cases hm : step.matrix with
  | none =>
    simp only [hm] at h
    obtain rfl := Except.ok.inj h
    simp [suffixes]
  | some matrix =>
    simp only [hm, matrixInstances] at h
    split at h
    · cases h
    · next kept hkept =>
      split_ifs at h
      obtain rfl := Except.ok.inj h
      simp [suffixes, hkept, instanceOf]

/-- An instance is its step, apart from the id and what a coordinate sets. -/
structure InstanceOf (step inst : StepSpec) : Prop where
  matrix : inst.matrix = none
  needs : inst.needs = step.needs
  inputs : inst.inputs = step.inputs
  origin : inst.origin = step.origin
  guards : inst.guards = step.guards
  when_ : inst.when_ = step.when_
  pluginGate : inst.pluginGate = step.pluginGate
  environmentApprovalGate : inst.environmentApprovalGate = step.environmentApprovalGate

theorem instancesOf_spec {step inst : StepSpec} {invs : List StepSpec}
    (h : instancesOf tc step = .ok invs) (hinst : inst ∈ invs) : InstanceOf step inst := by
  unfold instancesOf at h
  cases hm : step.matrix with
  | none =>
    simp only [hm] at h
    obtain rfl := Except.ok.inj h
    obtain rfl := List.mem_singleton.mp hinst
    exact ⟨hm, rfl, rfl, rfl, rfl, rfl, rfl, rfl⟩
  | some matrix =>
    simp only [hm, matrixInstances] at h
    split at h
    · cases h
    · split_ifs at h
      obtain rfl := Except.ok.inj h
      obtain ⟨c, -, rfl⟩ := List.mem_map.mp hinst
      exact ⟨rfl, rfl, rfl, rfl, rfl, rfl, rfl, rfl⟩

/-- The instances of a step whose matrix can be expanded. -/
def instances (tc : Toolchain) (step : StepSpec) : List StepSpec :=
  ((instancesOf tc step).toOption).getD []

def instanceIds (tc : Toolchain) (steps : List StepSpec) : Instances :=
  steps.foldl (fun ids s => ids.insert s.id ((instances tc s).map (·.id))) ∅

theorem expandSteps_spec {steps : List StepSpec} {e : Expansion}
    (hd : (expandSteps tc steps e).diagnostics = []) :
    e.diagnostics = [] ∧ (∀ s ∈ steps, instancesOf tc s = .ok (instances tc s)) ∧
      (expandSteps tc steps e).steps = e.steps ++ steps.flatMap (instances tc) ∧
      (expandSteps tc steps e).ids =
        steps.foldl (fun ids s => ids.insert s.id ((instances tc s).map (·.id))) e.ids := by
  induction steps generalizing e with
  | nil => simpa [expandSteps] using hd
  | cons s ss ih =>
    simp only [expandSteps] at hd ⊢
    split at hd
    · next p matrix hs =>
      have := (ih hd).1
      simp at this
    · next concrete matrix hs =>
      have hinst := expandStep_instancesOf hs
      have hget : instances tc s = concrete := by simp [instances, hinst, Except.toOption]
      split_ifs at hd ⊢
      · simp at hd
      · simp at hd
      · obtain ⟨hde, hok, hsteps, hids⟩ := ih hd
        refine ⟨hde, ?_, ?_, ?_⟩
        · simpa [hget, hinst] using hok
        · rw [hsteps]
          simp [hget]
        · rw [hids]
          simp [hget]

/-- What a compile that goes through did. -/
structure Compiles (tc : Toolchain) (libs : Libraries) (authored : PipelineIr)
    (inlined : List StepSpec) (ir : PipelineIr) : Prop where
  inlines : Inlines tc libs maxInvokeDepth topLevel [] authored.steps inlined
  expands : ∀ s ∈ inlined, instancesOf tc s = .ok (instances tc s)
  steps : ir.steps = (inlined.flatMap (instances tc)).map (fanStep (instanceIds tc inlined))
  valid : validateSteps tc.toHost ir.steps = []
  acyclic : findCycle ir.steps = none

theorem compileLibs_spec {yaml : Text} {ir : PipelineIr} (h : compileLibs tc libs yaml = .ok ir) :
    ∃ authored inlined, tc.parseYaml yaml = .ok authored ∧ authored.isLibrary = false ∧
      Compiles tc libs authored inlined ir := by
  unfold compileLibs at h
  split_ifs at h
  split at h
  · cases h
  · next authored hparse =>
    split_ifs at h with hlib
    simp only at h
    split_ifs at h with hdiag hexp hlen hval
    split at h
    · cases h
    · next hcycle =>
      obtain rfl := Except.ok.inj h
      have hdiag : (inlineInvokes tc libs authored.steps).2.diagnostics = [] := by simpa using hdiag
      have hexp := expandSteps_spec (by simpa using hexp)
      obtain ⟨-, hok, hsteps, hids⟩ := hexp
      refine ⟨authored, _, hparse, by simpa using hlib, inlineInvokes_inlines hdiag, hok, ?_,
        by simpa using hval, hcycle⟩
      simp only [compiledIr, hsteps, hids]
      rfl

theorem duplicateIds_nodup {steps : List StepSpec} {seen : List Text}
    (h : duplicateIds seen steps = []) :
    (steps.map (·.id)).Nodup ∧ ∀ s ∈ steps, s.id ∉ seen := by
  induction steps generalizing seen with
  | nil => simp
  | cons s ss ih =>
    simp only [duplicateIds, List.append_eq_nil_iff] at h
    obtain ⟨hs, hss⟩ := h
    obtain ⟨hnodup, hseen⟩ := ih hss
    have hs : s.id ∉ seen := by
      intro hmem
      simp [hmem] at hs
    refine ⟨?_, ?_⟩
    · rw [List.map_cons, List.nodup_cons]
      refine ⟨fun hmem => ?_, hnodup⟩
      obtain ⟨t, ht, hid⟩ := List.mem_map.mp hmem
      exact hseen t ht (by simp [hid])
    · intro t ht
      rcases List.mem_cons.mp ht with rfl | ht
      · exact hs
      · exact fun hmem => hseen t ht (List.mem_cons_of_mem _ hmem)

theorem Compiles.nodup {authored ir : PipelineIr} {inlined : List StepSpec}
    (h : Compiles tc libs authored inlined ir) : (ir.steps.map (·.id)).Nodup :=
  (duplicateIds_nodup (List.append_eq_nil_iff.mp h.valid).1).1

/-- A toolchain that knows the files of a table, each with what it reads as and its hash. -/
def tableToolchain (exprs : List (Text × Expr)) (files : List (Text × PipelineIr × Text)) :
    Toolchain :=
  { pathHost exprs with
    parseYaml := fun src => match files.find? (·.1 = src) with
      | some f => .ok f.2.1
      | none => .error "not a mapping".toList
    parseInterface := fun src => (files.find? (·.1 = src)).map (·.2.1.interface)
    sha256Hex := fun src => ((files.find? (·.1 = src)).map (·.2.2)).getD []
    jsonLen := fun _ => 256
    irLen := fun ir => 64 + 256 * ir.steps.length }

end Scarab.Pipeline
