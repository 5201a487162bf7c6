import Scarab.InvokeCaps

/-!
# When a compile is refused for a cap

What inlining comes to is followed through the levels, one lemma for each function, and then
through the matrices and the checks of the compiled pipeline.
-/
namespace Scarab.Pipeline

variable {tc : Toolchain} {libs : Libraries}

/-- The nodes a step added fill its part of the unfolding. -/
def Added (tc : Toolchain) (acc acc' : LevelAcc) (ids : List Text) : Prop :=
  ∃ nodes, acc'.out = acc.out ++ nodes ∧ Fills tc nodes ids

section parts

variable {passed : Prop} {level : Level} {stack : List Frame} {siblings : List StepSpec}
  {exposed : Exposed} {step : StepSpec} {acc : LevelAcc} {c : Compile}

theorem pushNodes_added (h : Running c) (at_ : Text) {nodes : List StepSpec} {ids : List Text}
    (hfills : Fills tc nodes ids) (hpass : maxCompiledSteps < acc.out.length + ids.length → passed) :
    Tally passed (Added tc acc (pushNodes tc at_ nodes acc c).1 ids) 0 c
      (pushNodes tc at_ nodes acc c).2 := by
  have hle := hfills.length_le
  refine (pushNodes_tally h at_ fun hlen => hpass (by omega)).mono fun hout => ?_
  exact ⟨nodes, hout, hfills⟩

theorem inlineRunStep_tally (h : Running c) (hkept : suffixes tc step.matrix ≠ [])
    (hpass : maxCompiledSteps < acc.out.length + (compiledIds tc step).length → passed) :
    Tally passed (Added tc acc (inlineRunStep tc level siblings exposed step acc c).1
      (compiledIds tc step)) 0 c (inlineRunStep tc level siblings exposed step acc c).2 := by
  have hwith : Tally passed True 0 c
      (if step.with_.entries.isEmpty then c else c.push step.id .withOffInvoke) := by
    split_ifs
    · exact .nothing h rfl trivial
    · exact .push rfl _
  obtain ⟨hid, -, hmatrix⟩ := ownStep_fields tc.toHost level siblings exposed step
  unfold ownStep at hid hmatrix
  unfold inlineRunStep
  cases hlib : level.library with
  | none =>
    simp only [hlib] at hid hmatrix ⊢
    refine hwith.next (pushNodes_grows _ _ List.prefix_rfl) fun hrun _ => ?_
    exact pushNodes_added hrun _ (.own hkept hid hmatrix) hpass
  | some lib =>
    simp only [hlib] at hid hmatrix ⊢
    refine hwith.next (pushNodes_grows _ _ (report_grows _ _)) fun hrun _ => ?_
    refine (Tally.report hrun step.id libraryStepScope_other).next (pushNodes_grows _ _ List.prefix_rfl)
      fun hrun' _ => ?_
    exact pushNodes_added hrun' _ (.own hkept hid hmatrix) hpass

theorem pluginGateNodes_tally (h : Running c) (target : Text) (def_ : PluginGateDef)
    (hpass : maxCompiledSteps < (suffixes tc step.matrix).length → passed) :
    Tally passed
      (Fills tc (pluginGateNodes tc step target def_ level siblings exposed c).1 (compiledIds tc step))
      0 c (pluginGateNodes tc step target def_ level siblings exposed c).2 := by
  have hproblems : ∀ clean : Bool, AllOther (validateParamSpecs tc.toHost [] def_.interface.inputs ++
      checkWith tc.toHost step def_.interface.inputs ++
      (bindWith tc.toHost step def_.interface.inputs level siblings exposed clean).problems ++
      pluginReadProblems tc.toHost step ++ guardProblems tc.toHost level step) := by
    intro clean
    simp only [allOther_append]
    exact ⟨⟨⟨⟨validateParamSpecs_other _ _, checkWith_other _⟩, bindWith_other _ _⟩,
      pluginReadProblems_other⟩, guardProblems_other⟩
  simp only [pluginGateNodes]
  refine (Tally.report h step.id (pluginFieldProblems_other step)).next ?_ fun hrun _ => ?_
  · split
    · exact (report_grows _ _).trans (report_grows _ _)
    · exact report_grows _ _
  refine (Tally.report hrun step.id (hproblems (validateParamSpecs tc.toHost []
    def_.interface.inputs ++ checkWith tc.toHost step def_.interface.inputs).isEmpty)).next ?_
    fun hrun' _ => ?_
  · split
    · exact report_grows _ _
    · exact List.prefix_rfl
  split
  · next p hp =>
    refine .push_matrix step.id ?_
    rcases expandStep_error (Prod.ext hp rfl) with hother | ⟨hsteps, hlen⟩
    · exact .inl hother
    · exact .inr ⟨hsteps, hpass hlen⟩
  · next invs hinvs =>
    have hinsts : instancesOf tc step = .ok invs := expandStep_instancesOf (Prod.ext hinvs rfl)
    exact .nothing ⟨hrun'.clean, hrun'.going, hrun'.within⟩ rfl
      (.gates hinsts (fun _ => rfl) (fun _ => rfl))

theorem inlinePlugin_tally (h : Running c) (name : Text)
    (hpass : maxCompiledSteps < acc.out.length + (compiledIds tc step).length → passed) :
    Tally passed
      (Added tc acc (inlinePlugin tc libs level siblings exposed step name acc c).1
        (compiledIds tc step))
      0 c (inlinePlugin tc libs level siblings exposed step name acc c).2 := by
  simp only [inlinePlugin]
  split
  · exact .push rfl _
  · next def_ hdef =>
    refine (pluginGateNodes_tally h name def_ fun hlen => hpass ?_).next (pushNodes_grows _ _ List.prefix_rfl)
      fun hrun hfills => ?_
    · rw [compiledIds_length]
      omega
    · split_ifs
      · exact pushNodes_added hrun _ hfills hpass
      · exact pushNodes_added hrun _ hfills hpass

/-- What a level below comes to, under `under` libraries. -/
def Recurse.Tallies (tc : Toolchain) (libs : Libraries) (under : ℕ) (recurse : Recurse) : Prop :=
  ∀ (passed : Prop) (level : Level) (stack : List Frame) (steps : List StepSpec) (u : Unfolding)
    (c : Compile), Unfolds tc libs under steps u → Running c → c.work.Sound tc libs →
    (maxCompiledSteps < u.nodes.length → passed) →
    (maxInvokeExpansions < c.expansions + u.invokes → passed) →
    Tally passed (Fills tc (recurse level stack steps c).1 u.nodes) u.invokes c
      (recurse level stack steps c).2

theorem copyLibrary_grows (link : OriginEntry) (lib : PipelineIr) (withNeeds : List Text)
    (resolved : List StepSpec) :
    c.diagnostics <+: (copyLibrary tc step link lib withNeeds resolved acc c).2.diagnostics := by
  have hlead : c.Leads tc ⟨∅, ∅, ∅⟩ (copyLibrary tc step link lib withNeeds resolved acc c).2 :=
    copyLibrary_leads _ _ _ _ _ _ _
  exact hlead.grows

theorem copyLibrary_tally (h : Running c) (link : OriginEntry) (lib : PipelineIr)
    (withNeeds : List Text) {resolved : List StepSpec} {ids : List Text}
    (hfills : Fills tc resolved ids) (hids : ids ≠ [])
    (hpass : maxCompiledSteps < acc.out.length + (copiesOf tc step ids).length → passed) :
    Tally passed
      (Added tc acc (copyLibrary tc step link lib withNeeds resolved acc c).1 (copiesOf tc step ids))
      0 c (copyLibrary tc step link lib withNeeds resolved acc c).2 := by
  simp only [copyLibrary, h.going, Bool.false_eq_true, if_false]
  refine (Tally.report h step.id (onlyGatesProblems_other step resolved)).next ?_ fun hrun _ => ?_
  · split
    · exact report_grows _ _
    · split_ifs
      · exact pushNodes_grows _ _ List.prefix_rfl
      · exact pushNodes_grows _ _ List.prefix_rfl
  split
  · next p matrix hp =>
    refine .push_matrix step.id ?_
    rcases expandStep_error hp with hother | ⟨hsteps, hlen⟩
    · exact .inl hother
    · refine .inr ⟨hsteps, hpass ?_⟩
      have hpos : 0 < ids.length := List.length_pos_iff.mpr hids
      have hcopies := Nat.le_mul_of_pos_right (suffixes tc step.matrix).length hpos
      rw [copiesOf_length]
      omega
  · next invs matrix hinvs =>
    have hrun' : Running { c.report step.id (onlyGatesProblems step resolved) with
        work := { (c.report step.id (onlyGatesProblems step resolved)).work with
          matrix := matrix } } := ⟨hrun.clean, hrun.going, hrun.within⟩
    have hpushed := pushNodes_added hrun' step.id
      (hfills.copies (expandStep_instancesOf hinvs) link (step.deploy || lib.deploy)
        (resolved.map (·.id)) withNeeds) hpass
    split_ifs
    · exact ⟨hpushed.clean, hpushed.refused⟩
    · exact ⟨hpushed.clean, hpushed.refused⟩

theorem inlineParsed_tally (h : Running c) (hw : c.work.Sound tc libs) {under : ℕ}
    {recurse : Recurse} (hlead : recurse.Leads tc libs)
    (hrec : recurse.Tallies tc libs (under + 1)) (source : LibrarySource) (written hash : Text)
    {lib : PipelineIr} (hsteps : lib.steps ≠ []) {inner : Unfolding}
    (hinner : Unfolds tc libs (under + 1) lib.steps inner)
    (hkept : suffixes tc step.matrix ≠ [])
    (hpass : maxCompiledSteps < acc.out.length + (copiesOf tc step inner.nodes).length → passed)
    (hexpand : maxInvokeExpansions < c.expansions + inner.invokes → passed) :
    Tally passed
      (Added tc acc
        (inlineParsed tc level stack siblings exposed recurse step source written lib hash acc c).1
        (copiesOf tc step inner.nodes))
      inner.invokes c
      (inlineParsed tc level stack siblings exposed recurse step source written lib hash acc c).2 := by
  have hproblems : AllOther (invokeProblems tc.toHost level siblings exposed step lib) := by
    simp only [invokeProblems, allOther_append]
    exact ⟨⟨validateInterface_other lib, bindWith_other _ _⟩, guardProblems_other⟩
  have hcopies := le_copiesOf_length hkept inner.nodes
  refine (Tally.report h step.id hproblems).next
    (inlineParsed_leads_report level stack siblings exposed step acc c hlead source written lib
      hash).grows fun hrun _ => ?_
  simp only [inlineParsed]
  refine (hrec passed _ _ lib.steps inner _ hinner hrun hw (fun hlen => hpass (by omega))
    hexpand).andThen (copyLibrary_grows _ _ _ _) (fun hrun' hfills => ?_) (Nat.add_zero _)
  exact copyLibrary_tally hrun' _ lib _ hfills (hinner.nodes_ne_nil hsteps) hpass

theorem inlineLibrary_tally (h : Running c) (hw : c.work.Sound tc libs) {under : ℕ}
    {recurse : Option Recurse} (hlead : ∀ r, recurse = some r → r.Leads tc libs)
    (hrec : ∀ r, recurse = some r → r.Tallies tc libs (under + 1)) {target : InvokeTarget}
    {source : LibrarySource} (hsource : librarySource libs target = .ok source)
    {lib : PipelineIr} (hparse : tc.parseYaml source.src = .ok lib) (hsteps : lib.steps ≠ [])
    {inner : Unfolding} (hinner : Unfolds tc libs (under + 1) lib.steps inner)
    (hkept : suffixes tc step.matrix ≠ [])
    (hpass : maxCompiledSteps < acc.out.length + (copiesOf tc step inner.nodes).length → passed)
    (hexpand : maxInvokeExpansions < c.expansions + inner.invokes → passed) :
    Tally passed
      (Added tc acc
        (inlineLibrary tc recurse level stack siblings exposed step target source acc c).1
        (copiesOf tc step inner.nodes))
      inner.invokes c
      (inlineLibrary tc recurse level stack siblings exposed step target source acc c).2 := by
  have hsrc := librarySource_src hsource
  have hsound : (c.work.parse tc target.written source.src).2.Sound tc libs := hw.parse hsrc
  have hknown : ∀ ir hash, (c.work.parse tc target.written source.src).1 = .library ir hash →
      tc.parseYaml source.src = .ok ir := fun _ _ hp => (hw.parse_library hsrc hp).1
  unfold inlineLibrary
  cases recurse with
  | none =>
    dsimp only
    split_ifs
    · exact .push rfl _
    · exact .push rfl _
  | some r =>
    dsimp only
    split_ifs
    · exact .push rfl _
    · exact .push rfl _
    · split
      · exact .push rfl _
      · exact .push rfl _
      · next lib' hash work hp =>
        rw [hp] at hsound
        have hlib := hknown lib' hash (by rw [hp])
        obtain rfl : lib' = lib := Except.ok.inj (hlib.symm.trans hparse)
        have hrun : Running { c with work := work } := ⟨h.clean, h.going, h.within⟩
        split_ifs with hkind hempty
        · exact .push rfl _
        · exact absurd (List.isEmpty_iff.mp hempty) hsteps
        · have hparsed := fun c' => inlineParsed_leads level stack siblings exposed step acc c'
            (hlead r rfl) source target.written lib' hash
          have hreport : Tally passed _ 0 { c with work := work } _ :=
            .report hrun step.id (libraryFieldProblems_other lib')
          have hall := hreport.next (hparsed _).grows fun hrun' _ =>
            inlineParsed_tally hrun' hsound (hlead r rfl) (hrec r rfl) source target.written hash
              hsteps hinner hkept hpass hexpand
          exact ⟨hall.clean, hall.refused⟩

/-- Every invoke step counts once, and then comes to what its target does. -/
theorem inlineTarget_tally (h : Running c) {recurse : Option Recurse}
    (hlead : ∀ r, recurse = some r → r.Leads tc libs) {raw : Text} {target : InvokeTarget}
    (htarget : parseInvokeTarget raw = .ok target) {ids : List Text} {more : ℕ}
    (hexpand : maxInvokeExpansions < c.expansions + (1 + more) → passed)
    (hrest : ∀ c', Running c' → c'.work = c.work → c'.expansions = c.expansions + 1 →
      Tally passed
        (Added tc acc
          (inlineInvoke tc libs recurse level stack siblings exposed step target acc c').1 ids)
        more c' (inlineInvoke tc libs recurse level stack siblings exposed step target acc c').2) :
    Tally passed
      (Added tc acc (inlineTarget tc libs recurse level stack siblings exposed step raw acc c).1 ids)
      (1 + more) c (inlineTarget tc libs recurse level stack siblings exposed step raw acc c).2 := by
  unfold inlineTarget
  by_cases hmax : c.expansions + 1 > maxInvokeExpansions
  · simp only [hmax, if_true]
    have hgoing : ({ c with expansions := c.expansions + 1 } : Compile).stopped = false := h.going
    exact .stop_cap hgoing rfl (hexpand (by omega)) _
  · simp only [hmax, if_false, htarget]
    have hwithin : c.expansions + 1 ≤ maxInvokeExpansions := Nat.le_of_not_lt hmax
    have hrun : Running { c with expansions := c.expansions + 1 } := ⟨h.clean, h.going, hwithin⟩
    have hcount : Tally passed True 1 c { c with expansions := c.expansions + 1 } :=
      ⟨fun _ => ⟨hrun, rfl, trivial⟩, fun hd => absurd h.clean hd⟩
    have hfields : Tally passed _ 0 _ _ := .report hrun step.id (invokeFieldProblems_other step)
    have htail : ∀ c' : Compile, c'.diagnostics <+:
        (if (stack.head?.any (·.installed)) && target.isFile then
            (acc, c'.push step.id .fileInInstalled)
          else inlineInvoke tc libs recurse level stack siblings exposed step target acc
            c').2.diagnostics := by
      intro c'
      split_ifs
      · exact report_grows _ _
      · exact (inlineInvoke_leads level stack siblings exposed step acc c' hlead target).grows
    refine hcount.andThen ?_ (fun _ _ => hfields.next ?_ fun hrun' _ => ?_) rfl
    · refine List.IsPrefix.trans ?_ (htail _)
      split_ifs
      · exact (report_grows _ _).trans (report_grows _ _)
      · exact report_grows _ _
    · refine List.IsPrefix.trans ?_ (htail _)
      split_ifs
      · exact report_grows _ _
      · exact List.prefix_rfl
    · by_cases hexpires : (step.gateExpiresAfter.isSome && !target.isPlugin) = true
      · simp only [hexpires, if_true]
        refine .of_other (d := ⟨step.id, .expiresOffPlugin⟩) ((htail _).mem ?_) rfl
        simp [Compile.push, Compile.report]
      · simp only [hexpires, Bool.false_eq_true, if_false]
        split_ifs
        · exact .push rfl _
        · exact hrest _ hrun' rfl rfl

/-- What a level does with one of its steps. -/
theorem inlineStep_tally (h : Running c) (hw : c.work.Sound tc libs) {under : ℕ}
    {recurse : Option Recurse} (hlead : ∀ r, recurse = some r → r.Leads tc libs)
    (hrec : ∀ r, recurse = some r → r.Tallies tc libs (under + 1)) {u : Unfolding}
    (hu : Unfolds tc libs under [step] u)
    (hpass : maxCompiledSteps < acc.out.length + u.nodes.length → passed)
    (hexpand : maxInvokeExpansions < c.expansions + u.invokes → passed) :
    Tally passed
      (Added tc acc (inlineStep tc libs recurse level stack siblings exposed step acc c).1 u.nodes)
      u.invokes c (inlineStep tc libs recurse level stack siblings exposed step acc c).2 := by
  have hfields : Tally passed _ 0 c _ := .report h step.id (compilerFields_other step)
  cases hu with
  | run hinvoke hkept hrest =>
    cases hrest
    simp only [inlineStep, hinvoke, List.append_nil] at hpass ⊢
    have hleads : ∀ c' : Compile,
        c'.Leads tc libs (inlineRunStep tc level siblings exposed step acc c').2 :=
      inlineRunStep_leads level siblings exposed step acc
    refine hfields.next (hleads _).grows fun hrun _ => ?_
    exact inlineRunStep_tally hrun hkept hpass
  | gate hinvoke htarget hkept hrest =>
    cases hrest
    simp only [inlineStep, hinvoke, List.append_nil] at hpass ⊢
    refine hfields.next
      (inlineTarget_leads level stack siblings exposed step acc _ hlead _).grows fun hrun _ => ?_
    refine inlineTarget_tally hrun hlead htarget hexpand fun c' hrun' _ _ => ?_
    exact inlinePlugin_tally hrun' _ hpass
  | @library _ _ _ _ inner _ target _ _ hinvoke htarget hsource hparse hsteps _ hkept hinner hrest =>
    cases hrest
    simp only [inlineStep, hinvoke, List.append_nil, Nat.add_zero] at hpass hexpand ⊢
    rw [Nat.add_comm inner.invokes 1] at hexpand ⊢
    refine hfields.next
      (inlineTarget_leads level stack siblings exposed step acc _ hlead _).grows fun hrun _ => ?_
    refine inlineTarget_tally hrun hlead htarget hexpand fun c' hrun' hwork hcount => ?_
    have hw' : c'.work.Sound tc libs := by
      rw [hwork]
      exact hw
    have hmore : maxInvokeExpansions < c'.expansions + inner.invokes → passed := by
      intro hlt
      rw [hcount, Nat.add_assoc] at hlt
      exact hexpand hlt
    cases target with
    | plugin name => cases hsource
    | file path =>
      simp only [inlineInvoke, hsource]
      exact inlineLibrary_tally hrun' hw' hlead hrec hsource hparse hsteps hinner hkept hpass hmore
    | lib name =>
      simp only [inlineInvoke, hsource]
      exact inlineLibrary_tally hrun' hw' hlead hrec hsource hparse hsteps hinner hkept hpass hmore

theorem inlineSteps_tally (h : Running c) (hw : c.work.Sound tc libs) {under : ℕ}
    {recurse : Option Recurse} (hlead : ∀ r, recurse = some r → r.Leads tc libs)
    (hrec : ∀ r, recurse = some r → r.Tallies tc libs (under + 1)) {steps : List StepSpec}
    {u : Unfolding} (hu : Unfolds tc libs under steps u)
    (hpass : maxCompiledSteps < acc.out.length + u.nodes.length → passed)
    (hexpand : maxInvokeExpansions < c.expansions + u.invokes → passed) :
    Tally passed
      (Added tc acc (inlineSteps tc libs recurse level stack siblings exposed steps acc c).1 u.nodes)
      u.invokes c (inlineSteps tc libs recurse level stack siblings exposed steps acc c).2 := by
  induction steps generalizing acc c u with
  | nil =>
    cases hu
    exact .nothing h rfl ⟨[], by simp [inlineSteps], rfl, by simp⟩
  | cons step rest ih =>
    obtain ⟨first, others, hfirst, hothers, hnodes, hinvokes⟩ := hu.cons
    rw [hnodes, List.length_append] at hpass
    rw [hinvokes] at hexpand
    have hspent : c.spent = c := by
      simp [Compile.spent, h.clean, maxInlineDiagnostics]
    have hleads := inlineStep_leads level stack siblings exposed step acc c hlead
    have hstep : Tally passed
        (Added tc acc (inlineStep tc libs recurse level stack siblings exposed step acc c).1
          first.nodes)
        first.invokes c (inlineStep tc libs recurse level stack siblings exposed step acc c).2 :=
      inlineStep_tally h hw hlead hrec hfirst (fun hlen => hpass (by omega))
        (fun hlen => hexpand (by omega))
    simp only [inlineSteps, hspent, h.going, Bool.false_eq_true, if_false]
    split_ifs with hstop
    · refine ⟨fun hd => ?_, hstep.refused⟩
      have hgoing := (hstep.clean hd).1.going
      rw [hstop] at hgoing
      cases hgoing
    · refine hstep.andThen (inlineSteps_leads level stack siblings exposed _ _ hlead rest).grows
        (fun hrun hadded => ?_) hinvokes.symm
      obtain ⟨nodes, hout, hfills⟩ := hadded
      have hle := hfills.length_le
      have hcount := (hstep.clean hrun.clean).2.1
      refine (ih hrun (hleads.sound hw) hothers (fun hlen => hpass ?_)
        fun hlen => hexpand (by omega)).mono fun hadded' => ?_
      · rw [hout, List.length_append] at hlen
        omega
      · obtain ⟨nodes', hout', hfills'⟩ := hadded'
        refine ⟨nodes ++ nodes', ?_, ?_⟩
        · rw [hout', hout, List.append_assoc]
        · rw [hnodes]
          exact hfills.append hfills'

end parts

theorem inlineLevelWith_tally {under : ℕ} {recurse : Option Recurse}
    (hlead : ∀ r, recurse = some r → r.Leads tc libs)
    (hrec : ∀ r, recurse = some r → r.Tallies tc libs (under + 1)) :
    (inlineLevelWith tc libs recurse).Tallies tc libs under := by
  intro passed level stack steps u c hu h hw hpass hexpand
  have hsound : (exposedOutputs tc libs steps c.work).2.Sound tc libs := exposedOutputs_sound hw
  simp only [inlineLevelWith]
  set exposed := (exposedOutputs tc libs steps c.work).1
  set c₁ : Compile := { c with
    work := (exposedOutputs tc libs steps c.work).2
    diagnostics := c.diagnostics ++ (duplicateInvokes [] steps).map fun id => ⟨id, .duplicateId⟩ }
    with hc₁
  cases hdup : duplicateInvokes [] steps with
  | nil =>
    have hrun : Running c₁ := ⟨by simp [hc₁, hdup, h.clean], h.going, h.within⟩
    have hsteps : Tally passed
        (Added tc ⟨[], ∅, 0⟩
          (inlineSteps tc libs recurse level stack steps exposed steps ⟨[], ∅, 0⟩ c₁).1 u.nodes)
        u.invokes c₁
        (inlineSteps tc libs recurse level stack steps exposed steps ⟨[], ∅, 0⟩ c₁).2 :=
      inlineSteps_tally hrun hsound hlead hrec hu (by simpa using hpass) hexpand
    split_ifs with hstop
    · refine ⟨fun hd => ?_, hsteps.refused⟩
      have hgoing := (hsteps.clean hd).1.going
      rw [hstop] at hgoing
      cases hgoing
    · refine ⟨fun hd => ?_, hsteps.refused⟩
      obtain ⟨hrun', hcount, nodes, hout, hfills⟩ := hsteps.clean hd
      refine ⟨hrun', hcount, ?_⟩
      rw [hout, List.nil_append]
      exact hfills.seam _
  | cons id ids =>
    refine .of_other (d := ⟨id, .duplicateId⟩) ?_ rfl
    have hgrows := (inlineSteps_leads level stack steps exposed ⟨[], ∅, 0⟩ c₁ hlead steps).grows
    have hmem : ⟨id, .duplicateId⟩ ∈ c₁.diagnostics := by simp [hc₁, hdup]
    split_ifs
    · exact hgrows.mem hmem
    · exact hgrows.mem hmem

theorem inlineLevel_tallies (room under : ℕ) : (inlineLevel tc libs room).Tallies tc libs under := by
  induction room generalizing under with
  | zero =>
    refine inlineLevelWith_tally (fun r h => ?_) fun r h => ?_
    · cases h
    · cases h
  | succ room ih =>
    refine inlineLevelWith_tally (fun r h => ?_) fun r h => ?_
    · obtain rfl := Option.some.inj h
      exact inlineLevel_leads room
    · obtain rfl := Option.some.inj h
      exact ih _

end Scarab.Pipeline
