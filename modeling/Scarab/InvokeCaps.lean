import Scarab.InvokeUnfolding

/-!
# The step cap and the expansion cap

An inlining that meets no diagnostic makes exactly the nodes of the file's unfolding and counts
exactly its invoke steps; one that meets only the two caps has passed one of them.
-/
namespace Scarab.Pipeline

/-- A problem of the step cap or of the expansion cap. -/
def Problem.isCap : Problem → Bool
  | .tooManySteps => true
  | .tooManyExpansions => true
  | .matrix .tooManySteps => true
  | _ => false

/-- Any other problem; that too many were found is no problem of its own. -/
def Problem.isOther : Problem → Bool
  | .tooManySteps => false
  | .tooManyExpansions => false
  | .matrix .tooManySteps => false
  | .tooManyProblems => false
  | _ => true

def AllOther (ps : List Problem) : Prop := ∀ p ∈ ps, p.isOther = true

section kinds

variable {host : Host} {level : Level} {step : StepSpec} {siblings : List StepSpec}
  {exposed : Exposed}

@[simp] theorem allOther_nil : AllOther [] := by simp [AllOther]

@[simp] theorem allOther_append {ps qs : List Problem} :
    AllOther (ps ++ qs) ↔ AllOther ps ∧ AllOther qs := by
  simp only [AllOther, List.mem_append, or_imp, forall_and]

@[simp] theorem allOther_cons {p : Problem} {ps : List Problem} :
    AllOther (p :: ps) ↔ p.isOther = true ∧ AllOther ps := by
  simp [AllOther]

theorem allOther_map {α : Type} {f : α → Problem} (h : ∀ a, (f a).isOther = true) (as : List α) :
    AllOther (as.map f) := by
  simp [AllOther, h]

theorem allOther_flatMap {α : Type} {f : α → List Problem} (h : ∀ a, AllOther (f a))
    (as : List α) : AllOther (as.flatMap f) := by
  intro p hp
  obtain ⟨a, -, hp⟩ := List.mem_flatMap.mp hp
  exact h a p hp

theorem allOther_filterMap {α : Type} {f : α → Option Problem}
    (h : ∀ a p, f a = some p → p.isOther = true) (as : List α) : AllOther (as.filterMap f) := by
  intro p hp
  obtain ⟨a, -, hp⟩ := List.mem_filterMap.mp hp
  exact h a p hp

theorem compilerFields_other (step : StepSpec) : AllOther (compilerFields step) := by
  unfold compilerFields
  repeat' rw [allOther_append]
  refine ⟨⟨⟨⟨?_, ?_⟩, ?_⟩, ?_⟩, ?_⟩ <;> split_ifs <;> simp [Problem.isOther]

theorem invokeFieldProblems_other (step : StepSpec) : AllOther (invokeFieldProblems step) := by
  unfold invokeFieldProblems
  rw [allOther_append]
  refine ⟨allOther_map (fun _ => rfl) _, ?_⟩
  split_ifs <;> simp [Problem.isOther]

theorem libraryFieldProblems_other (lib : PipelineIr) : AllOther (libraryFieldProblems lib) :=
  allOther_map (fun _ => rfl) _

theorem onlyGatesProblems_other (step : StepSpec) (resolved : List StepSpec) :
    AllOther (onlyGatesProblems step resolved) := by
  unfold onlyGatesProblems
  split_ifs <;> simp [Problem.isOther]

theorem pluginFieldProblems_other (step : StepSpec) : AllOther (pluginFieldProblems step) := by
  unfold pluginFieldProblems
  repeat' rw [allOther_append]
  refine ⟨⟨⟨⟨?_, ?_⟩, ?_⟩, ?_⟩, ?_⟩ <;> split_ifs <;> simp [Problem.isOther]

theorem pluginReadProblems_other : AllOther (pluginReadProblems host step) := by
  refine allOther_flatMap (fun e => allOther_flatMap (fun i => ?_) _) _
  split
  · exact allOther_nil
  · refine allOther_filterMap (fun var p hp => ?_) _
    split_ifs at hp
    obtain rfl := Option.some.inj hp
    rfl

theorem guardProblems_other : AllOther (guardProblems host level step) := by
  unfold guardProblems
  split
  · exact allOther_map (fun _ => rfl) _
  · exact allOther_nil

theorem validateParamSpecs_other (seen : List Text) (ps : List ParamSpec) :
    AllOther (validateParamSpecs host seen ps) := by
  induction ps generalizing seen with
  | nil => exact allOther_nil
  | cons p ps ih => exact allOther_append.mpr ⟨allOther_map (fun _ => rfl) _, ih _⟩

theorem checkWith_other (inputs : List ParamSpec) : AllOther (checkWith host step inputs) := by
  refine allOther_append.mpr ⟨allOther_flatMap (fun p => ?_) _, allOther_map (fun _ => rfl) _⟩
  split
  · split_ifs <;> simp [Problem.isOther]
  · split_ifs
    · exact allOther_nil
    · split <;> simp [Problem.isOther]

theorem validateInterface_other (lib : PipelineIr) :
    AllOther (validateInterface host step lib siblings) := by
  simp only [validateInterface, allOther_append]
  refine ⟨⟨⟨⟨⟨validateParamSpecs_other _ _, allOther_map (fun _ => rfl) _⟩, ?_⟩,
    checkWith_other _⟩, ?_⟩, ?_⟩
  · refine allOther_filterMap (fun r p hp => ?_) _
    split at hp
    · split_ifs at hp
      obtain rfl := Option.some.inj hp
      rfl
    · cases hp
  · refine allOther_flatMap (fun o => ?_) _
    split_ifs <;> simp [Problem.isOther]
  · refine allOther_flatMap (fun t => allOther_flatMap (fun field => ?_) _) _
    split_ifs <;> simp [Problem.isOther]

theorem outputView_other (reads : OutputNames) (needs : List Text) :
    AllOther (outputView reads siblings exposed needs).problems := by
  have hfold : ∀ acc : OutputView, AllOther acc.problems →
      AllOther (reads.foldl (viewRead siblings exposed needs) acc).problems := by
    induction reads with
    | nil => exact fun acc h => h
    | cons r rs ih =>
      intro acc hacc
      refine ih _ ?_
      unfold viewRead
      split
      · exact hacc
      · exact hacc
      · split
        · simpa [Problem.isOther] using hacc
        · dsimp only
          split_ifs
          · exact hacc
          · simpa [Problem.isOther] using hacc
  exact hfold _ allOther_nil

theorem bindOne_other (with_ : SortedMap Text Text) (p : ParamSpec) :
    AllOther (bindOne host level with_ p).problems := by
  unfold bindOne
  split
  · split_ifs
    · split
      · simp [Problem.isOther]
      · exact allOther_map (fun _ => rfl) _
    · split <;> exact allOther_nil
  · split
    · split <;> exact allOther_nil
    · exact allOther_nil

theorem bindWith_other (inputs : List ParamSpec) (clean : Bool) :
    AllOther (bindWith host step inputs level siblings exposed clean).problems := by
  simp only [bindWith, allOther_append]
  refine ⟨⟨?_, ?_⟩, outputView_other _ _⟩
  · rw [List.flatMap_map]
    exact allOther_flatMap (fun p => bindOne_other _ p) _
  · split_ifs <;> simp [Problem.isOther]

theorem uninterpolatedInputReads_other : AllOther (uninterpolatedInputReads host step) := by
  refine allOther_flatMap (fun f => allOther_filterMap (fun e p hp => ?_) _) _
  split at hp
  · split_ifs at hp
    obtain rfl := Option.some.inj hp
    rfl
  · obtain rfl := Option.some.inj hp
    rfl

theorem libraryStepScope_other :
    AllOther (libraryStepScope host step level siblings exposed).2 := by
  simp only [libraryStepScope, allOther_append]
  refine ⟨⟨⟨allOther_flatMap (fun f => allOther_map (fun _ => rfl) _) _, ?_⟩,
    uninterpolatedInputReads_other⟩, outputView_other _ _⟩
  split
  · exact allOther_map (fun _ => rfl) _
  · exact allOther_nil

theorem stepProblems_other (ids : List Text) (s : StepSpec) : AllOther (stepProblems host ids s) := by
  simp only [stepProblems, allOther_append]
  refine ⟨⟨⟨⟨⟨?_, ?_⟩, allOther_map (fun _ => rfl) _⟩, allOther_map (fun _ => rfl) _⟩, ?_⟩, ?_⟩
  · split_ifs <;> simp [Problem.isOther]
  · split_ifs <;> simp [Problem.isOther]
  · refine allOther_filterMap (fun w p hp => ?_) _
    split at hp
    · cases hp
    · obtain rfl := Option.some.inj hp
      rfl
  · refine allOther_filterMap (fun w p hp => ?_) _
    split at hp
    · cases hp
    · obtain rfl := Option.some.inj hp
      rfl

end kinds

variable {tc : Toolchain} {libs : Libraries}

/-- A compile that has met nothing and is within the expansion cap. -/
structure Running (c : Compile) : Prop where
  clean : c.diagnostics = []
  going : c.stopped = false
  within : c.expansions ≤ maxInvokeExpansions

/-- Diagnostics, if there are any, that hold a problem that is no cap's, or one of a cap that
was passed. -/
def Refused (passed : Prop) (ds : List Diagnostic) : Prop :=
  ds ≠ [] → (∃ d ∈ ds, d.problem.isOther = true) ∨ (passed ∧ ∃ d ∈ ds, d.problem.isCap = true)

/-- What a part of a running compile comes to: it meets nothing, or it is refused. -/
structure Tally (passed ok : Prop) (more : ℕ) (c c' : Compile) : Prop where
  clean : c'.diagnostics = [] → Running c' ∧ c'.expansions = c.expansions + more ∧ ok
  refused : Refused passed c'.diagnostics

namespace Tally

variable {passed ok ok' : Prop} {more more' : ℕ} {c c' c'' : Compile}

theorem nothing (h : Running c') (hcount : c'.expansions = c.expansions) (hok : ok) :
    Tally passed ok 0 c c' :=
  ⟨fun _ => ⟨h, hcount, hok⟩, fun hd => absurd h.clean hd⟩

theorem of_other {d : Diagnostic} (hd : d ∈ c'.diagnostics) (hother : d.problem.isOther = true) :
    Tally passed ok more c c' := by
  refine ⟨fun h => ?_, fun _ => .inl ⟨d, hd, hother⟩⟩
  rw [h] at hd
  cases hd

theorem push {p : Problem} (hother : p.isOther = true) (step : Text) :
    Tally passed ok more c (c'.push step p) :=
  of_other (d := ⟨step, p⟩) (by simp [Compile.push, Compile.report]) hother

theorem stop_other (h : c'.stopped = false) {p : Problem} (hother : p.isOther = true)
    (step : Text) : Tally passed ok more c (c'.stop step p) :=
  of_other (d := ⟨step, p⟩) (by simp [Compile.stop, h, Compile.push, Compile.report]) hother

theorem stop_cap (h : c'.stopped = false) {p : Problem} (hcap : p.isCap = true) (hpass : passed)
    (step : Text) : Tally passed ok more c (c'.stop step p) := by
  refine ⟨fun hd => absurd hd (stop_diagnostics h), fun _ => .inr ⟨hpass, ⟨step, p⟩, ?_, hcap⟩⟩
  simp [Compile.stop, h, Compile.push, Compile.report]

theorem push_cap {p : Problem} (hcap : p.isCap = true) (hpass : passed) (step : Text) :
    Tally passed ok more c (c'.push step p) := by
  refine ⟨fun hd => absurd hd push_diagnostics, fun _ => .inr ⟨hpass, ⟨step, p⟩, ?_, hcap⟩⟩
  simp [Compile.push, Compile.report]

/-- A matrix is refused for the step cap or for a reason of its own. -/
theorem push_matrix {p : MatrixProblem} (step : Text)
    (h : Problem.isOther (.matrix p) = true ∨ (p = .tooManySteps ∧ passed)) :
    Tally passed ok more c (c'.push step (.matrix p)) := by
  rcases h with hother | ⟨rfl, hpass⟩
  · exact push hother step
  · exact push_cap rfl hpass step

theorem report (h : Running c) (step : Text) {ps : List Problem} (hother : AllOther ps) :
    Tally passed (ps = []) 0 c (c.report step ps) := by
  cases ps with
  | nil =>
    have hsame : c.report step [] = c := by simp [Compile.report]
    rw [hsame]
    exact nothing h rfl rfl
  | cons p ps =>
    refine of_other (d := ⟨step, p⟩) ?_ (hother p List.mem_cons_self)
    simp [Compile.report]

theorem mono (h : Tally passed ok more c c') (hok : ok → ok') : Tally passed ok' more c c' :=
  ⟨fun hd => ⟨(h.clean hd).1, (h.clean hd).2.1, hok (h.clean hd).2.2⟩, h.refused⟩

/-- Diagnostics are only added, so what was refused stays refused. -/
theorem andThen (h : Tally passed ok more c c') (hgrows : c'.diagnostics <+: c''.diagnostics)
    (h' : Running c' → ok → Tally passed ok' more' c' c'') {total : ℕ}
    (htotal : more + more' = total) : Tally passed ok' total c c'' := by
  by_cases hd : c'.diagnostics = []
  · obtain ⟨hrun, hcount, hok⟩ := h.clean hd
    obtain ⟨hclean, hrefused⟩ := h' hrun hok
    refine ⟨fun hd' => ?_, hrefused⟩
    obtain ⟨hrun', hcount', hok'⟩ := hclean hd'
    exact ⟨hrun', by omega, hok'⟩
  · refine ⟨fun hd' => ?_, fun _ => ?_⟩
    · rw [hd', List.prefix_nil] at hgrows
      exact absurd hgrows hd
    · rcases h.refused hd with ⟨d, hmem, hother⟩ | ⟨hpass, d, hmem, hcap⟩
      · exact .inl ⟨d, hgrows.mem hmem, hother⟩
      · exact .inr ⟨hpass, d, hgrows.mem hmem, hcap⟩

/-- A part that expands nothing, then another. -/
theorem next (h : Tally passed ok 0 c c') (hgrows : c'.diagnostics <+: c''.diagnostics)
    (h' : Running c' → ok → Tally passed ok' more c' c'') : Tally passed ok' more c c'' :=
  h.andThen hgrows h' (Nat.zero_add more)

end Tally

section parts

variable {passed : Prop} {level : Level} {stack : List Frame} {siblings : List StepSpec}
  {exposed : Exposed} {step : StepSpec} {acc : LevelAcc} {c : Compile}

theorem capped_tally (h : Running c) (at_ : Text)
    (hpass : maxCompiledSteps < acc.out.length → passed) :
    Tally passed ((capped tc at_ acc c).1.out = acc.out) 0 c (capped tc at_ acc c).2 := by
  unfold capped
  split_ifs with hlen
  · exact .stop_cap h.going rfl (hpass hlen) at_
  · split
    · exact .nothing h rfl rfl
    · split_ifs
      · exact .nothing h rfl rfl
      · exact .stop_other h.going rfl at_

theorem pushNodes_grows (at_ : Text) (nodes : List StepSpec) {ds : List Diagnostic}
    (h : ds <+: c.diagnostics) : ds <+: (pushNodes tc at_ nodes acc c).2.diagnostics := by
  have hlead : c.Leads tc ⟨∅, ∅, ∅⟩ (pushNodes tc at_ nodes acc c).2 := pushNodes_leads _ _ _ _
  exact h.trans hlead.grows

theorem report_grows (at_ : Text) (ps : List Problem) :
    c.diagnostics <+: (c.report at_ ps).diagnostics := List.prefix_append _ _

theorem pushNodes_tally (h : Running c) (at_ : Text) {nodes : List StepSpec}
    (hpass : maxCompiledSteps < acc.out.length + nodes.length → passed) :
    Tally passed ((pushNodes tc at_ nodes acc c).1.out = acc.out ++ nodes) 0 c
      (pushNodes tc at_ nodes acc c).2 := by
  induction nodes generalizing acc c with
  | nil => exact .nothing h rfl (by simp [pushNodes])
  | cons n ns ih =>
    simp only [List.length_cons] at hpass
    have hcap : Tally passed _ 0 c (capped tc at_ { acc with out := acc.out ++ [n] } c).2 :=
      capped_tally h at_ fun hlen => hpass (by simp at hlen; omega)
    simp only [pushNodes]
    split_ifs with hstop
    · refine ⟨fun hd => ?_, hcap.refused⟩
      have hgoing := (hcap.clean hd).1.going
      rw [hstop] at hgoing
      cases hgoing
    · refine hcap.next (pushNodes_grows _ _ List.prefix_rfl) fun hrun hout => ?_
      refine (ih hrun fun hlen => hpass ?_).mono fun hout' => ?_
      · rw [hout] at hlen
        simp at hlen
        omega
      · rw [hout', hout]
        simp

theorem countMatrix_error {matrix : Matrix} {work work' : MatrixWork} {p : MatrixProblem}
    (h : countMatrix matrix work = (.error p, work')) : Problem.isOther (.matrix p) = true := by
  simp only [countMatrix] at h
  cases hfind : matrix.dimensions.entries.find? fun d => decide (d.2 = []) with
  | some d =>
    simp only [hfind] at h
    split_ifs at h <;> cases h <;> rfl
  | none =>
    simp only [hfind] at h
    split_ifs at h <;> cases h <;> rfl

theorem expandStep_error {work work' : MatrixWork} {p : MatrixProblem}
    (h : expandStep tc step work = (.error p, work')) :
    Problem.isOther (.matrix p) = true ∨
      (p = .tooManySteps ∧ maxCompiledSteps < (suffixes tc step.matrix).length) := by
  unfold expandStep at h
  cases hm : step.matrix with
  | none =>
    rw [hm] at h
    cases h
  | some matrix =>
    simp only [hm] at h
    split at h
    · next p' w' hcount =>
      obtain rfl : p' = p := Except.error.inj (congrArg Prod.fst h)
      exact .inl (countMatrix_error hcount)
    · simp only [Prod.mk.injEq] at h
      unfold matrixInstances at h
      split at h
      · cases h.1
        exact .inl rfl
      · next kept hkept =>
        split_ifs at h with hlen hbytes
        · cases h.1
          refine .inr ⟨rfl, ?_⟩
          simpa [suffixes, hkept] using hlen
        · cases h.1
          exact .inl rfl
        · cases h.1

/-- Nodes whose instances have these ids, each node with some. -/
structure Fills (tc : Toolchain) (nodes : List StepSpec) (ids : List Text) : Prop where
  ids : nodes.flatMap (compiledIds tc) = ids
  kept : ∀ n ∈ nodes, suffixes tc n.matrix ≠ []

namespace Fills

variable {nodes nodes' : List StepSpec} {ids ids' : List Text}

theorem append (h : Fills tc nodes ids) (h' : Fills tc nodes' ids') :
    Fills tc (nodes ++ nodes') (ids ++ ids') := by
  refine ⟨by rw [List.flatMap_append, h.ids, h'.ids], fun n hn => ?_⟩
  rcases List.mem_append.mp hn with hn | hn
  · exact h.kept n hn
  · exact h'.kept n hn

theorem length_le (h : Fills tc nodes ids) : nodes.length ≤ ids.length := by
  obtain ⟨rfl, hkept⟩ := h
  induction nodes with
  | nil => exact Nat.zero_le _
  | cons n ns ih =>
    have hpos := compiledIds_pos (hkept n List.mem_cons_self)
    have hrest := ih fun m hm => hkept m (List.mem_cons_of_mem n hm)
    simp only [List.flatMap_cons, List.length_cons, List.length_append]
    omega

theorem seam (h : Fills tc nodes ids) (seam : Seam) : Fills tc (nodes.map (seamStep seam)) ids := by
  refine ⟨?_, fun n hn => ?_⟩
  · rw [List.flatMap_map]
    exact h.ids
  · obtain ⟨m, hm, rfl⟩ := List.mem_map.mp hn
    exact h.kept m hm

theorem own (hkept : suffixes tc step.matrix ≠ []) {n : StepSpec} (hid : n.id = step.id)
    (hmatrix : n.matrix = step.matrix) : Fills tc [n] (compiledIds tc step) := by
  refine ⟨by simp [compiledIds, hid, hmatrix], fun m hm => ?_⟩
  obtain rfl := List.mem_singleton.mp hm
  rwa [hmatrix]

theorem gates {invs : List StepSpec} (hinvs : instancesOf tc step = .ok invs) {f : StepSpec → StepSpec}
    (hid : ∀ inv, (f inv).id = inv.id) (hmatrix : ∀ inv, (f inv).matrix = inv.matrix) :
    Fills tc (invs.map f) (compiledIds tc step) := by
  have hnone : ∀ inv ∈ invs, (f inv).matrix = none := fun inv hinv =>
    (hmatrix inv).trans (instancesOf_spec hinvs hinv).matrix
  constructor
  · rw [compiledIds, ← instancesOf_ids hinvs, List.flatMap_map, ← List.flatMap_pure_eq_map]
    refine List.flatMap_congr fun inv hinv => ?_
    simp [compiledIds, hnone inv hinv, suffixes, hid]
  · intro n hn
    obtain ⟨inv, hinv, rfl⟩ := List.mem_map.mp hn
    simp [hnone inv hinv, suffixes]

theorem copies (h : Fills tc nodes ids) {invs : List StepSpec}
    (hinvs : instancesOf tc step = .ok invs) (link : OriginEntry) (deploy : Bool)
    (within withNeeds : List Text) :
    Fills tc (invs.flatMap fun inv => nodes.map (inlinedNode link deploy within withNeeds inv))
      (copiesOf tc step ids) := by
  constructor
  · rw [compiledIds_copies, h.ids, copiesOf, ← List.flatMap_map (step.id ++ ·) fun id =>
      ids.map (ns id), ← instancesOf_ids hinvs, List.flatMap_map]
  · intro n hn
    obtain ⟨inv, -, hn⟩ := List.mem_flatMap.mp hn
    obtain ⟨m, hm, rfl⟩ := List.mem_map.mp hn
    rw [(inlinedNode_fields link deploy within withNeeds inv m).2.2]
    exact h.kept m hm

end Fills

end parts

end Scarab.Pipeline
