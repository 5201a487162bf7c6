import Scarab.PipelineNames
import Scarab.PipelineProduct

/-!
# Matrix expansion is the filtered product

The instances of a step are the combinations of its matrix that no `exclude` predicate holds
of, and a compiled pipeline names each of its steps once.
-/
namespace Scarab.Pipeline

open MixedRadix

/-- An expression's value depends only on the variables it reads. -/
def Host.ReadsVars (host : Host) : Prop :=
  ∀ (e : Expr) (c c' : Ctx) (v : Json), (∀ r ∈ e.reads, c.get r.var = c'.get r.var) →
    host.execute e c = .ok v → host.execute e c' = .ok v

/-- The context in which every dimension is bound. -/
def fullCtx (c : Combination) : Ctx := SortedMap.ofList (c.map fun d => (d.1, Json.string d.2))

/-- No predicate is true of the combination when it is evaluated on its own. -/
def stays (host : Host) (preds : List Text) (c : Combination) : Bool :=
  preds.all fun pred => (host.evalBool pred (fullCtx c)).toOption ≠ some true

section predicates

variable {host : Host}

theorem combinationCtx_get {c : Combination} (hkeys : (c.map (·.1)).Nodup) {vars : List Text}
    {k : Text} (hk : k ∈ vars) : (combinationCtx vars c).get k = (fullCtx c).get k := by
  have hall : ((c.map fun d => (d.1, Json.string d.2)).map (·.1)).Nodup := by
    simpa [Function.comp_def] using hkeys
  have hread : (((c.filter fun d => d.1 ∈ vars).map fun d => (d.1, Json.string d.2)).map
      (·.1)).Nodup := by
    have hsub : (c.filter fun d => d.1 ∈ vars).Sublist c := List.filter_sublist
    simpa [Function.comp_def] using hkeys.sublist (hsub.map _)
  by_cases hmem : k ∈ c.map (·.1)
  · obtain ⟨d, hd, rfl⟩ := List.mem_map.mp hmem
    have hd' : d ∈ c.filter fun d => d.1 ∈ vars := List.mem_filter.mpr ⟨hd, by simpa using hk⟩
    rw [combinationCtx, fullCtx, SortedMap.ofList, SortedMap.ofList,
      SortedMap.get_insertAll_of_mem hread (List.mem_map.mpr ⟨d, hd', rfl⟩),
      SortedMap.get_insertAll_of_mem hall (List.mem_map.mpr ⟨d, hd, rfl⟩)]
  · rw [combinationCtx, fullCtx, SortedMap.ofList, SortedMap.ofList,
      SortedMap.get_insertAll_of_notMem, SortedMap.get_insertAll_of_notMem]
    · simpa [Function.comp_def] using hmem
    · intro h
      simp only [List.map_map, List.mem_map, List.mem_filter] at h
      obtain ⟨d, ⟨hd, -⟩, rfl⟩ := h
      exact hmem (List.mem_map_of_mem hd)

theorem evalBool_ok_iff {pred : Text} {ctx : Ctx} {b : Bool} :
    host.evalBool pred ctx = .ok b ↔
      ∃ e, host.program pred = .ok e ∧ host.execute e ctx = .ok (.bool b) := by
  cases hprog : host.program pred with
  | error x => simp [Host.evalBool, Host.eval, hprog, Bind.bind, Except.bind]
  | ok e =>
    rw [evalBool_of_program hprog, executeBool]
    cases hout : host.execute e ctx with
    | error why => simp [hout]
    | ok v => cases v <;> simp [hout]

/-- Only the variables a predicate reads matter. -/
theorem evalBool_full (hcel : host.ReadsVars) {c : Combination} (hkeys : (c.map (·.1)).Nodup)
    {pred : Text} {reads : List Read} (hreads : host.reads pred = .ok reads) {b : Bool} :
    host.evalBool pred (combinationCtx (reads.map (·.var)) c) = .ok b ↔
      host.evalBool pred (fullCtx c) = .ok b := by
  rw [evalBool_ok_iff, evalBool_ok_iff]
  refine exists_congr fun e => and_congr_right fun hprog => ?_
  have heq : e.reads = reads := Except.ok.inj ((reads_eq hprog).symm.trans hreads)
  have hget : ∀ r ∈ e.reads,
      (combinationCtx (reads.map (·.var)) c).get r.var = (fullCtx c).get r.var := by
    intro r hr
    exact combinationCtx_get hkeys (List.mem_map_of_mem (heq ▸ hr))
  exact ⟨hcel e _ _ _ hget, hcel e _ _ _ fun r hr => (hget r hr).symm⟩

theorem excludeBy_spec {pred : Text} {vars : List Text} {cs kept : List Combination}
    (h : excludeBy host pred vars cs = .ok kept) :
    kept = cs.filter fun c =>
      (host.evalBool pred (combinationCtx vars c)).toOption ≠ some true := by
  induction cs generalizing kept with
  | nil => exact (Except.ok.inj h).symm
  | cons c cs ih =>
    simp only [excludeBy, Bind.bind, Except.bind] at h
    cases hout : host.evalBool pred (combinationCtx vars c) with
    | error x => simp [hout] at h
    | ok out =>
      cases hrest : excludeBy host pred vars cs with
      | error x => simp [hout, hrest] at h
      | ok rest =>
        simp only [hout, hrest, Except.ok.injEq] at h
        rw [← h, ih hrest, List.filter_cons, hout]
        cases out <;> simp [Except.toOption]

theorem excludeBy_total {pred : Text} {vars : List Text} {cs : List Combination}
    (h : ∀ c ∈ cs, ∃ b, host.evalBool pred (combinationCtx vars c) = .ok b) :
    ∃ kept, excludeBy host pred vars cs = .ok kept := by
  induction cs with
  | nil => exact ⟨[], rfl⟩
  | cons c cs ih =>
    obtain ⟨out, hout⟩ := h c List.mem_cons_self
    obtain ⟨rest, hrest⟩ := ih fun d hd => h d (List.mem_cons_of_mem _ hd)
    refine ⟨if out then rest else c :: rest, ?_⟩
    simp only [excludeBy, hout, hrest, Bind.bind, Except.bind]

theorem toOption_eq_some_iff {ε α : Type} {x : Except ε α} {a : α} :
    x.toOption = some a ↔ x = .ok a := by
  cases x <;> simp [Except.toOption]

/-- The combinations that stay after every predicate are those no predicate is true of. -/
theorem keptCombinations_spec (hcel : host.ReadsVars) {preds : List Text}
    {cs kept : List Combination} (hkeys : ∀ c ∈ cs, (c.map (·.1)).Nodup)
    (h : keptCombinations host preds cs = .ok kept) : kept = cs.filter (stays host preds) := by
  induction preds generalizing cs with
  | nil =>
    obtain rfl : cs = kept := Except.ok.inj h
    have hstay : ∀ c ∈ cs, stays host [] c = true := fun c _ => rfl
    exact (List.filter_eq_self.mpr hstay).symm
  | cons pred preds ih =>
    simp only [keptCombinations, Bind.bind, Except.bind] at h
    cases hreads : host.reads pred with
    | error x => simp [hreads] at h
    | ok reads =>
      cases hrest : excludeBy host pred (reads.map (·.var)) cs with
      | error x => simp [hreads, hrest] at h
      | ok rest =>
        simp only [hreads, hrest] at h
        have hspec := excludeBy_spec hrest
        have hrestkeys : ∀ c ∈ rest, (c.map (·.1)).Nodup := by
          intro c hc
          rw [hspec] at hc
          exact hkeys c (List.mem_of_mem_filter hc)
        rw [ih hrestkeys h, hspec, List.filter_filter]
        refine List.filter_congr fun c hc => ?_
        have hfull := evalBool_full hcel (hkeys c hc) hreads (b := true)
        rw [Bool.eq_iff_iff]
        simp only [stays, List.all_cons, Bool.and_eq_true, decide_eq_true_eq, ne_eq,
          toOption_eq_some_iff, hfull]
        exact and_comm

theorem keptCombinations_total (hcel : host.ReadsVars) {preds : List Text} {cs : List Combination}
    (hcs : cs ≠ []) (hkeys : ∀ c ∈ cs, (c.map (·.1)).Nodup)
    (h : ∀ pred ∈ preds, ∀ c ∈ cs, ∃ b, host.evalBool pred (fullCtx c) = .ok b) :
    ∃ kept, keptCombinations host preds cs = .ok kept := by
  have hprogs : ∀ pred ∈ preds, ∃ reads, host.reads pred = .ok reads := by
    intro pred hpred
    obtain ⟨c, hc⟩ := List.exists_mem_of_ne_nil cs hcs
    obtain ⟨b, hb⟩ := h pred hpred c hc
    obtain ⟨e, he, -⟩ := evalBool_ok_iff.mp hb
    exact ⟨_, reads_eq he⟩
  clear hcs
  induction preds generalizing cs with
  | nil => exact ⟨cs, rfl⟩
  | cons pred preds ih =>
    obtain ⟨reads, hreads⟩ := hprogs pred List.mem_cons_self
    obtain ⟨rest, hrest⟩ : ∃ rest, excludeBy host pred (reads.map (·.var)) cs = .ok rest := by
      refine excludeBy_total fun c hc => ?_
      obtain ⟨b, hb⟩ := h pred List.mem_cons_self c hc
      exact ⟨b, (evalBool_full hcel (hkeys c hc) hreads).mpr hb⟩
    have hsub : ∀ c ∈ rest, c ∈ cs := by
      intro c hc
      rw [excludeBy_spec hrest] at hc
      exact List.mem_of_mem_filter hc
    obtain ⟨kept, hkept⟩ := ih (fun c hc => hkeys c (hsub c hc))
      (fun p hp c hc => h p (List.mem_cons_of_mem _ hp) c (hsub c hc))
      (fun p hp => hprogs p (List.mem_cons_of_mem _ hp))
    exact ⟨kept, by simp only [keptCombinations, hreads, hrest, hkept, Bind.bind, Except.bind]⟩

end predicates

/-- The value indexes of the combinations of a matrix that stay, in lexicographic order. -/
def keptVectors (host : Host) (matrix : Matrix) : List (List ℕ) :=
  (vectors (matrix.dimensions.entries.map (·.2.length))).filter fun v =>
    stays host matrix.exclude (combinationOf matrix.dimensions.entries v)

theorem combinationOf_keys {dims : List (Text × List Text)} {v : List ℕ}
    (h : v.length = dims.length) : (combinationOf dims v).map (·.1) = dims.map (·.1) := by
  induction dims generalizing v with
  | nil => rfl
  | cons d ds ih =>
    cases v with
    | nil => simp at h
    | cons i v =>
      have htail := ih (v := v) (by simpa using h)
      simpa [combinationOf] using htail

theorem combinations_keys (matrix : Matrix) :
    ∀ c ∈ combinations matrix.dimensions.entries, (c.map (·.1)).Nodup := by
  intro c hc
  rw [combinations_eq] at hc
  obtain ⟨v, hv, rfl⟩ := List.mem_map.mp hc
  have hlen : v.length = matrix.dimensions.entries.length := by
    simpa using (mem_vectors.mp hv).length_eq
  rw [combinationOf_keys hlen]
  exact (List.pairwise_map.mpr matrix.dimensions.sorted).imp fun {a b} h => h.ne

theorem filter_combinations (host : Host) (matrix : Matrix) :
    (combinations matrix.dimensions.entries).filter (stays host matrix.exclude) =
      (keptVectors host matrix).map (combinationOf matrix.dimensions.entries) := by
  rw [combinations_eq, List.filter_map]
  rfl

/-- What a step with a matrix expands to. -/
def productInstances (tc : Toolchain) (step : StepSpec) (matrix : Matrix) : List StepSpec :=
  (keptVectors tc.toHost matrix).map fun v =>
    instanceOf step (combinationOf matrix.dimensions.entries v)

theorem matrixInstances_ok {tc : Toolchain} (hcel : tc.toHost.ReadsVars) {step : StepSpec}
    {matrix : Matrix} {insts : List StepSpec} (h : matrixInstances tc step matrix = .ok insts) :
    insts = productInstances tc step matrix := by
  unfold matrixInstances at h
  split at h
  · cases h
  · next kept hkept =>
    split_ifs at h
    have hspec := keptCombinations_spec hcel (combinations_keys matrix) hkept
    rw [filter_combinations] at hspec
    rw [← Except.ok.inj h, hspec, productInstances, List.map_map]
    rfl

/-- What is left of a matrix within the bounds on the compiled pipeline. -/
structure Matrix.Fits (tc : Toolchain) (step : StepSpec) (matrix : Matrix) : Prop where
  steps : (keptVectors tc.toHost matrix).length ≤ maxCompiledSteps
  bytes : ((keptVectors tc.toHost matrix).map fun v => tc.jsonLen step +
    3 * combinationLen (combinationOf matrix.dimensions.entries v)).sum ≤ maxCompiledIrBytes

theorem combinations_ne_nil {dims : List (Text × List Text)} (h : ∀ d ∈ dims, d.2 ≠ []) :
    combinations dims ≠ [] := by
  induction dims with
  | nil => simp [combinations]
  | cons d ds ih =>
    have htail := ih fun x hx => h x (List.mem_cons_of_mem _ hx)
    obtain ⟨x, hx⟩ := List.exists_mem_of_ne_nil _ (h d List.mem_cons_self)
    obtain ⟨c, hc⟩ := List.exists_mem_of_ne_nil _ htail
    refine List.ne_nil_of_mem (a := (d.1, x) :: c) ?_
    exact List.mem_flatMap.mpr ⟨x, hx, List.mem_map_of_mem hc⟩

theorem matrixInstances_total {tc : Toolchain} (hcel : tc.toHost.ReadsVars) {step : StepSpec}
    {matrix : Matrix} (hvalues : ∀ d ∈ matrix.dimensions.entries, d.2 ≠ [])
    (hfits : matrix.Fits tc step)
    (heval : ∀ pred ∈ matrix.exclude, ∀ c ∈ combinations matrix.dimensions.entries,
      ∃ b, tc.toHost.evalBool pred (fullCtx c) = .ok b) :
    matrixInstances tc step matrix = .ok (productInstances tc step matrix) := by
  have hkeys := combinations_keys matrix
  obtain ⟨kept, hkept⟩ := keptCombinations_total hcel (combinations_ne_nil hvalues) hkeys heval
  have hspec := keptCombinations_spec hcel hkeys hkept
  rw [filter_combinations] at hspec
  have hsteps : ¬ kept.length > maxCompiledSteps := by
    rw [hspec, List.length_map]
    exact not_lt.mpr hfits.steps
  have hbytes : ¬ (kept.map fun c => tc.jsonLen step + 3 * combinationLen c).sum >
      maxCompiledIrBytes := by
    rw [hspec, List.map_map]
    exact not_lt.mpr hfits.bytes
  rw [matrixInstances, hkept]
  dsimp only
  rw [if_neg hsteps, if_neg hbytes, hspec, productInstances, List.map_map]
  rfl

/-- The ids of the compiled steps that an inlined step becomes. -/
def compiledIds (tc : Toolchain) (s : StepSpec) : List Text :=
  (suffixes tc s.matrix).map (s.id ++ ·)

/-- The steps of a level after inlining. -/
def levelSteps (pieces : List Piece) : List StepSpec :=
  (pieces.flatMap (·.nodes)).map (seamStep (seamOf pieces))

def belowRoom (tc : Toolchain) (libs : Libraries) : ℕ → Option LevelRel
  | 0 => none
  | room + 1 => some (Inlines tc libs room)

/-- A level that met no problem, with what each of its steps added. -/
structure LevelRun (tc : Toolchain) (libs : Libraries) (room : ℕ) (level : Level)
    (stack : List Frame) (pieces : List Piece) : Prop where
  inlines : Inlines tc libs room level stack (pieces.map (·.step)) (levelSteps pieces)
  adds : ∃ exposed, ∀ p ∈ pieces,
    Adds tc libs (belowRoom tc libs room) level stack (pieces.map (·.step)) exposed p

theorem Inlines.exists_run {tc : Toolchain} {libs : Libraries} {room : ℕ} {level : Level}
    {stack : List Frame} {steps resolved : List StepSpec}
    (h : Inlines tc libs room level stack steps resolved) :
    ∃ pieces, LevelRun tc libs room level stack pieces ∧ pieces.map (·.step) = steps ∧
      levelSteps pieces = resolved := by
  have hlevel : LevelInlines tc libs (belowRoom tc libs room) level stack steps resolved := by
    cases room <;> exact h
  cases hlevel with
  | mk hexposed hunique hfields hpieces => exact ⟨_, ⟨h, _, hpieces⟩, rfl, rfl⟩

/-- The compile expanded the step of `p`, written at the level or in a library the level
invokes, and `ids` are the compiled steps that come from it. -/
inductive Expanded (tc : Toolchain) (libs : Libraries) :
    ℕ → Level → List Frame → List Piece → Piece → List Text → Prop
  | here {room : ℕ} {level : Level} {stack : List Frame} {pieces : List Piece} {p : Piece}
      (hrun : LevelRun tc libs room level stack pieces) (hp : p ∈ pieces) :
      Expanded tc libs room level stack pieces p (p.nodes.flatMap (compiledIds tc))
  | inside {room : ℕ} {level inner : Level} {stack frames : List Frame} {pieces innerPieces : List Piece}
      {p q : Piece} {ids : List Text} {link : OriginEntry} {lib : PipelineIr} {deploy : Bool}
      {within withNeeds : List Text} {invs : List StepSpec}
      (hrun : LevelRun tc libs (room + 1) level stack pieces) (hq : q ∈ pieces)
      (hinvokes : Invokes tc libs q.step link lib) (hsteps : innerPieces.map (·.step) = lib.steps)
      (hinvs : instancesOf tc q.step = .ok invs)
      (hnodes : q.nodes = invs.flatMap fun inv =>
        (levelSteps innerPieces).map (inlinedNode link deploy within withNeeds inv))
      (hinner : Expanded tc libs room inner frames innerPieces p ids) :
      Expanded tc libs (room + 1) level stack pieces p (invs.flatMap fun inv => ids.map (ns inv.id))

section ids

variable {tc : Toolchain} {libs : Libraries}

theorem compiledIds_levelSteps (pieces : List Piece) :
    (levelSteps pieces).flatMap (compiledIds tc) =
      pieces.flatMap fun p => p.nodes.flatMap (compiledIds tc) := by
  rw [levelSteps, List.flatMap_map, List.flatMap_assoc]
  rfl

theorem compiledIds_copies {link : OriginEntry} {deploy : Bool} {within withNeeds : List Text}
    (invs resolved : List StepSpec) :
    (invs.flatMap fun inv => resolved.map (inlinedNode link deploy within withNeeds inv)).flatMap
        (compiledIds tc) =
      invs.flatMap fun inv => (resolved.flatMap (compiledIds tc)).map (ns inv.id) := by
  rw [List.flatMap_assoc]
  refine List.flatMap_congr fun inv _ => ?_
  rw [List.flatMap_map, List.map_flatMap]
  refine List.flatMap_congr fun ls _ => ?_
  obtain ⟨hid, -, hmatrix⟩ := inlinedNode_fields link deploy within withNeeds inv ls
  simp only [compiledIds, hid, hmatrix, List.map_map, Function.comp_def, ns_append]

/-- Copies whose ids are distinct, where there is something to copy, have distinct names. -/
theorem nodup_of_copies {names ids : List Text} (hne : ids ≠ [])
    (h : (names.flatMap fun name => ids.map (ns name)).Nodup) : names.Nodup := by
  obtain ⟨id, hid⟩ := List.exists_mem_of_ne_nil ids hne
  refine (List.nodup_flatMap.mp h).2.imp fun {a b} hdisjoint heq => ?_
  subst heq
  exact hdisjoint (List.mem_map_of_mem hid) (List.mem_map_of_mem hid)

theorem Adds.ids_nodup {below : Option LevelRel} {level : Level} {stack : List Frame}
    {siblings : List StepSpec} {exposed : Exposed} {p : Piece}
    (h : Adds tc libs below level stack siblings exposed p)
    (hnodup : (p.nodes.flatMap (compiledIds tc)).Nodup)
    (hne : p.nodes.flatMap (compiledIds tc) ≠ []) {invs : List StepSpec}
    (hinvs : instancesOf tc p.step = .ok invs) : (invs.map (·.id)).Nodup := by
  cases h with
  | @run step =>
    obtain ⟨hid, -, hmatrix⟩ := ownStep_fields tc.toHost level siblings exposed step
    simp only [List.flatMap_singleton, compiledIds, hid, hmatrix] at hnodup
    rw [instancesOf_ids hinvs]
    exact hnodup
  | @gate step raw name def_ invs' hinvoke htarget hfields hdef hbound hguard hinvs' =>
    obtain rfl := Except.ok.inj (hinvs.symm.trans hinvs')
    have hids : (invs.map (pluginNode level (pluginNames name).1 (pluginNames name).2 def_
        (boundFor tc.toHost level siblings exposed step def_.interface.inputs))).flatMap
          (compiledIds tc) = invs.map (·.id) := by
      rw [List.flatMap_map, ← List.flatMap_pure_eq_map]
      refine List.flatMap_congr fun inv hinv => ?_
      have hmatrix : inv.matrix = none := (instancesOf_spec hinvs hinv).matrix
      simp [compiledIds, pluginNode, hmatrix, suffixes]
    rw [← hids]
    exact hnodup
  | library _ _ _ _ _ _ _ _ _ _ _ hinvs' =>
    obtain rfl := Except.ok.inj (hinvs.symm.trans hinvs')
    rw [compiledIds_copies] at hnodup hne
    have hids : ∀ resolved : List StepSpec,
        (invs.flatMap fun inv => (resolved.flatMap (compiledIds tc)).map (ns inv.id)) ≠ [] →
          resolved.flatMap (compiledIds tc) ≠ [] := by
      intro resolved hne hnil
      rw [hnil] at hne
      simp at hne
    refine nodup_of_copies (hids _ hne) ?_
    rw [List.flatMap_map]
    exact hnodup

/-- Where the compiled steps of a level have distinct ids, so have the instances of every step
that left one of them. -/
theorem Expanded.ids_nodup {room : ℕ} {level : Level} {stack : List Frame} {pieces : List Piece}
    {p : Piece} {ids : List Text} (h : Expanded tc libs room level stack pieces p ids)
    (hnodup : ((levelSteps pieces).flatMap (compiledIds tc)).Nodup) (hne : ids ≠ [])
    {invs : List StepSpec} (hinvs : instancesOf tc p.step = .ok invs) :
    (invs.map (·.id)).Nodup := by
  induction h with
  | here hrun hp =>
    obtain ⟨exposed, hadds⟩ := hrun.adds
    rw [compiledIds_levelSteps] at hnodup
    exact (hadds _ hp).ids_nodup ((List.nodup_flatMap.mp hnodup).1 _ hp) hne hinvs
  | @inside room level inner stack frames pieces innerPieces p q ids link lib deploy within
      withNeeds outer hrun hq hinvokes hsteps houter hnodes hinner ih =>
    rw [compiledIds_levelSteps] at hnodup
    have hcopies := (List.nodup_flatMap.mp hnodup).1 q hq
    rw [hnodes, compiledIds_copies] at hcopies
    obtain ⟨id, hid⟩ := List.exists_mem_of_ne_nil _ hne
    obtain ⟨inv, hinv, hid⟩ := List.mem_flatMap.mp hid
    obtain ⟨id', hid', -⟩ := List.mem_map.mp hid
    refine ih ?_ (List.ne_nil_of_mem hid') hinvs
    exact ((List.nodup_flatMap.mp hcopies).1 inv hinv).of_map _

theorem Compiles.compiledIds_nodup {authored ir : PipelineIr} {inlined : List StepSpec}
    (h : Compiles tc libs authored inlined ir) : (inlined.flatMap (compiledIds tc)).Nodup := by
  have hids : ir.steps.map (·.id) = inlined.flatMap (compiledIds tc) := by
    rw [h.steps, List.map_map, List.map_flatMap]
    refine List.flatMap_congr fun s hs => ?_
    exact instancesOf_ids (h.expands s hs)
  rw [← hids]
  exact h.nodup

end ids

theorem mem_keptVectors {host : Host} {matrix : Matrix} {v : List ℕ} :
    v ∈ keptVectors host matrix ↔
      List.Forall₂ (fun i d => i < d.2.length) v matrix.dimensions.entries ∧
        ∀ pred ∈ matrix.exclude,
          host.evalBool pred (fullCtx (combinationOf matrix.dimensions.entries v)) ≠ .ok true := by
  rw [keptVectors, List.mem_filter, mem_vectors, List.forall₂_map_right_iff, stays, List.all_eq_true]
  simp only [decide_eq_true_eq, ne_eq, toOption_eq_some_iff]

theorem keptVectors_sorted (host : Host) (matrix : Matrix) :
    (keptVectors host matrix).Pairwise (· < ·) := (vectors_sorted _).filter _

theorem expandStepNumbered_ok {tc : Toolchain} (hcel : tc.toHost.ReadsVars) {step : StepSpec}
    {matrix : Matrix} (hm : step.matrix = some matrix) {work : MatrixWork} {insts : List StepSpec}
    (h : (expandStepNumbered tc step work).1 = .ok insts) :
    insts = productInstances tc step matrix := by
  rw [expandStepNumbered_eq, expandStep, hm] at h
  dsimp only at h
  split at h
  · cases h
  · exact matrixInstances_ok hcel h

theorem expandStepNumbered_total {tc : Toolchain} (hcel : tc.toHost.ReadsVars) {step : StepSpec}
    {matrix : Matrix} (hm : step.matrix = some matrix) {work : MatrixWork}
    (hcounted : matrix.Counted work) (hfits : matrix.Fits tc step)
    (heval : ∀ pred ∈ matrix.exclude, ∀ c ∈ combinations matrix.dimensions.entries,
      ∃ b, tc.toHost.evalBool pred (fullCtx c) = .ok b) :
    (expandStepNumbered tc step work).1 = .ok (productInstances tc step matrix) := by
  have hcount := countMatrix_ok_iff.mpr hcounted
  rw [expandStepNumbered_eq, expandStep, hm]
  dsimp only
  rcases hpair : countMatrix matrix work with ⟨_ | _, work'⟩
  · rw [hpair] at hcount
    cases hcount
  · exact matrixInstances_total hcel hcounted.values hfits heval

/-- An instance has its coordinate over the values its step had. -/
theorem instanceOf_matrixValues (step : StepSpec) {c : Combination} (hkeys : (c.map (·.1)).Nodup)
    (k : Text) :
    (instanceOf step c).matrixValues.get k =
      ((SortedMap.ofList c).get k).or (step.matrixValues.get k) := by
  have hvalues : (instanceOf step c).matrixValues = step.matrixValues.insertAll c := rfl
  rw [hvalues, SortedMap.ofList]
  by_cases hk : k ∈ c.map (·.1)
  · obtain ⟨d, hd, rfl⟩ := List.mem_map.mp hk
    rw [SortedMap.get_insertAll_of_mem hkeys hd, SortedMap.get_insertAll_of_mem hkeys hd]
    rfl
  · rw [SortedMap.get_insertAll_of_notMem hk, SortedMap.get_insertAll_of_notMem hk]
    rfl

theorem expandStepNumbered_instancesOf {tc : Toolchain} {step : StepSpec} {work : MatrixWork}
    {insts : List StepSpec} (h : (expandStepNumbered tc step work).1 = .ok insts) :
    instancesOf tc step = .ok insts := by
  rw [expandStepNumbered_eq] at h
  exact expandStep_instancesOf (Prod.ext h rfl)

/-- The instances of a matrix are the combinations no predicate is true of, in lexicographic
order, each with its own coordinate; and where the pipeline compiles, its ids are distinct and
so are the instances of every step that left a compiled step. -/
theorem matrix_filtered_product (tc : Toolchain) (hcel : tc.toHost.ReadsVars) :
    (∀ step matrix work, step.matrix = some matrix →
      (keptVectors tc.toHost matrix).Pairwise (· < ·) ∧
      (∀ v, v ∈ keptVectors tc.toHost matrix ↔
        List.Forall₂ (fun i d => i < d.2.length) v matrix.dimensions.entries ∧
          ∀ pred ∈ matrix.exclude, tc.toHost.evalBool pred
            (fullCtx (combinationOf matrix.dimensions.entries v)) ≠ .ok true) ∧
      (∀ insts, (expandStepNumbered tc step work).1 = .ok insts →
        insts = productInstances tc step matrix) ∧
      (matrix.Counted work → matrix.Fits tc step →
        (∀ pred ∈ matrix.exclude, ∀ c ∈ combinations matrix.dimensions.entries,
          ∃ b, tc.toHost.evalBool pred (fullCtx c) = .ok b) →
        (expandStepNumbered tc step work).1 = .ok (productInstances tc step matrix)) ∧
      ∀ v ∈ keptVectors tc.toHost matrix, ∀ k,
        (instanceOf step (combinationOf matrix.dimensions.entries v)).matrixValues.get k =
          ((SortedMap.ofList (combinationOf matrix.dimensions.entries v)).get k).or
            (step.matrixValues.get k)) ∧
    ∀ libs yaml ir, compileLibs tc libs yaml = .ok ir →
      (ir.steps.map (·.id)).Nodup ∧ ∃ authored pieces, tc.parseYaml yaml = .ok authored ∧
        pieces.map (·.step) = authored.steps ∧
        LevelRun tc libs maxInvokeDepth topLevel [] pieces ∧
        Compiles tc libs authored (levelSteps pieces) ir ∧
        (∀ s ∈ levelSteps pieces, ∀ work insts, (expandStepNumbered tc s work).1 = .ok insts →
          (insts.map (·.id)).Nodup) ∧
        ∀ p ids, Expanded tc libs maxInvokeDepth topLevel [] pieces p ids → ids ≠ [] →
          ∀ work insts, (expandStepNumbered tc p.step work).1 = .ok insts →
            (insts.map (·.id)).Nodup := by
  refine ⟨fun step matrix work hm => ⟨keptVectors_sorted _ _, fun v => mem_keptVectors,
    fun insts => expandStepNumbered_ok hcel hm, expandStepNumbered_total hcel hm,
    fun v hv k => ?_⟩, fun libs yaml ir h => ?_⟩
  · have hlen := (mem_keptVectors.mp hv).1.length_eq
    refine instanceOf_matrixValues step ?_ k
    rw [combinationOf_keys hlen]
    exact (List.pairwise_map.mpr matrix.dimensions.sorted).imp fun {a b} h => h.ne
  · obtain ⟨authored, inlined, hparse, -, hc⟩ := compileLibs_spec h
    obtain ⟨pieces, hrun, hsteps, rfl⟩ := hc.inlines.exists_run
    refine ⟨hc.nodup, authored, pieces, hparse, hsteps, hrun, hc, ?_, ?_⟩
    · intro s hs work insts hinsts
      rw [instancesOf_ids (expandStepNumbered_instancesOf hinsts)]
      exact (List.nodup_flatMap.mp hc.compiledIds_nodup).1 s hs
    · intro p ids hp hne work insts hinsts
      exact hp.ids_nodup hc.compiledIds_nodup hne (expandStepNumbered_instancesOf hinsts)

-- A matrix with a predicate over one of its dimensions.

/-- The value of an expression that compares a variable with a text, or is a path. -/
def Expr.equalsValue (c : Ctx) : Expr → Except Text Json
  | .call func none [.ident name, .literal (.string s)] =>
      if func = "_==_".toList then
        match c.get (rootName name) with
        | some (.string t) => .ok (.bool (t = s))
        | _ => .error "no such overload".toList
      else .error "not a comparison".toList
  | .literal (.bool b) => .ok (.bool b)
  | _ => .error "not a comparison".toList

def equalsTools (exprs : List (Text × Expr)) (files : List (Text × PipelineIr × Text)) : Toolchain :=
  { tableToolchain exprs files with execute := fun e c => e.equalsValue c }

theorem equalsTools_readsVars (exprs : List (Text × Expr)) (files : List (Text × PipelineIr × Text)) :
    (equalsTools exprs files).toHost.ReadsVars := by
  intro e c c' v hreads hv
  have hv : e.equalsValue c = .ok v := hv
  change e.equalsValue c' = .ok v
  rw [← hv]
  unfold Expr.equalsValue
  split
  · next func name s _ =>
    split_ifs with hfunc
    · have hget : c.get (rootName name) = c'.get (rootName name) := by
        refine hreads ⟨rootName name, none, none⟩ ?_
        subst hfunc
        exact List.mem_cons_self
      rw [hget]
    · rfl
  · rfl
  · rfl

def legsMatrix : Matrix :=
  ⟨SortedMap.ofList [("os".toList, ["linux".toList, "mac".toList]),
    ("arch".toList, ["amd64".toList, "arm64".toList])], ["os == 'mac'".toList]⟩

def legsStep : StepSpec :=
  { StepSpec.named "test".toList with image := "busybox".toList, matrix := some legsMatrix }

def legsTools : Toolchain := equalsTools
  [("os == 'mac'".toList, .call "_==_".toList none [.ident "os".toList, .literal (.string "mac".toList)])] []

theorem matrix_filtered_product_legs :
    (expandStepNumbered legsTools legsStep ⟨0, 0⟩).1 = .ok (productInstances legsTools legsStep legsMatrix) ∧
      (productInstances legsTools legsStep legsMatrix).map (·.id) =
        ["test[arch=amd64,os=linux]".toList, "test[arch=arm64,os=linux]".toList] := by
  have hproduct := (matrix_filtered_product legsTools (equalsTools_readsVars _ _)).1 legsStep
    legsMatrix ⟨0, 0⟩ rfl
  obtain ⟨-, -, -, htotal, -⟩ := hproduct
  have heval : ∀ pred ∈ legsMatrix.exclude, ∀ c ∈ combinations legsMatrix.dimensions.entries,
      (legsTools.toHost.evalBool pred (fullCtx c)).toOption.isSome = true := by decide +kernel
  have hevaluates : ∀ pred ∈ legsMatrix.exclude,
      ∀ c ∈ combinations legsMatrix.dimensions.entries,
        ∃ b, legsTools.toHost.evalBool pred (fullCtx c) = .ok b := by
    intro pred hpred c hc
    obtain ⟨b, hb⟩ := Option.isSome_iff_exists.mp (heval pred hpred c hc)
    exact ⟨b, toOption_eq_some_iff.mp hb⟩
  refine ⟨htotal ⟨?_, ?_, ?_, ?_, ?_, ?_⟩ ⟨?_, ?_⟩ hevaluates, ?_⟩
  all_goals decide +kernel

-- An invoke step whose library leaves no step.

def emptyLibrary : Text :=
  textLines ["kind: library", "steps:", "  - id: lint", "    image: busybox", "    matrix:",
    "      dimensions: \x7b os: [linux] \x7d", "      exclude: ['true']"]

def twicePipeline : Text :=
  textLines ["steps:", "  - id: build", "    image: busybox", "  - id: checks",
    "    invoke: lib:acme/lint", "    matrix: \x7b dimensions: \x7b r: [eu, eu] \x7d \x7d"]

def checksStep : StepSpec :=
  { StepSpec.named "checks".toList with
    invoke := some "lib:acme/lint".toList
    matrix := some ⟨SortedMap.ofList [("r".toList, ["eu".toList, "eu".toList])], []⟩ }

def twiceIr : PipelineIr :=
  ⟨2, false, false, ⟨[], []⟩, [],
    [{ StepSpec.named "build".toList with image := "busybox".toList }, checksStep]⟩

def twiceTools : Toolchain := equalsTools [("true".toList, .literal (.bool true))]
  [(emptyLibrary,
      ⟨2, true, false, ⟨[], []⟩, [],
        [{ StepSpec.named "lint".toList with
          image := "busybox".toList
          matrix := some ⟨SortedMap.ofList [("os".toList, ["linux".toList])], ["true".toList]⟩ }]⟩,
      addressText 0x77e472fb1c907085ff3fadaeef135a8ca887a7a980738f9eefb09a5a70e8bbce),
    (twicePipeline, twiceIr, addressText 0xcfc556103213ac68f9595e1c710ad33e0d93ccc536d30f193e77d88266c6339a)]

def twiceLibraries : Libraries :=
  ⟨∅, SortedMap.ofList [("acme/lint".toList, ⟨emptyLibrary, "git:acme/lint@90d1".toList⟩)], ∅⟩

/-- The pipeline compiles to `build` alone, and the two instances of `checks` have one id. -/
theorem instances_share_id : twiceTools.toHost.ReadsVars ∧
    (∃ ir, compileLibs twiceTools twiceLibraries twicePipeline = .ok ir ∧
      ir.steps.map (·.id) = ["build".toList]) ∧
    twiceTools.parseYaml twicePipeline = .ok twiceIr ∧ checksStep ∈ twiceIr.steps ∧
    ∃ insts, (expandStepNumbered twiceTools checksStep ⟨0, 0⟩).1 = .ok insts ∧
      insts.map (·.id) = ["checks[r=eu]".toList, "checks[r=eu]".toList] := by
  refine ⟨equalsTools_readsVars _ _, exists_of_toOption_map (by decide +kernel), ?_,
    List.mem_cons_of_mem _ List.mem_cons_self, exists_of_toOption_map (by decide +kernel)⟩
  have hne : emptyLibrary ≠ twicePipeline := by decide +kernel
  simp [twiceTools, equalsTools, tableToolchain, List.find?, hne]

end Scarab.Pipeline
