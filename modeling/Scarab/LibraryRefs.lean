import Scarab.PipelineNames

/-!
# What the steps of a library refer to

Under its invoke step a library's references stay in its own copy, unless they come from the
invoke step itself: its needs, and the outputs its `with:` reads.
-/
namespace Scarab.Pipeline

variable {tc : Toolchain} {libs : Libraries}

theorem mem_outputs_foldl {α : Type} {f : α → CheckedReads} {xs : List α} {acc : CheckedReads}
    {read : Text × Option Text}
    (h : read ∈ (xs.foldl (fun acc x => acc.append (f x)) acc).outputs) :
    read ∈ acc.outputs ∨ ∃ x ∈ xs, read ∈ (f x).outputs := by
  induction xs generalizing acc with
  | nil => exact .inl h
  | cons x xs ih =>
    rcases ih h with h | ⟨y, hy, h⟩
    · rcases List.mem_append.mp h with h | h
      · exact .inl h
      · exact .inr ⟨x, List.mem_cons_self, h⟩
    · exact .inr ⟨y, List.mem_cons_of_mem _ hy, h⟩

theorem checkRead_outputs {level : Level} {r : Read} {read : Text × Option Text}
    (h : read ∈ (checkRead .template level r).outputs) :
    r.var = "outputs".toList ∧ r.first.map (fun name => (name, r.second)) = some read := by
  unfold checkRead at h
  simp only [reduceCtorEq, if_false] at h
  split_ifs at h with hin hout
  · cases h
  · cases hfirst : r.first with
    | none => simp [hfirst] at h
    | some name =>
      simp only [hfirst, List.mem_singleton] at h
      exact ⟨hout, by rw [h]; rfl⟩
  · cases h

theorem checkReads_outputs {host : Host} {level : Level} {template : Text}
    {read : Text × Option Text} (h : read ∈ (checkReads host .template level template).outputs) :
    read ∈ templateReads host template := by
  rcases mem_outputs_foldl h with h | ⟨e, he, h⟩
  · cases h
  · obtain ⟨i, hi, rfl⟩ := List.mem_map.mp he
    refine List.mem_flatMap.mpr ⟨i, hi, ?_⟩
    unfold checkExprReads at h
    cases hreads : host.reads i.expr with
    | error e =>
      rw [hreads] at h
      cases h
    | ok reads =>
      rw [hreads] at h
      rcases mem_outputs_foldl h with h | ⟨r, hr, h⟩
      · cases h
      · obtain ⟨hvar, hfirst⟩ := checkRead_outputs h
        refine List.mem_filterMap.mpr ⟨r, hr, ?_⟩
        rw [if_pos hvar]
        exact hfirst

theorem bindOne_reads {host : Host} {level : Level} {step : StepSpec} {p : ParamSpec}
    {read : Text × Option Text} (h : read ∈ (bindOne host level step.with_ p).reads) :
    read ∈ withReads host step := by
  unfold bindOne at h
  cases hget : step.with_.get p.name with
  | none =>
    simp only [hget] at h
    split at h
    · split at h <;> cases h
    · cases h
  | some raw =>
    simp only [hget] at h
    refine List.mem_flatMap.mpr ⟨raw, SortedMap.mem_values.mpr ⟨_, hget⟩, ?_⟩
    split_ifs at h
    · split at h
      · cases h
      · exact checkReads_outputs h
    · split at h <;> cases h

/-- The needs an invoke step's bindings add are those of its `with:` reads. -/
theorem boundFor_withNeeds {host : Host} {level : Level} {siblings : List StepSpec}
    {exposed : Exposed} {step : StepSpec} {inputs : List ParamSpec}
    (hd : (boundFor host level siblings exposed step inputs).problems = []) {r : Text}
    (hr : r ∈ (boundFor host level siblings exposed step inputs).withNeeds) :
    ∃ read ∈ withReads host step, ReadNeeds siblings exposed step.needs read r := by
  unfold boundFor bindWith at hd hr
  simp only [List.append_eq_nil_iff] at hd
  obtain ⟨read, hread, hneeds⟩ := outputView_spec hd.2 hr
  obtain ⟨b, hb, hread⟩ := List.mem_flatMap.mp hread
  obtain ⟨p, -, rfl⟩ := List.mem_map.mp hb
  exact ⟨read, bindOne_reads hread, hneeds⟩

/-- The steps a library step's templates read are siblings it needs or exposed outputs. -/
theorem libraryStepScope_needs {host : Host} {step : StepSpec} {level : Level}
    {siblings : List StepSpec} {exposed : Exposed}
    (hd : (libraryStepScope host step level siblings exposed).2 = []) {r : Text}
    (hr : r ∈ (libraryStepScope host step level siblings exposed).1.needs) :
    r ∈ step.needs ∨ ∃ read ∈ stepReads host step, ReadNeeds siblings exposed step.needs read r := by
  simp only [libraryStepScope, List.append_eq_nil_iff] at hd hr
  rcases mem_pushAllNew.mp hr with hr | hr
  · exact .inl hr
  · obtain ⟨read, hread, hneeds⟩ := outputView_spec hd.2 hr
    obtain ⟨f, hf, hread⟩ := List.mem_flatMap.mp hread
    obtain ⟨g, hg, rfl⟩ := List.mem_map.mp hf
    exact .inr ⟨read, List.mem_append_left _ (List.mem_flatMap.mpr ⟨g, hg, checkReads_outputs hread⟩),
      hneeds⟩

section level

variable {below : Option LevelRel} {level : Level} {stack : List Frame} {exposed : Exposed}
  {pieces : List Piece}

theorem readNeeds_stepRef (hexposed : ExposedSound tc libs (pieces.map (·.step)) exposed)
    (hpieces : ∀ p ∈ pieces, Adds tc libs below level stack (pieces.map (·.step)) exposed p)
    {step : StepSpec} {needs : List Text} {read : Text × Option Text}
    (hread : read ∈ stepReads tc.toHost step) {r : Text}
    (h : ReadNeeds (pieces.map (·.step)) exposed needs read r) :
    StepRef tc libs (pieces.map (·.step)) step r := by
  obtain ⟨name, field⟩ := read
  rcases h with ⟨outs, o, hget, ho, hfield, rfl⟩ | ⟨t, ht, -, hname, -, rfl⟩
  · obtain ⟨s, hs, rfl, hm, link, lib, src, iface, hinvokes, hparse, hiface, rfl⟩ :=
      exposed_invokes hexposed hpieces hget
    obtain ⟨spec, hspec, rfl⟩ := List.mem_map.mp ho
    exact .backing hread hs hm hinvokes hparse hiface hspec hfield
  · exact .read hread ht hname

end level

/-- The references of a sealed library's steps are to nodes of it. -/
def RefsInside (tc : Toolchain) (libs : Libraries) (rel : LevelRel) : Prop :=
  ∀ ⦃level : Level⦄ ⦃stack : List Frame⦄ ⦃steps out : List StepSpec⦄,
    rel level stack steps out → level.library.isSome = true → Tidy tc libs steps →
      FileSealed tc libs steps →
      ∀ n ∈ out, ∀ r ∈ n.refs, ∃ t ∈ steps, ∃ m, Named tc libs t r m

theorem inlinedNode_needs (link : OriginEntry) (deploy : Bool) (inside withNeeds : List Text)
    (inv ls : StepSpec) : (inlinedNode link deploy inside withNeeds inv ls).needs =
      inlinedNeeds inv inside withNeeds ls := rfl

theorem inlinedNode_inputs (link : OriginEntry) (deploy : Bool) (inside withNeeds : List Text)
    (inv ls : StepSpec) : (inlinedNode link deploy inside withNeeds inv ls).inputs =
      ls.inputs.map fun is => is.map (namespaceRef inv.id inside) := rfl

/-- The references of a library's step under its invoke step: its own, those of the invoke step
where it has no needs, and those of the invoke step's `with:`. -/
theorem inlinedNode_refs {link : OriginEntry} {deploy : Bool} {inside withNeeds : List Text}
    {inv ls : StepSpec} {r : Text}
    (h : r ∈ (inlinedNode link deploy inside withNeeds inv ls).refs) :
    (∃ r' ∈ ls.refs, r = namespaceRef inv.id inside r') ∨ (ls.needs = [] ∧ r ∈ inv.needs) ∨
      r ∈ withNeeds := by
  rcases List.mem_append.mp h with h | h
  · rw [inlinedNode_needs, inlinedNeeds, mem_pushAllNew] at h
    split_ifs at h with hroot
    · exact h.elim (fun h => .inr (.inl ⟨hroot, h⟩)) (fun h => .inr (.inr h))
    · rcases h with h | h
      · obtain ⟨r', hr', rfl⟩ := List.mem_map.mp h
        exact .inl ⟨r', List.mem_append_left _ hr', rfl⟩
      · exact .inr (.inr h)
  · rw [inlinedNode_inputs] at h
    cases hin : ls.inputs with
    | none => simp [hin] at h
    | some is =>
      simp only [hin, Option.map_some, Option.getD_some, List.mem_map] at h
      obtain ⟨r', hr', rfl⟩ := h
      exact .inl ⟨r', List.mem_append_right _ (by simpa [hin] using hr'), rfl⟩

theorem seamStep_refs {seam : Seam} {s : StepSpec} {r : Text} (h : r ∈ (seamStep seam s).refs) :
    ∃ r' ∈ s.refs, r ∈ exits seam r' := by
  rcases List.mem_append.mp h with h | h
  · obtain ⟨r', hr', hx⟩ := mem_rewriteThroughSeam.mp h
    exact ⟨r', List.mem_append_left _ hr', hx⟩
  · cases hin : s.inputs with
    | none => simp [seamStep, hin] at h
    | some is =>
      simp only [seamStep, hin, Option.map_some, Option.getD_some] at h
      obtain ⟨r', hr', hx⟩ := mem_rewriteThroughSeam.mp h
      exact ⟨r', List.mem_append_right _ (by simpa [hin] using hr'), hx⟩

theorem libraryStepScope_refs {host : Host} {step : StepSpec} {level : Level}
    {siblings : List StepSpec} {exposed : Exposed}
    (hd : (libraryStepScope host step level siblings exposed).2 = []) {r : Text}
    (hr : r ∈ (libraryStepScope host step level siblings exposed).1.refs) :
    r ∈ step.refs ∨ ∃ read ∈ stepReads host step, ReadNeeds siblings exposed step.needs read r := by
  rcases List.mem_append.mp hr with hr | hr
  · exact (libraryStepScope_needs hd hr).imp_left (List.mem_append_left _)
  · exact .inl (List.mem_append_right _ hr)

/-- A step that runs, an invoke step's gate and the copies of its library refer to names of the
level they are written at. -/
theorem Adds.refs_isName {below : Option LevelRel} {level : Level} {stack : List Frame}
    {exposed : Exposed} {pieces : List Piece}
    (hlib : level.library.isSome = true)
    (hexposed : ExposedSound tc libs (pieces.map (·.step)) exposed)
    (hpieces : ∀ p ∈ pieces, Adds tc libs below level stack (pieces.map (·.step)) exposed p)
    (htidy : Tidy tc libs (pieces.map (·.step)))
    (hsealed : FileSealed tc libs (pieces.map (·.step)))
    (hnodes : ∀ rel, below = some rel → NodesNamed tc libs rel)
    (ih : ∀ rel, below = some rel → RefsInside tc libs rel) {p : Piece} (hp : p ∈ pieces)
    {n : StepSpec} (hn : n ∈ p.nodes) {r : Text} (hr : r ∈ n.refs) :
    ∃ t ∈ pieces.map (·.step), IsName tc libs t r := by
  have hmem : p.step ∈ pieces.map (·.step) := List.mem_map.mpr ⟨p, hp, rfl⟩
  have hwritten : r ∈ p.step.refs → ∃ t ∈ pieces.map (·.step), IsName tc libs t r :=
    fun hr => hsealed p.step hmem r (.written hr)
  have hreads : ∀ needs, ∀ read ∈ stepReads tc.toHost p.step,
      ReadNeeds (pieces.map (·.step)) exposed needs read r →
        ∃ t ∈ pieces.map (·.step), IsName tc libs t r :=
    fun needs read hread h => hsealed p.step hmem r (readNeeds_stepRef hexposed hpieces hread h)
  have hadds := hpieces p hp
  cases hadds with
  | @run step hinvoke hscope =>
    obtain rfl := List.mem_singleton.mp hn
    have hown : ownStep tc.toHost level (pieces.map (·.step)) exposed step =
        (libraryStepScope tc.toHost step level (pieces.map (·.step)) exposed).1 := by
      obtain ⟨l, hl⟩ := Option.isSome_iff_exists.mp hlib
      simp [ownStep, hl]
    rw [hown] at hr
    rcases libraryStepScope_refs (hscope hlib) hr with hr | ⟨read, hread, hr⟩
    · exact hwritten hr
    · exact hreads _ read hread hr
  | @gate step raw name def_ invs hinvoke htarget _ hdef hbound _ hinvs =>
    obtain ⟨inv, hinv, rfl⟩ := List.mem_map.mp hn
    have hinst := instancesOf_spec hinvs hinv
    rcases List.mem_append.mp hr with hr | hr
    · rcases mem_pushAllNew.mp hr with hr | hr
      · exact hwritten (List.mem_append_left _ (hinst.needs ▸ hr))
      · obtain ⟨read, hread, hr⟩ := boundFor_withNeeds hbound hr
        exact hreads _ read (List.mem_append_right _ hread) hr
    · refine hwritten (List.mem_append_right _ ?_)
      rw [← hinst.inputs]
      exact hr
  | @library step raw target source lib rel resolved invs hinvoke htarget _ _ hsource hparse hbelow
      _ hbound _ hresolved hinvs =>
    have hinvokes : Invokes tc libs step _ lib :=
      ⟨raw, target, hinvoke, htarget, links_of_librarySource hsource hparse⟩
    obtain ⟨inv, hinv, hn⟩ := List.mem_flatMap.mp hn
    obtain ⟨ls, hls, rfl⟩ := List.mem_map.mp hn
    rcases inlinedNode_refs hr with ⟨r', hr', rfl⟩ | ⟨-, hr⟩ | hr
    · have hinner := ih rel hbelow hresolved rfl (htidy.inside hmem hinvokes)
        (htidy.isSealed _ .self step hmem _ lib hinvokes)
      obtain ⟨t, ht, m, hnamed⟩ := hinner ls hls r' hr'
      have hin : r' ∈ resolved.map (·.id) := by
        obtain ⟨k, hk, hid, -⟩ := (hnodes rel hbelow hresolved r' m).mpr ⟨t, ht, hnamed⟩
        exact List.mem_map.mpr ⟨k, hk, hid⟩
      obtain ⟨x, hx, hid⟩ := (exists_instance_id hinvs).mp ⟨inv, hinv, rfl⟩
      refine ⟨step, hmem, .inr ⟨m, (named_library hinvokes).mpr ⟨x, hx, t, ht, r', ?_, hnamed⟩⟩⟩
      rw [namespaceRef, if_pos hin, hid]
    · refine hwritten (List.mem_append_left _ ?_)
      rw [← (instancesOf_spec hinvs hinv).needs]
      exact hr
    · obtain ⟨read, hread, hr⟩ := boundFor_withNeeds hbound hr
      exact hreads _ read (List.mem_append_right _ hread) hr

theorem LevelInlines.refsInside {below : Option LevelRel}
    (hnodes : ∀ rel, below = some rel → NodesNamed tc libs rel)
    (ih : ∀ rel, below = some rel → RefsInside tc libs rel) :
    RefsInside tc libs (LevelInlines tc libs below) := by
  intro level stack steps out h hlib htidy hsealed n hn r hr
  cases h with
  | @mk _ _ pieces exposed hexposed _ _ hpieces =>
    obtain ⟨k, hk, rfl⟩ := List.mem_map.mp hn
    obtain ⟨p, hp, hk⟩ := List.mem_flatMap.mp hk
    obtain ⟨r', hr', hx⟩ := seamStep_refs hr
    obtain ⟨t, ht, hname⟩ :=
      Adds.refs_isName hlib hexposed hpieces htidy hsealed hnodes ih hp hk hr'
    obtain ⟨q, hq, rfl⟩ := List.mem_map.mp ht
    exact ⟨q.step, ht, named_of_mem_exits (htidy.apart _ .self) hpieces hnodes hq hname hx⟩

/-- The names an invoke step itself refers to: its needs, and the steps behind the outputs its
`with:` reads. -/
inductive CallRef (tc : Toolchain) (libs : Libraries) (file : List StepSpec) (step : StepSpec) :
    Text → Prop
  | need {r : Text} (hr : r ∈ step.needs) : CallRef tc libs file step r
  | read {name : Text} {field : Option Text} {t : StepSpec}
      (hread : (name, field) ∈ withReads tc.toHost step) (ht : t ∈ file)
      (hname : namesStep name t = true) : CallRef tc libs file step t.id
  | backing {field : Option Text} {t : StepSpec} {link : OriginEntry} {lib : PipelineIr}
      {src : Text} {iface : Interface} {o : OutputSpec}
      (hread : (t.id, field) ∈ withReads tc.toHost step) (ht : t ∈ file) (hmatrix : t.matrix = none)
      (hinvokes : Invokes tc libs t link lib) (hparse : tc.parseYaml src = .ok lib)
      (hiface : tc.parseInterface src = some iface) (ho : o ∈ iface.outputs)
      (hfield : field.all (· = o.name) = true) : CallRef tc libs file step (ns t.id o.name)

/-- The nodes a copy may refer to: its own, and those its calls refer to where they stand. -/
def RefIn (tc : Toolchain) (libs : Libraries) (calls : List Call) (pre : Text)
    (file : List StepSpec) (d : Text) : Prop :=
  (∃ t ∈ file, ∃ b m, Named tc libs t b m ∧ d = pre ++ b) ∨
    ∃ call ∈ calls, ∃ r, CallRef tc libs call.file call.step r ∧
      ∃ t ∈ call.file, ∃ b m, Named tc libs t b m ∧ (r = t.id ∨ r = b) ∧ d = call.pre ++ b

/-- In a sealed library the nodes of every copy refer to that copy or to what its calls do. -/
def CopiesSealed (tc : Toolchain) (libs : Libraries) (rel : LevelRel) : Prop :=
  ∀ ⦃level : Level⦄ ⦃stack : List Frame⦄ ⦃steps out : List StepSpec⦄,
    rel level stack steps out → level.library.isSome = true → Tidy tc libs steps →
      FileSealed tc libs steps →
      ∀ calls pre file, Copy tc libs steps calls pre file → ∀ s ∈ file, ∀ a m,
        Named tc libs s a m → ∃ n ∈ out, n.id = pre ++ a ∧ n.matrix = m ∧
          ∀ d ∈ n.refs, RefIn tc libs calls pre file d

theorem ns_pre (id pre b : Text) : ns id pre ++ b = ns id (pre ++ b) := ns_append id pre b

/-- What a copy refers to inside a library, its invoke step's copy refers to under its id. -/
theorem RefIn.under {calls : List Call} {pre id : Text} {file : List StepSpec} {d : Text}
    (h : RefIn tc libs calls pre file d) (outer : List Call) :
    RefIn tc libs (calls.map (Call.under id) ++ outer) (ns id pre) file (ns id d) := by
  rcases h with ⟨t, ht, b, m, hnamed, rfl⟩ | ⟨call, hcall, r, hr, t, ht, b, m, hnamed, hrb, rfl⟩
  · exact .inl ⟨t, ht, b, m, hnamed, (ns_pre id pre b).symm⟩
  · refine .inr ⟨call.under id, List.mem_append_left _ (List.mem_map.mpr ⟨call, hcall, rfl⟩), r, hr,
      t, ht, b, m, hnamed, hrb, (ns_pre id call.pre b).symm⟩

section level

variable {below : Option LevelRel} {level : Level} {stack : List Frame} {exposed : Exposed}
  {pieces : List Piece}

theorem callRef_of_withNeeds (hexposed : ExposedSound tc libs (pieces.map (·.step)) exposed)
    (hpieces : ∀ p ∈ pieces, Adds tc libs below level stack (pieces.map (·.step)) exposed p)
    {step : StepSpec} {inputs : List ParamSpec}
    (hbound : (boundFor tc.toHost level (pieces.map (·.step)) exposed step inputs).problems = [])
    {r : Text}
    (hr : r ∈ (boundFor tc.toHost level (pieces.map (·.step)) exposed step inputs).withNeeds) :
    CallRef tc libs (pieces.map (·.step)) step r := by
  obtain ⟨⟨name, field⟩, hread, hneeds⟩ := boundFor_withNeeds hbound hr
  rcases hneeds with ⟨outs, o, hget, ho, hfield, rfl⟩ | ⟨t, ht, -, hname, -, rfl⟩
  · obtain ⟨s, hs, rfl, hm, link, lib, src, iface, hinvokes, hparse, hiface, rfl⟩ :=
      exposed_invokes hexposed hpieces hget
    obtain ⟨spec, hspec, rfl⟩ := List.mem_map.mp ho
    exact .backing hread hs hm hinvokes hparse hiface hspec hfield
  · exact .read hread ht hname

/-- A copy of an invoked library: each reference is one of the library's own under the invoke
step's id, or one the invoke step makes. -/
theorem copy_refs (hexposed : ExposedSound tc libs (pieces.map (·.step)) exposed)
    (hpieces : ∀ p ∈ pieces, Adds tc libs below level stack (pieces.map (·.step)) exposed p)
    (htidy : Tidy tc libs (pieces.map (·.step)))
    (hnodes : ∀ rel, below = some rel → NodesNamed tc libs rel)
    (hinside : ∀ rel, below = some rel → RefsInside tc libs rel)
    (ih : ∀ rel, below = some rel → CopiesSealed tc libs rel)
    {s : StepSpec} (hs : s ∈ pieces.map (·.step)) {link : OriginEntry} {lib : PipelineIr}
    (hinvokes : Invokes tc libs s link lib) {x : Text} (hx : x ∈ suffixes tc s.matrix)
    {calls : List Call} {pre : Text} {file : List StepSpec}
    (hcopy : Copy tc libs lib.steps calls pre file) {t : StepSpec} (ht : t ∈ file) {a : Text}
    {m : Option Matrix} (hnamed : Named tc libs t a m) :
    ∃ n ∈ (pieces.flatMap (·.nodes)).map (seamStep (seamOf pieces)),
      n.id = ns (s.id ++ x) pre ++ a ∧ n.matrix = m ∧ ∀ d ∈ n.refs,
        (∃ d', RefIn tc libs calls pre file d' ∧ d = ns (s.id ++ x) d') ∨
        ∃ r, CallRef tc libs (pieces.map (·.step)) s r ∧ d ∈ exits (seamOf pieces) r := by
  obtain ⟨p, hp, rfl⟩ := List.mem_map.mp hs
  have hadds := hpieces p hp
  cases hadds with
  | run hinvoke => exact (hinvokes.not_written hinvoke).elim
  | gate hinvoke htarget _ hdef =>
    exact (hinvokes.not_gate ⟨_, _, _, hinvoke, htarget, hdef, rfl⟩).elim
  | @library step raw target source lib' rel resolved invs hinvoke htarget _ _ hsource hparse hbelow
      _ hbound _ hresolved hinvs =>
    obtain ⟨rfl, rfl⟩ := hinvokes.unique
      ⟨raw, target, hinvoke, htarget, links_of_librarySource hsource hparse⟩
    have hlib := htidy.inside hs hinvokes
    have hsealed := htidy.isSealed _ .self step hs _ lib hinvokes
    obtain ⟨ls, hls, hlsid, hlsm, hlsrefs⟩ :=
      ih rel hbelow hresolved rfl hlib hsealed calls pre file hcopy t ht a m hnamed
    obtain ⟨inv, hinv, hinvid⟩ := (exists_instance_id hinvs).mpr ⟨x, hx, rfl⟩
    obtain ⟨hid, -, hmatrix⟩ := inlinedNode_fields (source.link (tc.sha256Hex source.src))
      (step.deploy || lib.deploy) (resolved.map (·.id))
      (boundFor tc.toHost level (pieces.map (·.step)) exposed step lib.interface.inputs).withNeeds
      inv ls
    refine ⟨_, List.mem_map.mpr ⟨_, List.mem_flatMap.mpr ⟨_, hp,
      List.mem_flatMap.mpr ⟨inv, hinv, List.mem_map.mpr ⟨ls, hls, rfl⟩⟩⟩, rfl⟩, ?_, ?_, ?_⟩
    · exact hid.trans (by rw [hinvid, hlsid, ns_pre])
    · exact hmatrix.trans hlsm
    · intro d hd
      obtain ⟨r, hr, hdr⟩ := seamStep_refs hd
      rcases inlinedNode_refs hr with ⟨r', hr', rfl⟩ | ⟨-, hr⟩ | hr
      · -- the library's own reference: a node of its copy, which no seam moves
        obtain ⟨u, hu, mu, hnamedu⟩ := hinside rel hbelow hresolved rfl hlib hsealed ls hls r' hr'
        obtain ⟨k, hk, hkid, -⟩ := (hnodes rel hbelow hresolved r' mu).mpr ⟨u, hu, hnamedu⟩
        have hin : r' ∈ resolved.map (·.id) := List.mem_map.mpr ⟨k, hk, hkid⟩
        rw [namespaceRef, if_pos hin, hinvid] at hdr
        have hnode : Named tc libs step (ns (step.id ++ x) r') mu :=
          (named_library hinvokes).mpr ⟨x, hx, u, hu, r', rfl, hnamedu⟩
        rw [exits_node (htidy.apart _ .self) hpieces hp hnode] at hdr
        exact .inl ⟨r', hlsrefs r' hr', List.mem_singleton.mp hdr⟩
      · rw [(instancesOf_spec hinvs hinv).needs] at hr
        exact .inr ⟨r, .need hr, hdr⟩
      · exact .inr ⟨r, callRef_of_withNeeds hexposed hpieces hbound hr, hdr⟩

end level

theorem CallRef.stepRef {file : List StepSpec} {s : StepSpec} {r : Text}
    (h : CallRef tc libs file s r) : StepRef tc libs file s r := by
  cases h with
  | need hr => exact .written (List.mem_append_left _ hr)
  | read hread ht hname => exact .read (List.mem_append_right _ hread) ht hname
  | backing hread ht hm hinvokes hparse hiface ho hfield =>
    exact .backing (List.mem_append_right _ hread) ht hm hinvokes hparse hiface ho hfield

theorem LevelInlines.copiesSealed {below : Option LevelRel}
    (hnodes : ∀ rel, below = some rel → NodesNamed tc libs rel)
    (hinside : ∀ rel, below = some rel → RefsInside tc libs rel)
    (ih : ∀ rel, below = some rel → CopiesSealed tc libs rel) :
    CopiesSealed tc libs (LevelInlines tc libs below) := by
  intro level stack steps out h hlib htidy hsealed calls pre file hcopy t ht a m hnamed
  have hwhole := LevelInlines.refsInside hnodes hinside h hlib htidy hsealed
  have hnamedIff := LevelInlines.nodesNamed hnodes h
  cases h with
  | @mk _ _ pieces exposed hexposed _ _ hpieces =>
    cases hcopy with
    | whole =>
      obtain ⟨n, hn, hid, hm⟩ := (hnamedIff a m).mpr ⟨t, ht, hnamed⟩
      refine ⟨n, hn, hid, hm, fun d hd => ?_⟩
      obtain ⟨u, hu, mu, hu'⟩ := hwhole n hn d hd
      exact .inl ⟨u, hu, d, mu, hu', rfl⟩
    | inside hs hinvokes hx hcopy =>
      obtain ⟨n, hn, hid, hm, hrefs'⟩ := copy_refs hexposed hpieces htidy hnodes hinside ih hs
        hinvokes hx hcopy ht hnamed
      refine ⟨n, hn, hid, hm, fun d hd => ?_⟩
      rcases hrefs' d hd with ⟨d', hd', rfl⟩ | ⟨r, hr, hdr⟩
      · exact hd'.under _
      · obtain ⟨u, hu, hname⟩ := hsealed _ hs r hr.stepRef
        obtain ⟨q, hq, rfl⟩ := List.mem_map.mp hu
        have hnode := named_of_mem_exits (htidy.apart _ .self) hpieces hnodes hq hname hdr
        obtain ⟨mu, hu'⟩ := hnode
        refine .inr ⟨_, List.mem_append_right _ List.mem_cons_self, r, hr, q.step, hu, d, mu, hu', ?_,
          rfl⟩
        rcases hname with rfl | ⟨mr, hr'⟩
        · exact .inl rfl
        · rw [exits_node (htidy.apart _ .self) hpieces hq hr'] at hdr
          exact .inr (List.mem_singleton.mp hdr).symm

/-- What is known of the references of a level. -/
structure LevelRefs (tc : Toolchain) (libs : Libraries) (rel : LevelRel) : Prop where
  nodesNamed : NodesNamed tc libs rel
  refsInside : RefsInside tc libs rel
  copiesSealed : CopiesSealed tc libs rel

theorem LevelInlines.levelRefs (below : Option LevelRel)
    (ih : ∀ rel, below = some rel → LevelRefs tc libs rel) :
    LevelRefs tc libs (LevelInlines tc libs below) := by
  have hnodes : ∀ rel, below = some rel → NodesNamed tc libs rel :=
    fun rel hrel => (ih rel hrel).nodesNamed
  have hinside : ∀ rel, below = some rel → RefsInside tc libs rel :=
    fun rel hrel => (ih rel hrel).refsInside
  exact ⟨LevelInlines.nodesNamed hnodes, LevelInlines.refsInside hnodes hinside,
    LevelInlines.copiesSealed hnodes hinside fun rel hrel => (ih rel hrel).copiesSealed⟩

theorem Copy.named {steps file : List StepSpec} {calls : List Call} {pre : Text}
    (h : Copy tc libs steps calls pre file) {t : StepSpec} (ht : t ∈ file) {b : Text}
    {m : Option Matrix} (hnamed : Named tc libs t b m) : ∃ s ∈ steps, Named tc libs s (pre ++ b) m := by
  induction h with
  | whole => exact ⟨t, ht, hnamed⟩
  | inside hs hinvokes hx _ ih =>
    obtain ⟨u, hu, hnamedu⟩ := ih ht
    refine ⟨_, hs, ?_⟩
    rw [ns_pre]
    exact .library hinvokes hx hu hnamedu

/-- Each call of a copy stands in a copy of its own file. -/
theorem Copy.call {steps file : List StepSpec} {calls : List Call} {pre : Text}
    (h : Copy tc libs steps calls pre file) {call : Call} (hcall : call ∈ calls) :
    ∃ outer, Copy tc libs steps outer call.pre call.file := by
  induction h generalizing call with
  | whole => cases hcall
  | inside hs hinvokes hx _ ih =>
    rcases List.mem_append.mp hcall with hcall | hcall
    · obtain ⟨inner, hinner, rfl⟩ := List.mem_map.mp hcall
      obtain ⟨outer, houter⟩ := ih hinner
      exact ⟨_, .inside hs hinvokes hx houter⟩
    · obtain rfl := List.mem_singleton.mp hcall
      exact ⟨[], .whole⟩

theorem fanStep_refs {ids : Instances} {s : StepSpec} {r : Text} (h : r ∈ (fanStep ids s).refs) :
    ∃ r' ∈ s.refs, r ∈ exits ids r' := seamStep_refs h

theorem instanceIds_get (tc : Toolchain) (steps : List StepSpec) (d : Text) :
    (∃ k ∈ steps, k.id = d ∧ (instanceIds tc steps).get d = some ((instances tc k).map (·.id))) ∨
      (∀ k ∈ steps, k.id ≠ d) ∧ (instanceIds tc steps).get d = none := by
  have hfold : ∀ ids : Instances,
      (∃ k ∈ steps, k.id = d ∧ (steps.foldl
        (fun ids s => ids.insert s.id ((instances tc s).map (·.id))) ids).get d =
          some ((instances tc k).map (·.id))) ∨
      (∀ k ∈ steps, k.id ≠ d) ∧ (steps.foldl
        (fun ids s => ids.insert s.id ((instances tc s).map (·.id))) ids).get d = ids.get d := by
    induction steps with
    | nil => exact fun ids => .inr ⟨by simp, rfl⟩
    | cons s ss ih =>
      intro ids
      rcases ih (ids.insert s.id ((instances tc s).map (·.id))) with ⟨k, hk, hid, hget⟩ | ⟨hne, hget⟩
      · exact .inl ⟨k, List.mem_cons_of_mem _ hk, hid, hget⟩
      · rw [SortedMap.get_insert] at hget
        by_cases hs : s.id = d
        · rw [if_pos hs.symm] at hget
          exact .inl ⟨s, List.mem_cons_self, hs, hget⟩
        · rw [if_neg fun h => hs h.symm] at hget
          refine .inr ⟨fun k hk => ?_, hget⟩
          rcases List.mem_cons.mp hk with rfl | hk
          · exact hs
          · exact hne k hk
  exact hfold ∅

section compiled

variable {authored ir : PipelineIr} {inlined : List StepSpec}

/-- The ids of the instances a reference to a node stands for. -/
theorem Compiles.exits_named (h : Compiles tc libs authored inlined ir)
    (hapart : NamesApart tc libs authored.steps) {s : StepSpec} (hs : s ∈ authored.steps) {d : Text}
    {m : Option Matrix} (hnamed : Named tc libs s d m) {c : Text} :
    c ∈ exits (instanceIds tc inlined) d ↔ ∃ y ∈ suffixes tc m, c = d ++ y := by
  have hnodes := Inlines.nodesNamed maxInvokeDepth h.inlines
  rcases instanceIds_get tc inlined d with ⟨k, hk, rfl, hget⟩ | ⟨hne, -⟩
  · obtain ⟨t, ht, hk'⟩ := (hnodes k.id k.matrix).mp ⟨k, hk, rfl, rfl⟩
    obtain rfl := hapart.eq_of_isName hs ht (.inr ⟨m, hnamed⟩) (.inr ⟨_, hk'⟩)
    obtain rfl := hapart.matrix s hs _ _ _ hnamed hk'
    rw [exits, hget, ← exists_instance_id (h.expands k hk)]
    simp
  · obtain ⟨k, hk, hid, -⟩ := (hnodes d m).mpr ⟨s, hs, hnamed⟩
    exact absurd hid (hne k hk)

theorem Compiles.exits_unnamed (h : Compiles tc libs authored inlined ir) {d : Text}
    (hd : ∀ s ∈ authored.steps, ∀ m, ¬ Named tc libs s d m) :
    exits (instanceIds tc inlined) d = [d] := by
  rcases instanceIds_get tc inlined d with ⟨k, hk, rfl, -⟩ | ⟨-, hget⟩
  · obtain ⟨t, ht, hk'⟩ :=
      (Inlines.nodesNamed maxInvokeDepth h.inlines k.id k.matrix).mp ⟨k, hk, rfl, rfl⟩
    exact absurd hk' (hd t ht _)
  · rw [exits, hget]
    rfl

/-- A compiled step's references are to compiled steps. -/
theorem Compiles.refs_mem (h : Compiles tc libs authored inlined ir) {n : StepSpec}
    (hn : n ∈ ir.steps) {c : Text} (hc : c ∈ n.refs) : c ∈ ir.steps.map (·.id) := by
  have hvalid := (List.append_eq_nil_iff.mp h.valid).2
  have hproblems : stepProblems tc.toHost (ir.steps.map (·.id)) n = [] := by
    have := List.flatMap_eq_nil_iff.mp hvalid n hn
    simpa using this
  simp only [stepProblems, List.append_eq_nil_iff, List.map_eq_nil_iff,
    List.filter_eq_nil_iff, decide_eq_true_eq, not_not] at hproblems
  obtain ⟨⟨⟨⟨-, hneeds⟩, hinputs⟩, -⟩, -⟩ := hproblems
  rcases List.mem_append.mp hc with hc | hc
  · exact hneeds c hc
  · exact hneeds c (hinputs c hc)

/-- The compiled nodes of a step's copy. -/
theorem Compiles.id_named (h : Compiles tc libs authored inlined ir) {c : Text}
    (hc : c ∈ ir.steps.map (·.id)) :
    ∃ t ∈ authored.steps, ∃ b m y, Named tc libs t b m ∧ y ∈ suffixes tc m ∧ c = b ++ y := by
  obtain ⟨n, hn, rfl⟩ := List.mem_map.mp hc
  rw [h.steps] at hn
  obtain ⟨i, hi, rfl⟩ := List.mem_map.mp hn
  obtain ⟨k, hk, hi⟩ := List.mem_flatMap.mp hi
  obtain ⟨y, hy, hid⟩ := (exists_instance_id (h.expands k hk)).mp ⟨i, hi, rfl⟩
  obtain ⟨t, ht, hnamed⟩ :=
    (Inlines.nodesNamed maxInvokeDepth h.inlines k.id k.matrix).mp ⟨k, hk, rfl, rfl⟩
  exact ⟨t, ht, k.id, k.matrix, y, hnamed, hy, hid⟩

/-- The compiled nodes a copy may refer to: its own, and those its calls refer to. -/
def CompiledRef (tc : Toolchain) (libs : Libraries) (calls : List Call) (pre : Text)
    (file : List StepSpec) (c : Text) : Prop :=
  (∃ t ∈ file, ∃ b m y, Named tc libs t b m ∧ y ∈ suffixes tc m ∧ c = pre ++ (b ++ y)) ∨
    ∃ call ∈ calls, ∃ r, CallRef tc libs call.file call.step r ∧
      ∃ t ∈ call.file, ∃ b m y, Named tc libs t b m ∧ y ∈ suffixes tc m ∧
        (r = t.id ∨ r = b ∨ r = b ++ y) ∧ c = call.pre ++ (b ++ y)

theorem RefIn.compiled (h : Compiles tc libs authored inlined ir)
    (hapart : NamesApart tc libs authored.steps) {calls : List Call} {pre : Text}
    {file : List StepSpec} (hcopy : Copy tc libs authored.steps calls pre file) {d c : Text}
    (hd : RefIn tc libs calls pre file d) (hc : c ∈ exits (instanceIds tc inlined) d) :
    CompiledRef tc libs calls pre file c := by
  rcases hd with ⟨t, ht, b, m, hnamed, rfl⟩ | ⟨call, hcall, r, hr, t, ht, b, m, hnamed, hrb, rfl⟩
  · obtain ⟨s, hs, hs'⟩ := hcopy.named ht hnamed
    obtain ⟨y, hy, rfl⟩ := (h.exits_named hapart hs hs').mp hc
    exact .inl ⟨t, ht, b, m, y, hnamed, hy, List.append_assoc _ _ _⟩
  · obtain ⟨outer, houter⟩ := hcopy.call hcall
    obtain ⟨s, hs, hs'⟩ := houter.named ht hnamed
    obtain ⟨y, hy, rfl⟩ := (h.exits_named hapart hs hs').mp hc
    exact .inr ⟨call, hcall, r, hr, t, ht, b, m, y, hnamed, hy, hrb.imp_right .inl,
      List.append_assoc _ _ _⟩

/-- The nodes of a copy, before matrices are expanded, and what they refer to. -/
theorem Compiles.copy_node (h : Compiles tc libs authored inlined ir)
    (htidy : Tidy tc libs authored.steps) {s : StepSpec} (hs : s ∈ authored.steps)
    {link : OriginEntry} {lib : PipelineIr} (hinvokes : Invokes tc libs s link lib) {x : Text}
    (hx : x ∈ suffixes tc s.matrix) {calls : List Call} {pre : Text} {file : List StepSpec}
    (hcopy : Copy tc libs lib.steps calls pre file) {t : StepSpec} (ht : t ∈ file) {a : Text}
    {m : Option Matrix} (hnamed : Named tc libs t a m) :
    ∃ n ∈ inlined, n.id = ns (s.id ++ x) pre ++ a ∧ n.matrix = m ∧ ∀ d ∈ n.refs,
      RefIn tc libs (calls.map (Call.under (s.id ++ x)) ++ [⟨[], authored.steps, s⟩])
        (ns (s.id ++ x) pre) file d ∨
      CallRef tc libs authored.steps s d ∧ ∀ t ∈ authored.steps, ¬ IsName tc libs t d := by
  obtain ⟨below, hbelow, hfacts⟩ := Inlines.exists_below (@LevelInlines.levelRefs tc libs) maxInvokeDepth
  have hnodes : ∀ rel, below = some rel → NodesNamed tc libs rel :=
    fun rel hrel => (hfacts rel hrel).nodesNamed
  have hinside : ∀ rel, below = some rel → RefsInside tc libs rel :=
    fun rel hrel => (hfacts rel hrel).refsInside
  have hcopies : ∀ rel, below = some rel → CopiesSealed tc libs rel :=
    fun rel hrel => (hfacts rel hrel).copiesSealed
  have hlevel := h.inlines
  rw [hbelow] at hlevel
  generalize authored.steps = steps at hlevel htidy hs ⊢
  cases hlevel with
  | @mk _ _ pieces exposed hexposed _ _ hpieces =>
    obtain ⟨n, hn, hid, hm, hrefs⟩ := copy_refs hexposed hpieces htidy hnodes hinside hcopies hs
      hinvokes hx hcopy ht hnamed
    refine ⟨n, hn, hid, hm, fun d hd => ?_⟩
    rcases hrefs d hd with ⟨d', hd', rfl⟩ | ⟨r, hr, hdr⟩
    · exact .inl (hd'.under _)
    · by_cases hname : ∃ q ∈ pieces, IsName tc libs q.step r
      · obtain ⟨q, hq, hname⟩ := hname
        obtain ⟨mu, hu'⟩ := named_of_mem_exits (htidy.apart _ .self) hpieces hnodes hq hname hdr
        refine .inl (.inr ⟨_, List.mem_append_right _ List.mem_cons_self, r, hr, q.step,
          List.mem_map.mpr ⟨q, hq, rfl⟩, d, mu, hu', ?_, rfl⟩)
        rcases hname with rfl | ⟨mr, hr'⟩
        · exact .inl rfl
        · rw [exits_node (htidy.apart _ .self) hpieces hq hr'] at hdr
          exact .inr (List.mem_singleton.mp hdr).symm
      · push Not at hname
        have hseam : (seamOf pieces).get r = none :=
          seam_get_of_not fun q hq _ hid => hname q hq (.inl hid.symm)
        obtain rfl : d = r := by simpa [exits, hseam] using hdr
        refine .inr ⟨hr, fun t ht => ?_⟩
        obtain ⟨q, hq, rfl⟩ := List.mem_map.mp ht
        exact hname q hq

/-- Where libraries keep to their own names, each reference of an inlined node is to its own copy
of the library, or is one that its invoke step, or an invoke step around it, makes. -/
theorem inlined_refs_self_contained {yaml : Text} (hcompile : compileLibs tc libs yaml = .ok ir)
    (hparse : tc.parseYaml yaml = .ok authored) (htidy : Tidy tc libs authored.steps)
    {call : Call} {calls : List Call} {pre : Text} {file : List StepSpec}
    (hcopy : Copy tc libs authored.steps (call :: calls) pre file) {t : StepSpec} (ht : t ∈ file)
    {a y : Text} {m : Option Matrix} (hnamed : Named tc libs t a m) (hy : y ∈ suffixes tc m)
    {n : StepSpec} (hn : n ∈ ir.steps) (hid : n.id = pre ++ (a ++ y)) :
    ∀ c ∈ n.refs, CompiledRef tc libs (call :: calls) pre file c := by
  obtain ⟨authored', inlined, hparse', -, h⟩ := compileLibs_spec hcompile
  obtain rfl := Except.ok.inj (hparse.symm.trans hparse')
  generalize hcs : call :: calls = cs at hcopy
  have hcopy' := hcopy
  cases hcopy with
  | whole => cases hcs
  | @inside _ _ s link lib x pre' calls' hs hinvokes hx hinner =>
    obtain ⟨k, hk, hkid, hkm, hrefs⟩ := h.copy_node htidy hs hinvokes hx hinner ht hnamed
    -- the instance of that node is the compiled step, since ids are distinct
    obtain ⟨i, hi, hiid⟩ := (exists_instance_id (h.expands k hk)).mpr ⟨y, hkm ▸ hy, rfl⟩
    have hmem : fanStep (instanceIds tc inlined) i ∈ ir.steps := by
      rw [h.steps]
      exact List.mem_map.mpr ⟨i, List.mem_flatMap.mpr ⟨k, hk, hi⟩, rfl⟩
    have hsame : (fanStep (instanceIds tc inlined) i).id = n.id := by
      rw [hid]
      exact hiid.trans (by rw [hkid, List.append_assoc])
    obtain rfl := List.inj_on_of_nodup_map h.nodup hmem hn hsame
    intro c hc
    obtain ⟨d, hd, hcd⟩ := fanStep_refs hc
    have hinst := instancesOf_spec (h.expands k hk) hi
    have hdk : d ∈ k.refs := by
      simpa [StepSpec.refs, hinst.needs, hinst.inputs] using hd
    rcases hrefs d hdk with hd' | ⟨hcall, hunnamed⟩
    · exact hd'.compiled h (htidy.apart _ .self) hcopy' hcd
    · rw [h.exits_unnamed fun t ht m hm => hunnamed t ht (.inr ⟨m, hm⟩)] at hcd
      obtain rfl := List.mem_singleton.mp hcd
      obtain ⟨u, hu, b, mu, z, hnamedu, hz, hc'⟩ := h.id_named (h.refs_mem hn hc)
      exact .inr ⟨_, List.mem_append_right _ List.mem_cons_self, c, hcall, u, hu, b, mu, z, hnamedu,
        hz, .inr (.inr hc'), hc'⟩

end compiled

-- A library that invokes another: the inner copy inherits the needs of the outer invoke step.

def leafLibrary : Text :=
  textLines ["kind: library", "steps:", "  - id: leaf", "    image: busybox"]

def chainLibrary : Text :=
  textLines ["kind: library", "steps:", "  - id: inner", "    invoke: lib:acme/leaf"]

def chainPipeline : Text :=
  textLines ["steps:", "  - id: build", "    image: busybox", "  - id: outer",
    "    invoke: lib:acme/chain", "    needs: [build]"]

def leafStep : StepSpec := { StepSpec.named "leaf".toList with image := "busybox".toList }

def innerStep : StepSpec :=
  { StepSpec.named "inner".toList with invoke := some "lib:acme/leaf".toList }

def buildStep : StepSpec := { StepSpec.named "build".toList with image := "busybox".toList }

def outerStep : StepSpec :=
  { StepSpec.named "outer".toList with
    invoke := some "lib:acme/chain".toList, needs := ["build".toList] }

def chainTools : Toolchain := tableToolchain []
  [(leafLibrary, ⟨2, true, false, ⟨[], []⟩, [], [leafStep]⟩,
      addressText 0x36e4212d46dc49162cfc5318a2a33b46284392b0bc5bbb6b167c4a9fbfc73b95),
    (chainLibrary, ⟨2, true, false, ⟨[], []⟩, [], [innerStep]⟩,
      addressText 0x2173ad5afcbcd75cdfb8394944d32ee83aa606df73c9a063eb09fdca1095643b),
    (chainPipeline, ⟨2, false, false, ⟨[], []⟩, [], [buildStep, outerStep]⟩,
      addressText 0x8ec366ccd9ca54abe2e7e92e27026c39107421ae2fa61ca36a68db166e1d57cc)]

def chainLibraries : Libraries :=
  ⟨∅, SortedMap.ofList
    [("acme/leaf".toList, ⟨leafLibrary, "git:acme/leaf@11c0".toList⟩),
      ("acme/chain".toList, ⟨chainLibrary, "git:acme/chain@9d2e".toList⟩)], ∅⟩

def chainIr : PipelineIr := ⟨2, false, false, ⟨[], []⟩, [], [buildStep, outerStep]⟩

theorem outerStep_invokes : ∃ link, Invokes chainTools chainLibraries outerStep link
    ⟨2, true, false, ⟨[], []⟩, [], [innerStep]⟩ :=
  ⟨_, "lib:acme/chain".toList, .lib "acme/chain".toList, rfl, by rfl, .lib (by rfl) (by rfl)⟩

theorem innerStep_invokes : ∃ link, Invokes chainTools chainLibraries innerStep link
    ⟨2, true, false, ⟨[], []⟩, [], [leafStep]⟩ :=
  ⟨_, "lib:acme/leaf".toList, .lib "acme/leaf".toList, rfl, by rfl, .lib (by rfl) (by rfl)⟩

theorem chain_compiles : ∃ ir, compileLibs chainTools chainLibraries chainPipeline = .ok ir ∧
    ir.steps.map (fun n => (n.id, n.needs)) =
      [("build".toList, []), ("outer/inner/leaf".toList, ["build".toList])] :=
  exists_of_toOption_map (by decide +kernel)

/-- The copy of the inner library, made through both invoke steps. -/
theorem chain_copy : Copy chainTools chainLibraries chainIr.steps
    [⟨"outer/".toList, [innerStep], innerStep⟩, ⟨[], chainIr.steps, outerStep⟩]
    "outer/inner/".toList [leafStep] := by
  obtain ⟨_, houter⟩ := outerStep_invokes
  obtain ⟨_, hinner⟩ := innerStep_invokes
  have hleaf : Copy chainTools chainLibraries [innerStep]
      ([].map (Call.under ("inner".toList ++ [])) ++ [⟨[], [innerStep], innerStep⟩])
      (ns ("inner".toList ++ []) []) [leafStep] :=
    .inside List.mem_cons_self hinner List.mem_cons_self .whole
  exact .inside (List.mem_cons_of_mem _ List.mem_cons_self) houter List.mem_cons_self hleaf

/-- What the nodes inlined through one invoke step refer to, going by that step alone. -/
def SelfContained (tc : Toolchain) (libs : Libraries) (authored ir : PipelineIr) : Prop :=
  ∀ call calls pre file, Copy tc libs authored.steps (call :: calls) pre file →
    ∀ t ∈ file, ∀ a m y, Named tc libs t a m → y ∈ suffixes tc m →
      ∀ n ∈ ir.steps, n.id = pre ++ (a ++ y) → ∀ c ∈ n.refs, CompiledRef tc libs [call] pre file c

theorem nested_not_self_contained : ∃ ir,
    compileLibs chainTools chainLibraries chainPipeline = .ok ir ∧
      chainTools.parseYaml chainPipeline = .ok chainIr ∧
      ¬ SelfContained chainTools chainLibraries chainIr ir := by
  obtain ⟨ir, hir, hsteps⟩ := chain_compiles
  refine ⟨ir, hir, rfl, fun h => ?_⟩
  have hmem : ("outer/inner/leaf".toList, ["build".toList]) ∈
      ir.steps.map (fun n => (n.id, n.needs)) := by
    rw [hsteps]
    exact List.mem_cons_of_mem _ List.mem_cons_self
  obtain ⟨n, hn, hfacts⟩ := List.mem_map.mp hmem
  obtain ⟨hid, hneeds⟩ := Prod.mk.inj hfacts
  have hbuild : "build".toList ∈ n.refs := by
    refine List.mem_append_left _ ?_
    rw [hneeds]
    exact List.mem_cons_self
  have hleaf : Named chainTools chainLibraries leafStep "leaf".toList none := .written rfl
  rcases h _ _ _ _ chain_copy leafStep List.mem_cons_self _ none [] hleaf List.mem_cons_self n hn
    hid _ hbuild with ⟨t, -, b, m, y, -, -, hc⟩ | ⟨call, hcall, r, hr, -⟩
  · exact absurd (congrArg List.head? hc) (by simp)
  · obtain rfl := List.mem_singleton.mp hcall
    cases hr with
    | need hr => cases hr
    | read hread => cases hread
    | backing hread => cases hread

/-- The files the pipeline reaches. -/
theorem chain_reaches {file : List StepSpec}
    (h : Reaches chainTools chainLibraries chainIr.steps file) :
    file = chainIr.steps ∨ file = [innerStep] ∨ file = [leafStep] := by
  obtain ⟨_, houter⟩ := outerStep_invokes
  obtain ⟨_, hinner⟩ := innerStep_invokes
  cases h with
  | self => exact .inl rfl
  | invoke hs hinvokes h =>
    rcases List.mem_cons.mp hs with rfl | hs
    · exact (hinvokes.not_written rfl).elim
    obtain rfl := List.mem_singleton.mp hs
    obtain ⟨-, rfl⟩ := houter.unique hinvokes
    cases h with
    | self => exact .inr (.inl rfl)
    | invoke hs hinvokes h =>
      obtain rfl := List.mem_singleton.mp hs
      obtain ⟨-, rfl⟩ := hinner.unique hinvokes
      cases h with
      | self => exact .inr (.inr rfl)
      | invoke hs hinvokes h =>
        obtain rfl := List.mem_singleton.mp hs
        exact (hinvokes.not_written rfl).elim

theorem leafStep_named {b : Text} {m : Option Matrix} :
    Named chainTools chainLibraries leafStep b m ↔ b = "leaf".toList ∧ m = none :=
  named_written rfl

theorem innerStep_named {b : Text} {m : Option Matrix} :
    Named chainTools chainLibraries innerStep b m ↔ b = "inner/leaf".toList ∧ m = none := by
  obtain ⟨_, hinner⟩ := innerStep_invokes
  rw [named_library hinner]
  simp [leafStep_named, suffixes, innerStep, StepSpec.named, ns]

theorem outerStep_named {b : Text} {m : Option Matrix} :
    Named chainTools chainLibraries outerStep b m ↔ b = "outer/inner/leaf".toList ∧ m = none := by
  obtain ⟨_, houter⟩ := outerStep_invokes
  rw [named_library houter]
  simp [innerStep_named, suffixes, outerStep, StepSpec.named, ns]

theorem chain_tidy : Tidy chainTools chainLibraries chainIr.steps := by
  have hsingle : ∀ s : StepSpec, (∀ b m m', Named chainTools chainLibraries s b m →
      Named chainTools chainLibraries s b m' → m = m') →
      NamesApart chainTools chainLibraries [s] := by
    intro s hs
    refine ⟨List.pairwise_singleton _ _, fun t ht => ?_⟩
    obtain rfl := List.mem_singleton.mp ht
    exact hs
  refine ⟨fun file hfile => ?_, fun file hfile s hs link lib hinvokes => ?_⟩
  · rcases chain_reaches hfile with rfl | rfl | rfl
    · refine ⟨List.pairwise_pair.mpr ?_, fun s hs => ?_⟩
      · intro r hbuild houter
        have hr : r = "build".toList := by
          rcases hbuild with rfl | ⟨m, hm⟩
          · rfl
          · exact ((named_written rfl).mp hm).1
        subst hr
        rcases houter with hr | ⟨m, hm⟩
        · exact absurd hr (by decide)
        · exact absurd (outerStep_named.mp hm).1 (by decide)
      · intro b m m' hm hm'
        rcases List.mem_cons.mp hs with rfl | hs
        · rw [((named_written rfl).mp hm).2, ((named_written rfl).mp hm').2]
        · obtain rfl := List.mem_singleton.mp hs
          rw [(outerStep_named.mp hm).2, (outerStep_named.mp hm').2]
    · exact hsingle _ fun b m m' hm hm' => by rw [(innerStep_named.mp hm).2, (innerStep_named.mp hm').2]
    · exact hsingle _ fun b m m' hm hm' => by rw [(leafStep_named.mp hm).2, (leafStep_named.mp hm').2]
  · obtain ⟨_, houter⟩ := outerStep_invokes
    obtain ⟨_, hinner⟩ := innerStep_invokes
    have hsealed : ∀ t : StepSpec, t.refs = [] → stepReads chainTools.toHost t = [] →
        FileSealed chainTools chainLibraries [t] := by
      intro t hrefs hreads u hu r hr
      obtain rfl := List.mem_singleton.mp hu
      cases hr with
      | written hr => simp [hrefs] at hr
      | read hread => simp [hreads] at hread
      | backing hread => simp [hreads] at hread
    rcases chain_reaches hfile with rfl | rfl | rfl
    · rcases List.mem_cons.mp hs with rfl | hs
      · exact (hinvokes.not_written rfl).elim
      · obtain rfl := List.mem_singleton.mp hs
        obtain ⟨-, rfl⟩ := houter.unique hinvokes
        exact hsealed innerStep rfl (by decide +kernel)
    · obtain rfl := List.mem_singleton.mp hs
      obtain ⟨-, rfl⟩ := hinner.unique hinvokes
      exact hsealed leafStep rfl (by decide +kernel)
    · obtain rfl := List.mem_singleton.mp hs
      exact (hinvokes.not_written rfl).elim

/-- The inner library's node under the example's two invoke steps may refer to `build`, which
the outer one needs. -/
theorem inlined_refs_self_contained_chain : ∃ ir n,
    compileLibs chainTools chainLibraries chainPipeline = .ok ir ∧ n ∈ ir.steps ∧
      n.id = "outer/inner/leaf".toList ∧ n.needs = ["build".toList] ∧
      ∀ c ∈ n.refs, CompiledRef chainTools chainLibraries
        [⟨"outer/".toList, [innerStep], innerStep⟩, ⟨[], chainIr.steps, outerStep⟩]
        "outer/inner/".toList [leafStep] c := by
  obtain ⟨ir, hir, hsteps⟩ := chain_compiles
  have hmem : ("outer/inner/leaf".toList, ["build".toList]) ∈
      ir.steps.map (fun n => (n.id, n.needs)) := by
    rw [hsteps]
    exact List.mem_cons_of_mem _ List.mem_cons_self
  obtain ⟨n, hn, hfacts⟩ := List.mem_map.mp hmem
  obtain ⟨hid, hneeds⟩ := Prod.mk.inj hfacts
  exact ⟨ir, n, hir, hn, hid, hneeds, inlined_refs_self_contained hir rfl chain_tidy chain_copy
    List.mem_cons_self (leafStep_named.mpr ⟨rfl, rfl⟩) List.mem_cons_self hn hid⟩

end Scarab.Pipeline
