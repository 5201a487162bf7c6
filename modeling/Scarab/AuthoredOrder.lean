import Scarab.LibraryRefs
import Scarab.PipelineCycles

/-!
# The authored order survives compilation

A step that needs another stays after it: what it becomes is after all that the other becomes.
Inside a copy of a library every step lies between a root, which takes the invoke step's needs,
and a leaf, which stands for the invoke step; both exist since the compiled pipeline has no cycle.
-/
namespace Scarab.Pipeline

open Relation

variable {tc : Toolchain} {libs : Libraries}

/-- Along an acyclic relation what holds of a node when it holds before it holds of every node. -/
theorem acyclic_induction {α : Type} {R : α → α → Prop} {V : List α}
    (hacyclic : ∀ a, ¬ TransGen R a a) {P : α → Prop}
    (h : ∀ b ∈ V, (∀ a ∈ V, R a b → P a) → P b) : ∀ b ∈ V, P b := by
  have hwf : WellFounded fun a b : {v // v ∈ V} => TransGen R a.1 b.1 := by
    have : IsTrans {v // v ∈ V} fun a b => TransGen R a.1 b.1 := ⟨fun a b c => TransGen.trans⟩
    have : Std.Irrefl fun a b : {v // v ∈ V} => TransGen R a.1 b.1 := ⟨fun a => hacyclic a.1⟩
    have : Finite {v // v ∈ V} := List.finite_toSet V
    exact Finite.wellFounded_of_trans_of_irrefl _
  have hall : ∀ b : {v // v ∈ V}, P b.1 := by
    intro b
    induction b using hwf.induction with
    | _ b ih => exact h b.1 b.2 fun a ha hab => ih ⟨a, ha⟩ (.single hab)
  exact fun b hb => hall ⟨b, hb⟩

/-- Each node is before a root: one without needs. -/
theorem exists_root {steps : List StepSpec} (hacyclic : ∀ a, ¬ TransGen (Edge steps) a a)
    (hclosed : ∀ n ∈ steps, ∀ r ∈ n.needs, r ∈ steps.map (·.id)) {n : StepSpec} (hn : n ∈ steps) :
    ∃ ls ∈ steps, ls.needs = [] ∧ ReflTransGen (Edge steps) n.id ls.id := by
  have hswap : ∀ a, ¬ TransGen (Function.swap (Edge steps)) a a := by
    intro a h
    exact hacyclic a (transGen_swap.mp h)
  refine acyclic_induction (P := fun a => ∀ n ∈ steps, n.id = a → ∃ ls ∈ steps, ls.needs = [] ∧
    ReflTransGen (Edge steps) n.id ls.id) hswap (fun a _ ih => ?_) n.id (List.mem_map.mpr ⟨n, hn, rfl⟩)
    n hn rfl
  rintro n hn rfl
  cases hneeds : n.needs with
  | nil => exact ⟨n, hn, hneeds, .refl⟩
  | cons r rs =>
    have hr : r ∈ n.needs := by rw [hneeds]; exact List.mem_cons_self
    obtain ⟨k, hk, rfl⟩ := List.mem_map.mp (hclosed n hn r hr)
    have hedge : Edge steps n.id k.id := ⟨n, hn, rfl, hr⟩
    obtain ⟨ls, hls, hroot, hpath⟩ := ih k.id (List.mem_map.mpr ⟨k, hk, rfl⟩) hedge k hk rfl
    exact ⟨ls, hls, hroot, .head hedge hpath⟩

/-- A step refers to some step: an order goes on behind it. -/
def RefersOn (tc : Toolchain) (libs : Libraries) (file : List StepSpec) (s : StepSpec) : Prop :=
  ∃ r, StepRef tc libs file s r

/-- Some step of the file refers to the step: an order goes through to it. -/
def ReferredTo (tc : Toolchain) (libs : Libraries) (file : List StepSpec) (s : StepSpec) : Prop :=
  ∃ t ∈ file, ∃ r, StepRef tc libs file t r ∧ IsName tc libs s r

/-- A node is of a step with `R`, or is inlined from an invoke step with `R`. -/
inductive NodeHas (tc : Toolchain) (libs : Libraries) (R : List StepSpec → StepSpec → Prop) :
    List StepSpec → Text → Prop
  | node {file : List StepSpec} {s : StepSpec} {b : Text} {m : Option Matrix} (hs : s ∈ file)
      (hR : R file s) (hnamed : Named tc libs s b m) : NodeHas tc libs R file b
  | inside {file : List StepSpec} {s : StepSpec} {link : OriginEntry} {lib : PipelineIr} {x b : Text}
      (hs : s ∈ file) (hinvokes : Invokes tc libs s link lib) (hx : x ∈ suffixes tc s.matrix)
      (h : NodeHas tc libs R lib.steps b) : NodeHas tc libs R file (ns (s.id ++ x) b)

/-- What a level's pieces become. -/
def levelOut (pieces : List Piece) : List StepSpec :=
  (pieces.flatMap (·.nodes)).map (seamStep (seamOf pieces))

/-- What an invoke step's piece holds of its library. -/
structure Copied (tc : Toolchain) (below : Option LevelRel) (p : Piece) (lib : PipelineIr)
    (resolved invs : List StepSpec) : Prop where
  inlined : ∃ rel level stack, below = some rel ∧ rel level stack lib.steps resolved ∧
    level.library.isSome = true
  instances : instancesOf tc p.step = .ok invs
  nodes : ∃ link deploy withNeeds, p.nodes = invs.flatMap fun inv => resolved.map
    (inlinedNode link deploy (resolved.map (·.id)) withNeeds inv)
  leaves : p.leaves = some (invs.flatMap (copyLeaves resolved))
  steps : lib.steps ≠ []

section level

variable {below : Option LevelRel} {level : Level} {stack : List Frame} {exposed : Exposed}
  {pieces : List Piece}

theorem Adds.copied {siblings : List StepSpec} {p : Piece}
    (h : Adds tc libs below level stack siblings exposed p) {link : OriginEntry} {lib : PipelineIr}
    (hinvokes : Invokes tc libs p.step link lib) :
    ∃ resolved invs, Copied tc below p lib resolved invs := by
  cases h with
  | run hinvoke => exact (hinvokes.not_written hinvoke).elim
  | gate hinvoke htarget _ hdef =>
    exact (hinvokes.not_gate ⟨_, _, _, hinvoke, htarget, hdef, rfl⟩).elim
  | library hinvoke htarget _ _ hsource hparse hbelow _ _ _ hresolved hinvs hsteps =>
    obtain ⟨-, rfl⟩ := hinvokes.unique
      ⟨_, _, hinvoke, htarget, links_of_librarySource hsource hparse⟩
    exact ⟨_, _, ⟨_, _, _, hbelow, hresolved, rfl⟩, hinvs, ⟨_, _, _, rfl⟩, rfl, hsteps⟩

theorem edge_of_node {p : Piece} (hp : p ∈ pieces) {k : StepSpec} (hk : k ∈ p.nodes) {r x : Text}
    (hr : r ∈ k.needs) (hx : x ∈ exits (seamOf pieces) r) : Edge (levelOut pieces) k.id x :=
  ⟨seamStep (seamOf pieces) k,
    List.mem_map.mpr ⟨k, List.mem_flatMap.mpr ⟨p, hp, hk⟩, rfl⟩, rfl,
    mem_rewriteThroughSeam.mpr ⟨r, hr, hx⟩⟩

/-- What the steps of a sealed library need is inlined with them. -/
theorem Copied.needs_named {p : Piece} {lib : PipelineIr} {resolved invs : List StepSpec}
    (hcopied : Copied tc below p lib resolved invs)
    (hfacts : ∀ rel, below = some rel → LevelRefs tc libs rel) (htidy : Tidy tc libs lib.steps)
    (hsealed : FileSealed tc libs lib.steps) {ls : StepSpec} (hls : ls ∈ resolved) {r : Text}
    (hr : r ∈ ls.needs) : ∃ t ∈ lib.steps, ∃ m, Named tc libs t r m := by
  obtain ⟨rel, inner, frames, hbelow, hresolved, hlib⟩ := hcopied.inlined
  exact (hfacts rel hbelow).refsInside hresolved hlib htidy hsealed ls hls r
    (List.mem_append_left _ hr)

theorem Copied.mem_ids_iff {p : Piece} {lib : PipelineIr} {resolved invs : List StepSpec}
    (hcopied : Copied tc below p lib resolved invs)
    (hfacts : ∀ rel, below = some rel → LevelRefs tc libs rel) {c : Text} :
    c ∈ resolved.map (·.id) ↔ ∃ t ∈ lib.steps, ∃ m, Named tc libs t c m := by
  obtain ⟨rel, inner, frames, hbelow, hresolved, -⟩ := hcopied.inlined
  have hnodes := (hfacts rel hbelow).nodesNamed hresolved
  constructor
  · intro hc
    obtain ⟨ls, hls, rfl⟩ := List.mem_map.mp hc
    obtain ⟨t, ht, hnamed⟩ := (hnodes ls.id ls.matrix).mp ⟨ls, hls, rfl, rfl⟩
    exact ⟨t, ht, _, hnamed⟩
  · rintro ⟨t, ht, m, hnamed⟩
    obtain ⟨ls, hls, hid, -⟩ := (hnodes c m).mpr ⟨t, ht, hnamed⟩
    exact List.mem_map.mpr ⟨ls, hls, hid⟩

/-- The conditions of one level and what is known of the level below. -/
structure LevelOk (tc : Toolchain) (libs : Libraries) (below : Option LevelRel) (level : Level)
    (stack : List Frame) (exposed : Exposed) (pieces : List Piece) : Prop where
  adds : ∀ p ∈ pieces, Adds tc libs below level stack (pieces.map (·.step)) exposed p
  lower : ∀ rel, below = some rel → LevelRefs tc libs rel
  tidy : Tidy tc libs (pieces.map (·.step))

section copies

variable {p : Piece} {link : OriginEntry} {lib : PipelineIr} {resolved invs : List StepSpec}
  {inv : StepSpec}

theorem LevelOk.named_under (h : LevelOk tc libs below level stack exposed pieces)
    (hinvokes : Invokes tc libs p.step link lib) (hcopied : Copied tc below p lib resolved invs)
    (hinv : inv ∈ invs) {c : Text} (hc : c ∈ resolved.map (·.id)) :
    ∃ m, Named tc libs p.step (ns inv.id c) m := by
  obtain ⟨t, ht, m, hnamed⟩ := (hcopied.mem_ids_iff h.lower).mp hc
  obtain ⟨x, hx, hid⟩ := (exists_instance_id hcopied.instances).mp ⟨inv, hinv, rfl⟩
  exact ⟨m, (named_library hinvokes).mpr ⟨x, hx, t, ht, c, by rw [hid], hnamed⟩⟩

/-- A library's own needs are needs of its copy. -/
theorem LevelOk.edge_under (h : LevelOk tc libs below level stack exposed pieces)
    (hp : p ∈ pieces) (hinvokes : Invokes tc libs p.step link lib)
    (hcopied : Copied tc below p lib resolved invs) (hinv : inv ∈ invs) {a c : Text}
    (hedge : Edge resolved a c) :
    c ∈ resolved.map (·.id) ∧ Edge (levelOut pieces) (ns inv.id a) (ns inv.id c) := by
  have hs : p.step ∈ pieces.map (·.step) := List.mem_map.mpr ⟨p, hp, rfl⟩
  obtain ⟨ls, hls, rfl, hc⟩ := hedge
  have hnamed := hcopied.needs_named h.lower (h.tidy.inside hs hinvokes)
    (h.tidy.isSealed _ .self _ hs _ _ hinvokes) hls hc
  have hin : c ∈ resolved.map (·.id) := (hcopied.mem_ids_iff h.lower).mpr hnamed
  refine ⟨hin, ?_⟩
  obtain ⟨link', deploy, withNeeds, hnodes⟩ := hcopied.nodes
  have hk : inlinedNode link' deploy (resolved.map (·.id)) withNeeds inv ls ∈ p.nodes := by
    rw [hnodes]
    exact List.mem_flatMap.mpr ⟨inv, hinv, List.mem_map.mpr ⟨ls, hls, rfl⟩⟩
  have hid := (inlinedNode_fields link' deploy (resolved.map (·.id)) withNeeds inv ls).1
  have hneed : ns inv.id c ∈
      (inlinedNode link' deploy (resolved.map (·.id)) withNeeds inv ls).needs := by
    have hne : ls.needs ≠ [] := List.ne_nil_of_mem hc
    rw [inlinedNode_needs, inlinedNeeds, mem_pushAllNew, if_neg hne]
    refine .inl (List.mem_map.mpr ⟨c, hc, ?_⟩)
    rw [namespaceRef, if_pos hin]
  obtain ⟨m, hm⟩ := h.named_under hinvokes hcopied hinv hin
  have hexit : ns inv.id c ∈ exits (seamOf pieces) (ns inv.id c) := by
    rw [exits_node (h.tidy.apart _ .self) h.adds hp hm]
    exact List.mem_singleton.mpr rfl
  have hedge := edge_of_node hp hk hneed hexit
  rwa [hid] at hedge

theorem LevelOk.path_under (h : LevelOk tc libs below level stack exposed pieces)
    (hp : p ∈ pieces) (hinvokes : Invokes tc libs p.step link lib)
    (hcopied : Copied tc below p lib resolved invs) (hinv : inv ∈ invs) {a b : Text}
    (hpath : TransGen (Edge resolved) a b) :
    TransGen (Edge (levelOut pieces)) (ns inv.id a) (ns inv.id b) :=
  hpath.lift (ns inv.id) fun _ _ hedge => (h.edge_under hp hinvokes hcopied hinv hedge).2

/-- A cycle in a library would be one in its copy. -/
theorem LevelOk.acyclic (h : LevelOk tc libs below level stack exposed pieces)
    (hcycle : ∀ a, ¬ TransGen (Edge (levelOut pieces)) a a)
    (hp : p ∈ pieces) (hinvokes : Invokes tc libs p.step link lib)
    (hcopied : Copied tc below p lib resolved invs) (hinv : inv ∈ invs) (a : Text) :
    ¬ TransGen (Edge resolved) a a :=
  fun ha => hcycle _ (h.path_under hp hinvokes hcopied hinv ha)

theorem LevelOk.reach_under (h : LevelOk tc libs below level stack exposed pieces)
    (hp : p ∈ pieces) (hinvokes : Invokes tc libs p.step link lib)
    (hcopied : Copied tc below p lib resolved invs) (hinv : inv ∈ invs) {a b : Text}
    (hreach : ReflTransGen (Edge resolved) a b) :
    ReflTransGen (Edge (levelOut pieces)) (ns inv.id a) (ns inv.id b) :=
  hreach.lift (ns inv.id) fun _ _ hedge => (h.edge_under hp hinvokes hcopied hinv hedge).2

/-- Every node of a copy is, or is after, one that has the invoke step's needs: a root's. -/
theorem LevelOk.entry_library (h : LevelOk tc libs below level stack exposed pieces)
    (hcycle : ∀ a, ¬ TransGen (Edge (levelOut pieces)) a a) (hp : p ∈ pieces)
    (hinvokes : Invokes tc libs p.step link lib) (hcopied : Copied tc below p lib resolved invs)
    {a : Text} {m : Option Matrix} (ha : Named tc libs p.step a m) :
    ∃ k ∈ p.nodes, (∀ r ∈ p.step.needs, r ∈ k.needs) ∧
      ReflTransGen (Edge (levelOut pieces)) a k.id := by
  obtain ⟨x, hx, t, ht, b, rfl, hnamed⟩ := (named_library hinvokes).mp ha
  obtain ⟨inv, hinv, hid⟩ := (exists_instance_id hcopied.instances).mpr ⟨x, hx, rfl⟩
  have hclosed : ∀ n ∈ resolved, ∀ r ∈ n.needs, r ∈ resolved.map (·.id) := fun n hn r hr =>
    (h.edge_under hp hinvokes hcopied hinv ⟨n, hn, rfl, hr⟩).1
  obtain ⟨n, hn, rfl⟩ := List.mem_map.mp ((hcopied.mem_ids_iff h.lower).mpr ⟨t, ht, m, hnamed⟩)
  obtain ⟨ls, hls, hroot, hreach⟩ :=
    exists_root (h.acyclic hcycle hp hinvokes hcopied hinv) hclosed hn
  obtain ⟨link', deploy, withNeeds, hnodes⟩ := hcopied.nodes
  obtain ⟨hkid, -⟩ := inlinedNode_fields link' deploy (resolved.map (·.id)) withNeeds inv ls
  rw [hnodes]
  refine ⟨_, List.mem_flatMap.mpr ⟨inv, hinv, List.mem_map.mpr ⟨ls, hls, rfl⟩⟩, ?_, ?_⟩
  · intro r hr
    rw [inlinedNode_needs, inlinedNeeds, if_pos hroot,
      (instancesOf_spec hcopied.instances hinv).needs]
    exact mem_pushAllNew.mpr (.inl hr)
  · rw [hkid, ← hid]
    exact h.reach_under hp hinvokes hcopied hinv hreach

end copies

theorem ownStep_needs {host : Host} {siblings : List StepSpec} {step : StepSpec} {r : Text}
    (hr : r ∈ step.needs) : r ∈ (ownStep host level siblings exposed step).needs := by
  unfold ownStep
  split
  · exact mem_pushAllNew.mpr (.inl hr)
  · unfold invokeOutputScope
    split
    · exact hr
    · exact mem_pushAllNew.mpr (.inl hr)

/-- Every node of a step is, or is after, one that has the step's needs. -/
theorem LevelOk.entry (h : LevelOk tc libs below level stack exposed pieces)
    (hcycle : ∀ a, ¬ TransGen (Edge (levelOut pieces)) a a) {p : Piece} (hp : p ∈ pieces)
    {a : Text} {m : Option Matrix} (ha : Named tc libs p.step a m) :
    ∃ k ∈ p.nodes, (∀ r ∈ p.step.needs, r ∈ k.needs) ∧
      ReflTransGen (Edge (levelOut pieces)) a k.id := by
  have hadds := h.adds p hp
  cases hadds with
  | @run step hinvoke hscope =>
    obtain ⟨hid, -⟩ := ownStep_fields tc.toHost level (pieces.map (·.step)) exposed step
    refine ⟨_, List.mem_singleton.mpr rfl, fun r => ownStep_needs, ?_⟩
    rw [hid, ((named_written hinvoke).mp ha).1]
  | @gate step raw name def_ invs hinvoke htarget _ hdef _ _ hinvs =>
    obtain ⟨-, x, hx, rfl⟩ := (named_gate ⟨raw, name, def_, hinvoke, htarget, hdef, rfl⟩).mp ha
    obtain ⟨inv, hinv, hid⟩ := (exists_instance_id hinvs).mpr ⟨x, hx, rfl⟩
    refine ⟨_, List.mem_map.mpr ⟨inv, hinv, rfl⟩, fun r hr => ?_, ?_⟩
    · refine mem_pushAllNew.mpr (.inl ?_)
      rw [(instancesOf_spec hinvs hinv).needs]
      exact hr
    · rw [← hid]
      exact .refl
  | @library step raw target source lib rel resolved invs hinvoke htarget _ _ hsource hparse =>
    have hinvokes : Invokes tc libs step _ lib :=
      ⟨raw, target, hinvoke, htarget, links_of_librarySource hsource hparse⟩
    obtain ⟨resolved', invs', hcopied⟩ := (h.adds _ hp).copied hinvokes
    exact h.entry_library hcycle hp hinvokes hcopied ha

end level

section ends

variable {below : Option LevelRel} {level : Level} {stack : List Frame} {exposed : Exposed}
  {pieces : List Piece}

theorem invokeReads_stepReads {host : Host} {step : StepSpec} {name : Text} {field : Option Text}
    {outs : List Text} (h : (name, field, outs) ∈ invokeReads host step exposed) :
    (name, field) ∈ stepReads host step ∧ exposed.get name = some (some outs) := by
  obtain ⟨text, htext, h⟩ := List.mem_flatMap.mp h
  obtain ⟨i, hi, h⟩ := List.mem_flatMap.mp h
  cases hreads : host.reads i.expr with
  | error e => simp [hreads] at h
  | ok reads =>
    simp only [hreads, List.mem_filterMap] at h
    obtain ⟨r, hr, h⟩ := h
    split_ifs at h with hvar
    simp only [Option.bind_eq_some_iff, Option.map_eq_some_iff, Option.join_eq_some_iff,
      Prod.mk.injEq] at h
    obtain ⟨name', hfirst, outs', hget, rfl, rfl, rfl⟩ := h
    refine ⟨?_, hget⟩
    have hread : (name', r.second) ∈ templateReads host text := by
      refine List.mem_flatMap.mpr ⟨i, hi, ?_⟩
      simp only [hreads, List.mem_filterMap]
      exact ⟨r, hr, by simp [hvar, hfirst]⟩
    rcases List.mem_append.mp htext with htext | htext
    · obtain ⟨f, hf, rfl⟩ := List.mem_map.mp htext
      exact List.mem_append_left _ (List.mem_flatMap.mpr ⟨f, hf, hread⟩)
    · exact List.mem_append_right _ (List.mem_flatMap.mpr ⟨text, htext, hread⟩)

/-- What a step that runs needs it refers to, as it is written. -/
theorem ownStep_stepRef (hexposed : ExposedSound tc libs (pieces.map (·.step)) exposed)
    (hpieces : ∀ p ∈ pieces, Adds tc libs below level stack (pieces.map (·.step)) exposed p)
    {step : StepSpec} (hscope : level.library.isSome →
      (libraryStepScope tc.toHost step level (pieces.map (·.step)) exposed).2 = []) {r : Text}
    (hr : r ∈ (ownStep tc.toHost level (pieces.map (·.step)) exposed step).needs) :
    StepRef tc libs (pieces.map (·.step)) step r := by
  have hread : ∀ needs, ∀ read ∈ stepReads tc.toHost step,
      ReadNeeds (pieces.map (·.step)) exposed needs read r →
        StepRef tc libs (pieces.map (·.step)) step r :=
    fun needs read hread h => readNeeds_stepRef hexposed hpieces hread h
  cases hlib : level.library with
  | some l =>
    simp only [ownStep, hlib] at hr
    rcases libraryStepScope_needs (hscope (by simp [hlib])) hr with hr | ⟨read, hmem, hr⟩
    · exact .written (List.mem_append_left _ hr)
    · exact hread _ read hmem hr
  | none =>
    simp only [ownStep, hlib, invokeOutputScope] at hr
    split at hr
    · exact .written (List.mem_append_left _ hr)
    · rcases mem_pushAllNew.mp hr with hr | hr
      · exact .written (List.mem_append_left _ hr)
      · obtain ⟨⟨name, field, outs⟩, hmem, hr⟩ := List.mem_flatMap.mp hr
        obtain ⟨hmem, hget⟩ := invokeReads_stepReads hmem
        simp only [backingIds, List.mem_map, List.mem_filter] at hr
        obtain ⟨o, ⟨ho, hfield⟩, rfl⟩ := hr
        exact hread [] _ hmem (.inl ⟨outs, o, hget, ho, hfield, rfl⟩)

/-- A reference that goes through to a node of a step is to a name of that step. -/
theorem isName_of_mem_exits (hapart : NamesApart tc libs (pieces.map (·.step)))
    (hpieces : ∀ p ∈ pieces, Adds tc libs below level stack (pieces.map (·.step)) exposed p)
    (hnodes : ∀ rel, below = some rel → NodesNamed tc libs rel) {s : StepSpec}
    (hs : s ∈ pieces.map (·.step)) {c : Text} {m : Option Matrix} (hc : Named tc libs s c m)
    {r : Text} (hx : c ∈ exits (seamOf pieces) r) : IsName tc libs s r := by
  by_cases hr : ∃ p ∈ pieces, p.step.id = r
  · obtain ⟨p, hp, rfl⟩ := hr
    obtain ⟨m', hm'⟩ := named_of_mem_exits hapart hpieces hnodes hp (.inl rfl) hx
    have hstep := hapart.eq_of_isName hs (List.mem_map.mpr ⟨p, hp, rfl⟩) (.inr ⟨m, hc⟩)
      (.inr ⟨m', hm'⟩)
    exact .inl (by rw [hstep])
  · push Not at hr
    have hseam : (seamOf pieces).get r = none := seam_get_of_not fun p hp _ => hr p hp
    obtain rfl : c = r := by simpa [exits, hseam] using hx
    exact .inr ⟨m, hc⟩

end ends

/-- Where a node needs another, one refers to something and the other is referred to. -/
def EdgeEnds (tc : Toolchain) (libs : Libraries) (rel : LevelRel) : Prop :=
  ∀ ⦃level : Level⦄ ⦃stack : List Frame⦄ ⦃steps out : List StepSpec⦄,
    rel level stack steps out → Tidy tc libs steps →
      (level.library.isSome = true → FileSealed tc libs steps) → ∀ a c, Edge out a c →
        (∃ s ∈ steps, ∃ m, Named tc libs s c m) →
          NodeHas tc libs (RefersOn tc libs) steps a ∧ NodeHas tc libs (ReferredTo tc libs) steps c

theorem LevelInlines.edgeEnds {below : Option LevelRel}
    (hlower : ∀ rel, below = some rel → LevelRefs tc libs rel)
    (ih : ∀ rel, below = some rel → EdgeEnds tc libs rel) :
    EdgeEnds tc libs (LevelInlines tc libs below) := by
  rintro level stack steps out hlevel htidy - a c hedge ⟨t, ht, mc, hc⟩
  have hnodes : ∀ rel, below = some rel → NodesNamed tc libs rel :=
    fun rel hrel => (hlower rel hrel).nodesNamed
  cases hlevel with
  | @mk _ _ pieces exposed hexposed _ _ hpieces =>
    obtain ⟨k, hk, rfl, hneed⟩ := hedge
    obtain ⟨k', hk', rfl⟩ := List.mem_map.mp hk
    obtain ⟨p, hp, hk'⟩ := List.mem_flatMap.mp hk'
    obtain ⟨r, hr, hx⟩ := mem_rewriteThroughSeam.mp hneed
    have hapart := htidy.apart _ .self
    have hname : IsName tc libs t r := isName_of_mem_exits hapart hpieces hnodes ht hc hx
    have hmem : p.step ∈ pieces.map (·.step) := List.mem_map.mpr ⟨p, hp, rfl⟩
    -- a reference written at this level is the step's own
    have hwritten : (∃ m, Named tc libs p.step k'.id m) →
        StepRef tc libs (pieces.map (·.step)) p.step r →
        NodeHas tc libs (RefersOn tc libs) (pieces.map (·.step)) k'.id ∧
          NodeHas tc libs (ReferredTo tc libs) (pieces.map (·.step)) c := by
      rintro ⟨m, hm⟩ href
      exact ⟨.node hmem ⟨r, href⟩ hm, .node ht ⟨p.step, hmem, r, href, hname⟩ hc⟩
    have hadds := hpieces p hp
    cases hadds with
    | @run step hinvoke hscope =>
      obtain rfl := List.mem_singleton.mp hk'
      obtain ⟨hid, -⟩ := ownStep_fields tc.toHost level (pieces.map (·.step)) exposed step
      refine hwritten ⟨step.matrix, ?_⟩ (ownStep_stepRef hexposed hpieces hscope hr)
      rw [hid]
      exact .written hinvoke
    | @gate step raw name def_ invs hinvoke htarget _ hdef hbound _ hinvs =>
      obtain ⟨inv, hinv, rfl⟩ := List.mem_map.mp hk'
      obtain ⟨x, hx', hid⟩ := (exists_instance_id hinvs).mp ⟨inv, hinv, rfl⟩
      refine hwritten ⟨none, (named_gate ⟨raw, name, def_, hinvoke, htarget, hdef, rfl⟩).mpr
        ⟨rfl, x, hx', hid⟩⟩ ?_
      rcases mem_pushAllNew.mp hr with hr | hr
      · rw [(instancesOf_spec hinvs hinv).needs] at hr
        exact .written (List.mem_append_left _ hr)
      · exact (callRef_of_withNeeds hexposed hpieces hbound hr).stepRef
    | @library step raw target source lib rel resolved invs hinvoke htarget _ _ hsource hparse hbelow
        _ hbound _ hresolved hinvs =>
      have hinvokes : Invokes tc libs step _ lib :=
        ⟨raw, target, hinvoke, htarget, links_of_librarySource hsource hparse⟩
      obtain ⟨inv, hinv, hk'⟩ := List.mem_flatMap.mp hk'
      obtain ⟨ls, hls, rfl⟩ := List.mem_map.mp hk'
      obtain ⟨x, hx', hid⟩ := (exists_instance_id hinvs).mp ⟨inv, hinv, rfl⟩
      obtain ⟨u, hu, hls'⟩ := (hnodes rel hbelow hresolved ls.id ls.matrix).mp ⟨ls, hls, rfl, rfl⟩
      obtain ⟨hkid, -⟩ := inlinedNode_fields (source.link (tc.sha256Hex source.src))
        (step.deploy || lib.deploy) (resolved.map (·.id))
        (boundFor tc.toHost level (pieces.map (·.step)) exposed step lib.interface.inputs).withNeeds
        inv ls
      have hown : ∃ m, Named tc libs step (inlinedNode (source.link (tc.sha256Hex source.src))
          (step.deploy || lib.deploy) (resolved.map (·.id))
          (boundFor tc.toHost level (pieces.map (·.step)) exposed step
            lib.interface.inputs).withNeeds inv ls).id m :=
        ⟨ls.matrix, (named_library hinvokes).mpr ⟨x, hx', u, hu, ls.id, by rw [hkid, hid], hls'⟩⟩
      rw [inlinedNode_needs, inlinedNeeds, mem_pushAllNew] at hr
      split_ifs at hr with hroot
      · refine hwritten hown ?_
        rcases hr with hr | hr
        · rw [(instancesOf_spec hinvs hinv).needs] at hr
          exact .written (List.mem_append_left _ hr)
        · exact (callRef_of_withNeeds hexposed hpieces hbound hr).stepRef
      · rcases hr with hr | hr
        · -- the library's own need, under the invoke step's id
          obtain ⟨r', hr', rfl⟩ := List.mem_map.mp hr
          have hlib := htidy.inside hmem hinvokes
          have hsealed := htidy.isSealed _ .self step hmem _ lib hinvokes
          obtain ⟨v, hv, mv, hnamedv⟩ := (hlower rel hbelow).refsInside hresolved rfl hlib hsealed ls
            hls r' (List.mem_append_left _ hr')
          obtain ⟨n, hn, hnid, -⟩ := (hnodes rel hbelow hresolved r' mv).mpr ⟨v, hv, hnamedv⟩
          have hin : r' ∈ resolved.map (·.id) := List.mem_map.mpr ⟨n, hn, hnid⟩
          have hnode : Named tc libs step (ns (step.id ++ x) r') mv :=
            (named_library hinvokes).mpr ⟨x, hx', v, hv, r', rfl, hnamedv⟩
          rw [namespaceRef, if_pos hin, hid, exits_node hapart hpieces hp hnode] at hx
          obtain rfl := List.mem_singleton.mp hx
          obtain ⟨hon, hto⟩ := ih rel hbelow hresolved hlib (fun _ => hsealed) ls.id r'
            ⟨ls, hls, rfl, hr'⟩ ⟨v, hv, mv, hnamedv⟩
          refine ⟨?_, .inside hmem hinvokes hx' hto⟩
          have hseam : (seamStep (seamOf pieces) (inlinedNode (source.link (tc.sha256Hex source.src))
            (step.deploy || lib.deploy) (resolved.map (·.id))
            (boundFor tc.toHost level (pieces.map (·.step)) exposed step
              lib.interface.inputs).withNeeds inv ls)).id = ns (step.id ++ x) ls.id := by
            rw [← hid]
            exact hkid
          rw [hseam]
          exact .inside hmem hinvokes hx' hon
        · exact hwritten hown (callRef_of_withNeeds hexposed hpieces hbound hr).stepRef

theorem Inlines.edgeEnds (room : ℕ) : EdgeEnds tc libs (Inlines tc libs room) := by
  have h : LevelRefs tc libs (Inlines tc libs room) ∧ EdgeEnds tc libs (Inlines tc libs room) := by
    refine Inlines.induction (P := fun rel => LevelRefs tc libs rel ∧ EdgeEnds tc libs rel)
      (fun below ih => ⟨?_, ?_⟩) room
    · exact LevelInlines.levelRefs below fun rel hrel => (ih rel hrel).1
    · exact LevelInlines.edgeEnds (fun rel hrel => (ih rel hrel).1) fun rel hrel => (ih rel hrel).2
  exact h.2

/-- `s` needs `t`, as both are written in a file. -/
def NeedsStep (file : List StepSpec) (s t : StepSpec) : Prop :=
  s ∈ file ∧ t ∈ file ∧ t.id ∈ s.needs

/-- What an order passes through keeps an instance when matrices are expanded: in every copy the
step between two others, and every node with something before it and something after it. -/
structure Kept (tc : Toolchain) (libs : Libraries) (steps : List StepSpec) : Prop where
  between : ∀ calls pre file, Copy tc libs steps calls pre file → ∀ s u t, NeedsStep file s u →
    NeedsStep file u t → ∃ b m, Named tc libs u b m ∧ suffixes tc m ≠ []
  passed : ∀ s ∈ steps, ∀ b m, Named tc libs s b m → NodeHas tc libs (RefersOn tc libs) steps b →
    NodeHas tc libs (ReferredTo tc libs) steps b → suffixes tc m ≠ []

section compiled

variable {authored ir : PipelineIr} {inlined : List StepSpec}

theorem Compiles.edge_named (h : Compiles tc libs authored inlined ir) {a b : Text}
    (hedge : Edge inlined a b) : ∃ s ∈ authored.steps, ∃ m, Named tc libs s a m := by
  obtain ⟨k, hk, rfl, -⟩ := hedge
  obtain ⟨s, hs, hnamed⟩ :=
    (Inlines.nodesNamed maxInvokeDepth h.inlines k.id k.matrix).mp ⟨k, hk, rfl, rfl⟩
  exact ⟨s, hs, _, hnamed⟩

/-- A node with an edge to it and an edge from it keeps an instance. -/
theorem Compiles.passed (h : Compiles tc libs authored inlined ir)
    (htidy : Tidy tc libs authored.steps) (hkept : Kept tc libs authored.steps) {a b c : Text}
    (hin : Edge inlined a c) (hout : Edge inlined c b) {t : StepSpec} (ht : t ∈ authored.steps)
    {m : Option Matrix} (hb : Named tc libs t b m) :
    ∃ s ∈ authored.steps, ∃ m, Named tc libs s c m ∧ suffixes tc m ≠ [] := by
  obtain ⟨s, hs, mc, hc⟩ := h.edge_named hout
  have hends := Inlines.edgeEnds maxInvokeDepth h.inlines htidy (by
    intro hlib
    cases hlib)
  have hto := (hends a c hin ⟨s, hs, mc, hc⟩).2
  have hon := (hends c b hout ⟨t, ht, m, hb⟩).1
  exact ⟨s, hs, mc, hc, hkept.passed s hs c mc hc hon hto⟩

end compiled

theorem Copy.reaches {steps file : List StepSpec} {calls : List Call} {pre : Text}
    (h : Copy tc libs steps calls pre file) : Reaches tc libs steps file := by
  induction h with
  | whole => exact .self
  | inside hs hinvokes _ _ ih => exact .invoke hs hinvokes ih

end Scarab.Pipeline
