import Scarab.PipelineNames

/-!
# Where a compiled step comes from

`InlinedFrom` follows `invoke:` from a file's steps down to the step a node was written as, and
collects one origin entry for each target on the way. A compile that goes through gives each
such node exactly that chain, and leaves nothing of what a file wrote in the compiler's fields.
-/
namespace Scarab.Pipeline

variable {tc : Toolchain} {libs : Libraries}

/-- `InlinedFrom file chain id s`: the node `id` is an instance of the step `s`, reached from
`file` through the targets of `chain`, outermost first. -/
inductive InlinedFrom (tc : Toolchain) (libs : Libraries) :
    List StepSpec → List OriginEntry → Text → StepSpec → Prop
  | written {file : List StepSpec} {s : StepSpec} {x : Text} (hs : s ∈ file)
      (hinvoke : s.invoke = none) (hx : x ∈ suffixes tc s.matrix) :
      InlinedFrom tc libs file [] (s.id ++ x) s
  | gate {file : List StepSpec} {s : StepSpec} {link : OriginEntry} {x : Text} (hs : s ∈ file)
      (hgate : InvokesGate libs s link) (hx : x ∈ suffixes tc s.matrix) :
      InlinedFrom tc libs file [link] (s.id ++ x) s
  | library {file : List StepSpec} {s t : StepSpec} {link : OriginEntry} {lib : PipelineIr}
      {chain : List OriginEntry} {x id : Text} (hs : s ∈ file) (hinvokes : Invokes tc libs s link lib)
      (hx : x ∈ suffixes tc s.matrix) (ht : InlinedFrom tc libs lib.steps chain id t) :
      InlinedFrom tc libs file (link :: chain) (ns (s.id ++ x) id) t

/-- Whether an installed library's links are followed by no file of the repository. -/
def Closed (chain : List OriginEntry) : Prop :=
  chain.Pairwise fun a b => a.kind = .library → b.kind ≠ .file

/-- No field that only the compiler writes is set. -/
structure Unwritten (s : StepSpec) : Prop where
  origin : s.origin = []
  scope : s.scope = none
  guards : s.guards = []
  pluginGate : s.pluginGate = none
  environmentApprovalGate : s.environmentApprovalGate = none

theorem unwritten_of_compilerFields {s : StepSpec} (h : compilerFields s = []) : Unwritten s := by
  simp only [compilerFields, List.append_eq_nil_iff, ite_eq_right_iff, List.cons_ne_nil,
    imp_false] at h
  obtain ⟨⟨⟨⟨ho, hs⟩, hg⟩, hp⟩, he⟩ := h
  exact ⟨by simpa using ho, by simpa using hs, by simpa using hg, by simpa using hp,
    by simpa using he⟩

/-- The nodes of a list, by origin and by the ids of their instances. -/
def NodeAt (tc : Toolchain) (out : List StepSpec) (chain : List OriginEntry) (id : Text) : Prop :=
  ∃ n ∈ out, n.origin = chain ∧ ∃ x ∈ suffixes tc n.matrix, id = n.id ++ x

theorem InlinedFrom.of_mem {file : List StepSpec} {chain : List OriginEntry} {id : Text}
    {s t : StepSpec} (h : InlinedFrom tc libs [t] chain id s) (ht : t ∈ file) :
    InlinedFrom tc libs file chain id s := by
  cases h with
  | written hs hinvoke hx => exact .written (List.mem_singleton.mp hs ▸ ht) hinvoke hx
  | gate hs hgate hx => exact .gate (List.mem_singleton.mp hs ▸ ht) hgate hx
  | library hs hinvokes hx hinner =>
    exact .library (List.mem_singleton.mp hs ▸ ht) hinvokes hx hinner

theorem InlinedFrom.exists_mem {file : List StepSpec} {chain : List OriginEntry} {id : Text}
    {s : StepSpec} (h : InlinedFrom tc libs file chain id s) :
    ∃ t ∈ file, InlinedFrom tc libs [t] chain id s := by
  cases h with
  | written hs hinvoke hx => exact ⟨_, hs, .written List.mem_cons_self hinvoke hx⟩
  | gate hs hgate hx => exact ⟨_, hs, .gate List.mem_cons_self hgate hx⟩
  | library hs hinvokes hx hinner => exact ⟨_, hs, .library List.mem_cons_self hinvokes hx hinner⟩

section one

variable {s t : StepSpec} {chain : List OriginEntry} {id : Text}

theorem inlinedFrom_written (hinvoke : s.invoke = none) :
    InlinedFrom tc libs [s] chain id t ↔
      t = s ∧ chain = [] ∧ ∃ x ∈ suffixes tc s.matrix, id = s.id ++ x := by
  constructor
  · intro h
    cases h with
    | written hmem _ hx =>
      obtain rfl := List.mem_singleton.mp hmem
      exact ⟨rfl, rfl, _, hx, rfl⟩
    | gate hmem hgate =>
      obtain rfl := List.mem_singleton.mp hmem
      exact (hgate.not_written hinvoke).elim
    | library hmem hinvokes =>
      obtain rfl := List.mem_singleton.mp hmem
      exact (hinvokes.not_written hinvoke).elim
  · rintro ⟨rfl, rfl, x, hx, rfl⟩
    exact .written List.mem_cons_self hinvoke hx

theorem inlinedFrom_gate {link : OriginEntry} (hgate : InvokesGate libs s link) :
    InlinedFrom tc libs [s] chain id t ↔
      t = s ∧ chain = [link] ∧ ∃ x ∈ suffixes tc s.matrix, id = s.id ++ x := by
  constructor
  · intro h
    cases h with
    | written hmem hnone =>
      obtain rfl := List.mem_singleton.mp hmem
      exact (hgate.not_written hnone).elim
    | gate hmem hgate' hx =>
      obtain rfl := List.mem_singleton.mp hmem
      exact ⟨rfl, by rw [hgate.unique hgate'], _, hx, rfl⟩
    | library hmem hinvokes =>
      obtain rfl := List.mem_singleton.mp hmem
      exact (hinvokes.not_gate hgate).elim
  · rintro ⟨rfl, rfl, x, hx, rfl⟩
    exact .gate List.mem_cons_self hgate hx

theorem inlinedFrom_library {link : OriginEntry} {lib : PipelineIr}
    (hinvokes : Invokes tc libs s link lib) :
    InlinedFrom tc libs [s] chain id t ↔
      ∃ x ∈ suffixes tc s.matrix, ∃ chain' id', chain = link :: chain' ∧
        id = ns (s.id ++ x) id' ∧ InlinedFrom tc libs lib.steps chain' id' t := by
  constructor
  · intro h
    cases h with
    | written hmem hnone =>
      obtain rfl := List.mem_singleton.mp hmem
      exact (hinvokes.not_written hnone).elim
    | gate hmem hgate =>
      obtain rfl := List.mem_singleton.mp hmem
      exact (hinvokes.not_gate hgate).elim
    | library hmem hinvokes' hx hinner =>
      obtain rfl := List.mem_singleton.mp hmem
      obtain ⟨rfl, rfl⟩ := hinvokes.unique hinvokes'
      exact ⟨_, hx, _, _, rfl, rfl, hinner⟩
  · rintro ⟨x, hx, chain', id', rfl, rfl, hinner⟩
    exact .library List.mem_cons_self hinvokes hx hinner

end one

/-- The chains of a level are those of `InlinedFrom`. -/
def Traces (tc : Toolchain) (libs : Libraries) (rel : LevelRel) : Prop :=
  ∀ ⦃level : Level⦄ ⦃stack : List Frame⦄ ⦃steps out : List StepSpec⦄,
    rel level stack steps out → ∀ chain id,
      NodeAt tc out chain id ↔ ∃ s, InlinedFrom tc libs steps chain id s

section adds

variable {below : Option LevelRel} {level : Level} {stack : List Frame} {siblings : List StepSpec}
  {exposed : Exposed} {p : Piece}

theorem nodeAt_singleton {n : StepSpec} {chain : List OriginEntry} {id : Text} :
    NodeAt tc [n] chain id ↔
      n.origin = chain ∧ ∃ x ∈ suffixes tc n.matrix, id = n.id ++ x := by
  simp [NodeAt]

theorem Adds.nodeAt_iff (h : Adds tc libs below level stack siblings exposed p)
    (hfields : Unwritten p.step) (ih : ∀ rel, below = some rel → Traces tc libs rel)
    (chain : List OriginEntry) (id : Text) :
    NodeAt tc p.nodes chain id ↔ ∃ s, InlinedFrom tc libs [p.step] chain id s := by
  cases h with
  | @run step hinvoke hscope =>
    obtain ⟨hid, horigin, hmatrix⟩ := ownStep_fields tc.toHost level siblings exposed step
    have horigin' : (ownStep tc.toHost level siblings exposed step).origin = [] :=
      horigin.trans hfields.origin
    rw [nodeAt_singleton, hid, horigin', hmatrix]
    simp only [inlinedFrom_written hinvoke, exists_eq_left]
    rw [eq_comm]
  | @gate step raw name def_ invs hinvoke htarget _ hdef _ _ hinvs =>
    have hgate : InvokesGate libs step ⟨.plugin, (pluginNames name).1, none, def_.manifestSha256⟩ :=
      ⟨raw, name, def_, hinvoke, htarget, hdef, rfl⟩
    simp only [inlinedFrom_gate hgate, exists_eq_left, ← exists_instance_id hinvs]
    constructor
    · rintro ⟨n, hn, rfl, x, hx, rfl⟩
      obtain ⟨inv, hinv, rfl⟩ := List.mem_map.mp hn
      have hm : inv.matrix = none := (instancesOf_spec hinvs hinv).matrix
      obtain rfl : x = [] := by simpa [pluginNode, hm, suffixes] using hx
      exact ⟨rfl, inv, hinv, by simp [pluginNode]⟩
    · rintro ⟨rfl, inv, hinv, rfl⟩
      have hm : inv.matrix = none := (instancesOf_spec hinvs hinv).matrix
      refine ⟨_, List.mem_map.mpr ⟨inv, hinv, rfl⟩, rfl, [], ?_, ?_⟩
      · simp [pluginNode, hm, suffixes]
      · simp [pluginNode]
  | @library step raw target source lib rel resolved invs hinvoke htarget _ _ hsource hparse hbelow
      _ _ _ hresolved hinvs =>
    have hinvokes : Invokes tc libs step (source.link (tc.sha256Hex source.src)) lib :=
      ⟨raw, target, hinvoke, htarget, links_of_librarySource hsource hparse⟩
    have htraces := ih rel hbelow hresolved
    simp only [inlinedFrom_library hinvokes]
    constructor
    · rintro ⟨n, hn, rfl, x, hx, rfl⟩
      obtain ⟨inv, hinv, hn⟩ := List.mem_flatMap.mp hn
      obtain ⟨ls, hls, rfl⟩ := List.mem_map.mp hn
      obtain ⟨hid, horigin, hmatrix⟩ := inlinedNode_fields _ _ _ _ inv ls
      rw [hmatrix] at hx
      obtain ⟨y, hy, hinvid⟩ := (exists_instance_id hinvs).mp ⟨inv, hinv, rfl⟩
      obtain ⟨t, ht⟩ := (htraces ls.origin (ls.id ++ x)).mp ⟨ls, hls, rfl, x, hx, rfl⟩
      refine ⟨t, y, hy, ls.origin, ls.id ++ x, horigin, ?_, ht⟩
      rw [hid, hinvid, ns_append]
    · rintro ⟨t, y, hy, chain', id', rfl, rfl, ht⟩
      obtain ⟨inv, hinv, hinvid⟩ := (exists_instance_id hinvs).mpr ⟨y, hy, rfl⟩
      obtain ⟨ls, hls, rfl, x, hx, rfl⟩ := (htraces chain' id').mpr ⟨t, ht⟩
      obtain ⟨hid, horigin, hmatrix⟩ := inlinedNode_fields
        (source.link (tc.sha256Hex source.src)) (step.deploy || lib.deploy) (resolved.map (·.id))
        (boundFor tc.toHost level siblings exposed step lib.interface.inputs).withNeeds inv ls
      refine ⟨_, List.mem_flatMap.mpr ⟨inv, hinv, List.mem_map.mpr ⟨ls, hls, rfl⟩⟩, horigin, x, ?_, ?_⟩
      · rwa [hmatrix]
      · rw [hid, hinvid, ns_append]

end adds

theorem nodeAt_seam {out : List StepSpec} {seam : Seam} {chain : List OriginEntry} {id : Text} :
    NodeAt tc (out.map (seamStep seam)) chain id ↔ NodeAt tc out chain id := by
  simp [NodeAt, seamStep]

theorem LevelInlines.traces {below : Option LevelRel}
    (ih : ∀ rel, below = some rel → Traces tc libs rel) :
    Traces tc libs (LevelInlines tc libs below) := by
  intro level stack steps out h chain id
  cases h with
  | @mk _ _ pieces exposed _ _ hfields hpieces =>
    have hpiece : ∀ p ∈ pieces,
        (NodeAt tc p.nodes chain id ↔ ∃ s, InlinedFrom tc libs [p.step] chain id s) :=
      fun p hp => (hpieces p hp).nodeAt_iff (unwritten_of_compilerFields (hfields p hp)) ih chain id
    rw [nodeAt_seam]
    constructor
    · rintro ⟨n, hn, hfacts⟩
      obtain ⟨p, hp, hn⟩ := List.mem_flatMap.mp hn
      obtain ⟨s, hs⟩ := (hpiece p hp).mp ⟨n, hn, hfacts⟩
      exact ⟨s, hs.of_mem (List.mem_map.mpr ⟨p, hp, rfl⟩)⟩
    · rintro ⟨s, hs⟩
      obtain ⟨t, ht, hs⟩ := hs.exists_mem
      obtain ⟨p, hp, rfl⟩ := List.mem_map.mp ht
      obtain ⟨n, hn, hfacts⟩ := (hpiece p hp).mpr ⟨s, hs⟩
      exact ⟨n, List.mem_flatMap.mpr ⟨p, hp, hn⟩, hfacts⟩

theorem Inlines.traces (room : ℕ) : Traces tc libs (Inlines tc libs room) :=
  Inlines.induction (fun _ => LevelInlines.traces) room

/-- A level inside an installed library reaches no file, and every level's chains are closed. -/
def ChainsClosed (rel : LevelRel) : Prop :=
  ∀ ⦃level : Level⦄ ⦃stack : List Frame⦄ ⦃steps out : List StepSpec⦄,
    rel level stack steps out → ∀ n ∈ out, Closed n.origin ∧
      (stack.head?.any (·.installed) = true → ∀ e ∈ n.origin, e.kind ≠ .file)

theorem librarySource_kind {target : InvokeTarget} {source : LibrarySource}
    (h : librarySource libs target = .ok source) :
    target.isFile = true ∧ source.kind = .file ∨ target.isFile = false ∧ source.kind = .library := by
  cases target with
  | file path =>
    cases hfile : libs.files.get path with
    | none => simp [librarySource, hfile] at h
    | some src =>
      obtain rfl : _ = source := by simpa [librarySource, hfile] using h
      exact .inl ⟨rfl, rfl⟩
  | lib name =>
    cases hinst : libs.installed.get name with
    | none => simp [librarySource, hinst] at h
    | some installed =>
      obtain rfl : _ = source := by simpa [librarySource, hinst] using h
      exact .inr ⟨rfl, rfl⟩
  | plugin name => cases h

theorem Adds.closed {below : Option LevelRel} {level : Level} {stack : List Frame}
    {siblings : List StepSpec} {exposed : Exposed} {p : Piece}
    (h : Adds tc libs below level stack siblings exposed p) (hfields : Unwritten p.step)
    (ih : ∀ rel, below = some rel → ChainsClosed rel) {n : StepSpec} (hn : n ∈ p.nodes) :
    Closed n.origin ∧ (stack.head?.any (·.installed) = true → ∀ e ∈ n.origin, e.kind ≠ .file) := by
  cases h with
  | @run step hinvoke hscope =>
    obtain rfl := List.mem_singleton.mp hn
    have horigin := (ownStep_fields tc.toHost level siblings exposed step).2.1.trans hfields.origin
    rw [horigin]
    exact ⟨List.Pairwise.nil, by simp⟩
  | gate =>
    obtain ⟨inv, -, rfl⟩ := List.mem_map.mp hn
    exact ⟨List.pairwise_singleton _ _, by simp [pluginNode]⟩
  | @library step raw target source lib rel resolved invs _ _ _ hclosed hsource _ hbelow
      _ _ _ hresolved _ =>
    obtain ⟨inv, -, hn⟩ := List.mem_flatMap.mp hn
    obtain ⟨ls, hls, rfl⟩ := List.mem_map.mp hn
    obtain ⟨hinner, hnofile⟩ := ih rel hbelow hresolved ls hls
    have hlib : source.kind = .library → ∀ e ∈ ls.origin, e.kind ≠ .file := by
      intro hkind
      exact hnofile (by simp [hkind])
    rw [(inlinedNode_fields _ _ _ _ inv ls).2.1]
    refine ⟨List.pairwise_cons.mpr ⟨fun e he hkind => hlib hkind e he, hinner⟩, fun hinst e he => ?_⟩
    obtain ⟨hfile, -⟩ | ⟨-, hkind⟩ := librarySource_kind hsource
    · rw [hclosed hinst] at hfile
      cases hfile
    · rcases List.mem_cons.mp he with rfl | he
      · simp [LibrarySource.link, hkind]
      · exact hlib hkind e he

theorem LevelInlines.chainsClosed {below : Option LevelRel}
    (ih : ∀ rel, below = some rel → ChainsClosed rel) :
    ChainsClosed (LevelInlines tc libs below) := by
  intro level stack steps out h n hn
  cases h with
  | @mk _ _ pieces exposed _ _ hfields hpieces =>
    obtain ⟨m, hm, rfl⟩ := List.mem_map.mp hn
    obtain ⟨p, hp, hm⟩ := List.mem_flatMap.mp hm
    have hclosed := (hpieces p hp).closed (unwritten_of_compilerFields (hfields p hp)) ih hm
    exact hclosed

theorem Inlines.chainsClosed (room : ℕ) : ChainsClosed (Inlines tc libs room) :=
  Inlines.induction (fun _ => LevelInlines.chainsClosed) room

/-- No file a level reaches sets a field of the compiler's. -/
def FilesUnwritten (tc : Toolchain) (libs : Libraries) (rel : LevelRel) : Prop :=
  ∀ ⦃level : Level⦄ ⦃stack : List Frame⦄ ⦃steps out : List StepSpec⦄,
    rel level stack steps out → ∀ file, Reaches tc libs steps file → ∀ s ∈ file, Unwritten s

theorem LevelInlines.filesUnwritten {below : Option LevelRel}
    (ih : ∀ rel, below = some rel → FilesUnwritten tc libs rel) :
    FilesUnwritten tc libs (LevelInlines tc libs below) := by
  intro level stack steps out h file hreaches
  cases h with
  | @mk _ _ pieces exposed _ _ hfields hpieces =>
    cases hreaches with
    | self =>
      intro s hs
      obtain ⟨p, hp, rfl⟩ := List.mem_map.mp hs
      exact unwritten_of_compilerFields (hfields p hp)
    | invoke hs hinvokes hreaches =>
      obtain ⟨p, hp, rfl⟩ := List.mem_map.mp hs
      obtain ⟨rel, inner, frames, resolved, hbelow, hresolved⟩ :=
        (hpieces p hp).library_of_invokes hinvokes
      exact ih rel hbelow hresolved file hreaches

theorem Inlines.filesUnwritten (room : ℕ) : FilesUnwritten tc libs (Inlines tc libs room) :=
  Inlines.induction (fun _ => LevelInlines.filesUnwritten) room

/-- What the compiler wrote on a node: no approval gate of an environment, and a plugin's gate
only where the last target of the chain is that plugin. -/
structure CompilerWritten (n : StepSpec) : Prop where
  environmentApprovalGate : n.environmentApprovalGate = none
  pluginGate : ∀ g, n.pluginGate = some g →
    ∃ e, n.origin.getLast? = some e ∧ e.kind = .plugin ∧ e.name = g.installation

theorem CompilerWritten.of_unwritten {s n : StepSpec} (h : Unwritten s)
    (he : n.environmentApprovalGate = s.environmentApprovalGate)
    (hp : n.pluginGate = s.pluginGate) : CompilerWritten n := by
  refine ⟨he.trans h.environmentApprovalGate, fun g hg => ?_⟩
  rw [hp, h.pluginGate] at hg
  cases hg

/-- A field neither a coordinate nor a reference changes. -/
theorem CompilerWritten.congr {m n : StepSpec} (h : CompilerWritten m)
    (he : n.environmentApprovalGate = m.environmentApprovalGate) (hp : n.pluginGate = m.pluginGate)
    (ho : n.origin = m.origin) : CompilerWritten n :=
  ⟨he.trans h.environmentApprovalGate, fun g hg => ho ▸ h.pluginGate g (hp ▸ hg)⟩

def NodesWritten (rel : LevelRel) : Prop :=
  ∀ ⦃level : Level⦄ ⦃stack : List Frame⦄ ⦃steps out : List StepSpec⦄,
    rel level stack steps out → ∀ n ∈ out, CompilerWritten n

theorem inlinedNode_compilerWritten {link : OriginEntry} {deploy : Bool}
    {inside withNeeds : List Text} {inv ls : StepSpec} (h : CompilerWritten ls) :
    CompilerWritten (inlinedNode link deploy inside withNeeds inv ls) := by
  obtain ⟨-, horigin, -⟩ := inlinedNode_fields link deploy inside withNeeds inv ls
  have he : (inlinedNode link deploy inside withNeeds inv ls).environmentApprovalGate =
      ls.environmentApprovalGate := by
    simp only [inlinedNode, carryInvokeFields]
    split_ifs <;> rfl
  have hp : (inlinedNode link deploy inside withNeeds inv ls).pluginGate = ls.pluginGate := by
    simp only [inlinedNode, carryInvokeFields]
    split_ifs <;> rfl
  refine ⟨he.trans h.environmentApprovalGate, fun g hg => ?_⟩
  obtain ⟨e, hlast, hkind⟩ := h.pluginGate g (hp ▸ hg)
  refine ⟨e, ?_, hkind⟩
  rw [horigin]
  cases horig : ls.origin with
  | nil => simp [horig] at hlast
  | cons a as => simpa [horig, List.getLast?_cons_cons] using hlast

theorem Adds.nodesWritten {below : Option LevelRel} {level : Level} {stack : List Frame}
    {siblings : List StepSpec} {exposed : Exposed} {p : Piece}
    (h : Adds tc libs below level stack siblings exposed p) (hfields : Unwritten p.step)
    (ih : ∀ rel, below = some rel → NodesWritten rel) {n : StepSpec} (hn : n ∈ p.nodes) :
    CompilerWritten n := by
  cases h with
  | @run step hinvoke hscope =>
    obtain rfl := List.mem_singleton.mp hn
    refine CompilerWritten.of_unwritten hfields ?_ ?_
    all_goals
      unfold ownStep invokeOutputScope
      split
      · rfl
      · split <;> rfl
  | @gate step raw name def_ invs _ _ _ _ _ _ hinvs =>
    obtain ⟨inv, hinv, rfl⟩ := List.mem_map.mp hn
    refine ⟨?_, fun g hg => ?_⟩
    · exact (instancesOf_spec hinvs hinv).environmentApprovalGate.trans
        hfields.environmentApprovalGate
    · obtain rfl := Option.some.inj hg
      exact ⟨_, rfl, rfl, rfl⟩
  | library _ _ _ _ _ _ hbelow _ _ _ hresolved _ =>
    obtain ⟨inv, -, hn⟩ := List.mem_flatMap.mp hn
    obtain ⟨ls, hls, rfl⟩ := List.mem_map.mp hn
    exact inlinedNode_compilerWritten (ih _ hbelow hresolved ls hls)

theorem LevelInlines.nodesWritten {below : Option LevelRel}
    (ih : ∀ rel, below = some rel → NodesWritten rel) :
    NodesWritten (LevelInlines tc libs below) := by
  intro level stack steps out h n hn
  cases h with
  | @mk _ _ pieces exposed _ _ hfields hpieces =>
    obtain ⟨m, hm, rfl⟩ := List.mem_map.mp hn
    obtain ⟨p, hp, hm⟩ := List.mem_flatMap.mp hm
    have hm := (hpieces p hp).nodesWritten (unwritten_of_compilerFields (hfields p hp)) ih hm
    exact hm.congr rfl rfl rfl

theorem Inlines.nodesWritten (room : ℕ) : NodesWritten (Inlines tc libs room) :=
  Inlines.induction (fun _ => LevelInlines.nodesWritten) room

theorem Compiles.node_iff {authored ir : PipelineIr} {inlined : List StepSpec}
    (h : Compiles tc libs authored inlined ir) (chain : List OriginEntry) (id : Text) :
    (∃ n ∈ ir.steps, n.origin = chain ∧ n.id = id) ↔ NodeAt tc inlined chain id := by
  rw [h.steps]
  constructor
  · rintro ⟨n, hn, rfl, rfl⟩
    obtain ⟨i, hi, rfl⟩ := List.mem_map.mp hn
    obtain ⟨m, hm, hi⟩ := List.mem_flatMap.mp hi
    obtain ⟨x, hx, hid⟩ := (exists_instance_id (h.expands m hm)).mp ⟨i, hi, rfl⟩
    exact ⟨m, hm, (instancesOf_spec (h.expands m hm) hi).origin.symm, x, hx, hid⟩
  · rintro ⟨m, hm, rfl, x, hx, rfl⟩
    obtain ⟨i, hi, hid⟩ := (exists_instance_id (h.expands m hm)).mpr ⟨x, hx, rfl⟩
    exact ⟨_, List.mem_map.mpr ⟨i, List.mem_flatMap.mpr ⟨m, hm, hi⟩, rfl⟩,
      (instancesOf_spec (h.expands m hm) hi).origin, hid⟩

theorem Compiles.origin_iff {authored ir : PipelineIr} {inlined : List StepSpec}
    (h : Compiles tc libs authored inlined ir) (chain : List OriginEntry) (id : Text) :
    (∃ n ∈ ir.steps, n.origin = chain ∧ n.id = id) ↔
      ∃ s, InlinedFrom tc libs authored.steps chain id s :=
  (h.node_iff chain id).trans (Inlines.traces maxInvokeDepth h.inlines chain id)

theorem Compiles.closed {authored ir : PipelineIr} {inlined : List StepSpec}
    (h : Compiles tc libs authored inlined ir) {n : StepSpec} (hn : n ∈ ir.steps) :
    Closed n.origin := by
  obtain ⟨m, hm, horigin, -⟩ := (h.node_iff n.origin n.id).mp ⟨n, hn, rfl, rfl⟩
  rw [← horigin]
  exact (Inlines.chainsClosed maxInvokeDepth h.inlines m hm).1

theorem Compiles.written {authored ir : PipelineIr} {inlined : List StepSpec}
    (h : Compiles tc libs authored inlined ir) {n : StepSpec} (hn : n ∈ ir.steps) :
    CompilerWritten n := by
  rw [h.steps] at hn
  obtain ⟨i, hi, rfl⟩ := List.mem_map.mp hn
  obtain ⟨m, hm, hi⟩ := List.mem_flatMap.mp hi
  have hinst := instancesOf_spec (h.expands m hm) hi
  exact (Inlines.nodesWritten maxInvokeDepth h.inlines m hm).congr hinst.environmentApprovalGate
    hinst.pluginGate hinst.origin

/-- Only the steps written in the pipeline file have no origin. -/
theorem Compiles.origin_nil_iff {authored ir : PipelineIr} {inlined : List StepSpec}
    (h : Compiles tc libs authored inlined ir) {n : StepSpec} (hn : n ∈ ir.steps) :
    n.origin = [] ↔ ∃ s ∈ authored.steps, s.invoke = none ∧
      ∃ x ∈ suffixes tc s.matrix, n.id = s.id ++ x := by
  constructor
  · intro horigin
    obtain ⟨s, hs⟩ := (h.origin_iff n.origin n.id).mp ⟨n, hn, rfl, rfl⟩
    rw [horigin] at hs
    generalize n.id = id at hs ⊢
    cases hs with
    | written hs hinvoke hx => exact ⟨_, hs, hinvoke, _, hx, rfl⟩
  · rintro ⟨s, hs, hinvoke, x, hx, hid⟩
    obtain ⟨m, hm, horigin, hmid⟩ := (h.origin_iff [] n.id).mpr ⟨s, hid ▸ .written hs hinvoke hx⟩
    -- ids are distinct, so the node of that step is `n` itself
    obtain rfl := List.inj_on_of_nodup_map h.nodup hm hn hmid
    exact horigin

/-- Provenance cannot be forged: the nodes of a compiled pipeline and their origins are exactly
the chains of invoke targets its files hold. -/
theorem origin_eq_invoke_chain {yaml : Text} {ir : PipelineIr}
    (h : compileLibs tc libs yaml = .ok ir) :
    ∃ authored, tc.parseYaml yaml = .ok authored ∧ (ir.steps.map (·.id)).Nodup ∧
      (∀ chain id, (∃ n ∈ ir.steps, n.origin = chain ∧ n.id = id) ↔
        ∃ s, InlinedFrom tc libs authored.steps chain id s) ∧
      (∀ n ∈ ir.steps, (n.origin = [] ↔ ∃ s ∈ authored.steps, s.invoke = none ∧
        ∃ x ∈ suffixes tc s.matrix, n.id = s.id ++ x) ∧ Closed n.origin ∧ CompilerWritten n) ∧
      ∀ file, Reaches tc libs authored.steps file → ∀ s ∈ file, Unwritten s := by
  obtain ⟨authored, inlined, hparse, -, hc⟩ := compileLibs_spec h
  refine ⟨authored, hparse, hc.nodup, hc.origin_iff, fun n hn => ?_, ?_⟩
  · exact ⟨hc.origin_nil_iff hn, hc.closed hn, hc.written hn⟩
  · exact Inlines.filesUnwritten maxInvokeDepth hc.inlines

-- A pipeline that deploys through an installed library.

def deployLibrary : Text :=
  textLines ["kind: library", "steps:", "  - id: apply", "    image: busybox"]

def deployPipeline : Text :=
  textLines ["steps:", "  - id: build", "    image: busybox", "  - id: deploy",
    "    invoke: lib:acme/deploy", "    needs: [build]"]

def deployTools : Toolchain := tableToolchain []
  [(deployLibrary,
      ⟨2, true, false, ⟨[], []⟩, [],
        [{ StepSpec.named "apply".toList with image := "busybox".toList }]⟩,
      addressText 0xd7491393cdc4b0e07954db631c63945efc7284725b8c866b58cbed83f8a93dd0),
    (deployPipeline,
      ⟨2, false, false, ⟨[], []⟩, [],
        [{ StepSpec.named "build".toList with image := "busybox".toList },
          { StepSpec.named "deploy".toList with
            invoke := some "lib:acme/deploy".toList, needs := ["build".toList] }]⟩,
      addressText 0xd3b07a245a38e36971df73e6d7ef1d6b4ae0c20d37964859e47364301ac3371f)]

def deployLibraries : Libraries :=
  ⟨∅, SortedMap.ofList [("acme/deploy".toList, ⟨deployLibrary, "git:acme/deploy@5f0c".toList⟩)], ∅⟩

theorem origin_eq_invoke_chain_deploy :
    ∃ ir authored : PipelineIr, compileLibs deployTools deployLibraries deployPipeline = .ok ir ∧
      deployTools.parseYaml deployPipeline = .ok authored ∧
      ir.steps.map (fun n => (n.id, n.origin.map (·.name))) =
        [("build".toList, []), ("deploy/apply".toList, ["acme/deploy".toList])] ∧
      ∀ chain id, (∃ n ∈ ir.steps, n.origin = chain ∧ n.id = id) ↔
        ∃ s, InlinedFrom deployTools deployLibraries authored.steps chain id s := by
  have hok : (compileLibs deployTools deployLibraries deployPipeline).toOption.map
      (fun ir => ir.steps.map (fun n => (n.id, n.origin.map (·.name)))) =
      some [("build".toList, []), ("deploy/apply".toList, ["acme/deploy".toList])] := by
    decide +kernel
  obtain ⟨ir, hir, hids⟩ := exists_of_toOption_map hok
  obtain ⟨authored, hparse, -, hiff, -⟩ := origin_eq_invoke_chain hir
  exact ⟨ir, authored, hir, hparse, hids, hiff⟩

end Scarab.Pipeline
