import Scarab.PipelineInlined

/-!
# The names of a file

What an `invoke:` step names, the nodes a step becomes and the copies of a file that a compile
makes. A level that went through holds exactly the nodes its steps become.
-/
namespace Scarab.Pipeline

variable {tc : Toolchain} {libs : Libraries}

/-- The origin entry of a library target, and the library parsed from the source it names. -/
inductive Links (tc : Toolchain) (libs : Libraries) : InvokeTarget → OriginEntry → PipelineIr → Prop
  | file {path src : Text} {lib : PipelineIr} (hsrc : libs.files.get path = some src)
      (hparse : tc.parseYaml src = .ok lib) :
      Links tc libs (.file path) ⟨.file, path, none, tc.sha256Hex src⟩ lib
  | lib {name : Text} {installed : InstalledLibrary} {lib : PipelineIr}
      (hsrc : libs.installed.get name = some installed)
      (hparse : tc.parseYaml installed.content = .ok lib) :
      Links tc libs (.lib name)
        ⟨.library, name, some installed.source, tc.sha256Hex installed.content⟩ lib

/-- A step invokes a library. -/
def Invokes (tc : Toolchain) (libs : Libraries) (s : StepSpec) (link : OriginEntry)
    (lib : PipelineIr) : Prop :=
  ∃ raw target, s.invoke = some raw ∧ parseInvokeTarget raw = .ok target ∧
    Links tc libs target link lib

/-- A step invokes a plugin's gate: its entry names the installation and the approved
manifest. -/
def InvokesGate (libs : Libraries) (s : StepSpec) (link : OriginEntry) : Prop :=
  ∃ raw name def_, s.invoke = some raw ∧ parseInvokeTarget raw = .ok (.plugin name) ∧
    libs.pluginGates.get name = some def_ ∧
    link = ⟨.plugin, (pluginNames name).1, none, def_.manifestSha256⟩

/-- The files a file's invoke steps reach, itself included. -/
inductive Reaches (tc : Toolchain) (libs : Libraries) : List StepSpec → List StepSpec → Prop
  | self {file : List StepSpec} : Reaches tc libs file file
  | invoke {file other : List StepSpec} {s : StepSpec} {link : OriginEntry} {lib : PipelineIr}
      (hs : s ∈ file) (hinvokes : Invokes tc libs s link lib)
      (hreaches : Reaches tc libs lib.steps other) : Reaches tc libs file other

theorem links_of_librarySource {target : InvokeTarget} {source : LibrarySource} {lib : PipelineIr}
    (hsource : librarySource libs target = .ok source) (hparse : tc.parseYaml source.src = .ok lib) :
    Links tc libs target (source.link (tc.sha256Hex source.src)) lib := by
  cases target with
  | file path =>
    cases hfile : libs.files.get path with
    | none => simp [librarySource, hfile] at hsource
    | some src =>
      obtain rfl : _ = source := by simpa [librarySource, hfile] using hsource
      exact .file hfile hparse
  | lib name =>
    cases hinst : libs.installed.get name with
    | none => simp [librarySource, hinst] at hsource
    | some installed =>
      obtain rfl : _ = source := by simpa [librarySource, hinst] using hsource
      exact .lib hinst hparse
  | plugin name => cases hsource

/-- A target has one link and one library. -/
theorem Links.unique {target : InvokeTarget} {link link' : OriginEntry} {lib lib' : PipelineIr}
    (h : Links tc libs target link lib) (h' : Links tc libs target link' lib') :
    link = link' ∧ lib = lib' := by
  cases h with
  | file hsrc hparse =>
    cases h' with
    | file hsrc' hparse' =>
      obtain rfl := Option.some.inj (hsrc.symm.trans hsrc')
      exact ⟨rfl, Except.ok.inj (hparse.symm.trans hparse')⟩
  | lib hsrc hparse =>
    cases h' with
    | lib hsrc' hparse' =>
      obtain rfl := Option.some.inj (hsrc.symm.trans hsrc')
      exact ⟨rfl, Except.ok.inj (hparse.symm.trans hparse')⟩

theorem Invokes.unique {s : StepSpec} {link link' : OriginEntry} {lib lib' : PipelineIr}
    (h : Invokes tc libs s link lib) (h' : Invokes tc libs s link' lib') :
    link = link' ∧ lib = lib' := by
  obtain ⟨raw, target, hraw, htarget, hlinks⟩ := h
  obtain ⟨raw', target', hraw', htarget', hlinks'⟩ := h'
  obtain rfl := Option.some.inj (hraw.symm.trans hraw')
  obtain rfl := Except.ok.inj (htarget.symm.trans htarget')
  exact hlinks.unique hlinks'

theorem Invokes.not_gate {s : StepSpec} {link link' : OriginEntry} {lib : PipelineIr}
    (h : Invokes tc libs s link lib) (h' : InvokesGate libs s link') : False := by
  obtain ⟨raw, target, hraw, htarget, hlinks⟩ := h
  obtain ⟨raw', name, def_, hraw', htarget', -⟩ := h'
  obtain rfl := Option.some.inj (hraw.symm.trans hraw')
  obtain rfl := Except.ok.inj (htarget.symm.trans htarget')
  cases hlinks

theorem InvokesGate.unique {s : StepSpec} {link link' : OriginEntry} (h : InvokesGate libs s link)
    (h' : InvokesGate libs s link') : link = link' := by
  obtain ⟨raw, name, def_, hraw, hname, hdef, rfl⟩ := h
  obtain ⟨raw', name', def', hraw', hname', hdef', rfl⟩ := h'
  obtain rfl := Option.some.inj (hraw.symm.trans hraw')
  obtain ⟨rfl⟩ : InvokeTarget.plugin name = .plugin name' :=
    Except.ok.inj (hname.symm.trans hname')
  obtain rfl := Option.some.inj (hdef.symm.trans hdef')
  rfl

theorem Invokes.not_written {s : StepSpec} {link : OriginEntry} {lib : PipelineIr}
    (h : Invokes tc libs s link lib) (hinvoke : s.invoke = none) : False := by
  obtain ⟨raw, -, hraw, -⟩ := h
  rw [hinvoke] at hraw
  cases hraw

theorem InvokesGate.not_written {s : StepSpec} {link : OriginEntry} (h : InvokesGate libs s link)
    (hinvoke : s.invoke = none) : False := by
  obtain ⟨raw, -, -, hraw, -⟩ := h
  rw [hinvoke] at hraw
  cases hraw

/-- An invoke step that was inlined invoked the library its target names. -/
theorem Adds.library_of_invokes {below : Option LevelRel} {level : Level} {stack : List Frame}
    {siblings : List StepSpec} {exposed : Exposed} {p : Piece}
    (h : Adds tc libs below level stack siblings exposed p) {link : OriginEntry} {lib : PipelineIr}
    (hinvokes : Invokes tc libs p.step link lib) :
    ∃ rel inner frames resolved, below = some rel ∧ rel inner frames lib.steps resolved := by
  cases h with
  | run hinvoke => exact (hinvokes.not_written hinvoke).elim
  | gate hinvoke htarget _ hdef =>
    exact (hinvokes.not_gate ⟨_, _, _, hinvoke, htarget, hdef, rfl⟩).elim
  | library hinvoke htarget _ _ hsource hparse hbelow _ _ _ hresolved _ =>
    obtain ⟨-, rfl⟩ := hinvokes.unique
      ⟨_, _, hinvoke, htarget, links_of_librarySource hsource hparse⟩
    exact ⟨_, _, _, _, hbelow, hresolved⟩

theorem ownStep_fields (host : Host) (level : Level) (siblings : List StepSpec) (exposed : Exposed)
    (step : StepSpec) :
    (ownStep host level siblings exposed step).id = step.id ∧
      (ownStep host level siblings exposed step).origin = step.origin ∧
      (ownStep host level siblings exposed step).matrix = step.matrix := by
  unfold ownStep
  split
  · exact ⟨rfl, rfl, rfl⟩
  · unfold invokeOutputScope
    split <;> exact ⟨rfl, rfl, rfl⟩

theorem inlinedNode_fields (link : OriginEntry) (deploy : Bool) (inside withNeeds : List Text)
    (inv ls : StepSpec) :
    (inlinedNode link deploy inside withNeeds inv ls).id = ns inv.id ls.id ∧
      (inlinedNode link deploy inside withNeeds inv ls).origin = link :: ls.origin ∧
      (inlinedNode link deploy inside withNeeds inv ls).matrix = ls.matrix := by
  simp only [inlinedNode, carryInvokeFields]
  split_ifs <;> exact ⟨rfl, rfl, rfl⟩

theorem ns_append (pre id x : Text) : ns pre id ++ x = ns pre (id ++ x) := by
  simp [ns]

/-- An invoke step's instances carry its id and a suffix of its matrix. -/
theorem exists_instance_id {step : StepSpec} {invs : List StepSpec}
    (h : instancesOf tc step = .ok invs) {id : Text} :
    (∃ inv ∈ invs, inv.id = id) ↔ ∃ x ∈ suffixes tc step.matrix, id = step.id ++ x := by
  rw [← List.mem_map (f := fun inv : StepSpec => inv.id), instancesOf_ids h, List.mem_map]
  simp only [eq_comm]

/-- `Named s b m`: the step becomes the node `b`, whose matrix `m` is still to be expanded. -/
inductive Named (tc : Toolchain) (libs : Libraries) : StepSpec → Text → Option Matrix → Prop
  | written {s : StepSpec} (hinvoke : s.invoke = none) : Named tc libs s s.id s.matrix
  | gate {s : StepSpec} {link : OriginEntry} {x : Text} (hgate : InvokesGate libs s link)
      (hx : x ∈ suffixes tc s.matrix) : Named tc libs s (s.id ++ x) none
  | library {s t : StepSpec} {link : OriginEntry} {lib : PipelineIr} {x b : Text}
      {m : Option Matrix} (hinvokes : Invokes tc libs s link lib) (hx : x ∈ suffixes tc s.matrix)
      (ht : t ∈ lib.steps) (hnamed : Named tc libs t b m) : Named tc libs s (ns (s.id ++ x) b) m

/-- A level's nodes are those its steps become. -/
def NodesNamed (tc : Toolchain) (libs : Libraries) (rel : LevelRel) : Prop :=
  ∀ ⦃level : Level⦄ ⦃stack : List Frame⦄ ⦃steps out : List StepSpec⦄,
    rel level stack steps out → ∀ b m,
      (∃ n ∈ out, n.id = b ∧ n.matrix = m) ↔ ∃ s ∈ steps, Named tc libs s b m

section named

variable {s : StepSpec} {b : Text} {m : Option Matrix}

theorem named_written (hinvoke : s.invoke = none) :
    Named tc libs s b m ↔ b = s.id ∧ m = s.matrix := by
  constructor
  · intro h
    cases h with
    | written => exact ⟨rfl, rfl⟩
    | gate hgate => exact (hgate.not_written hinvoke).elim
    | library hinvokes => exact (hinvokes.not_written hinvoke).elim
  · rintro ⟨rfl, rfl⟩
    exact .written hinvoke

theorem named_gate {link : OriginEntry} (hgate : InvokesGate libs s link) :
    Named tc libs s b m ↔ m = none ∧ ∃ x ∈ suffixes tc s.matrix, b = s.id ++ x := by
  constructor
  · intro h
    cases h with
    | written hinvoke => exact (hgate.not_written hinvoke).elim
    | gate _ hx => exact ⟨rfl, _, hx, rfl⟩
    | library hinvokes => exact (hinvokes.not_gate hgate).elim
  · rintro ⟨rfl, x, hx, rfl⟩
    exact .gate hgate hx

theorem named_library {link : OriginEntry} {lib : PipelineIr}
    (hinvokes : Invokes tc libs s link lib) :
    Named tc libs s b m ↔ ∃ x ∈ suffixes tc s.matrix, ∃ t ∈ lib.steps, ∃ b',
      b = ns (s.id ++ x) b' ∧ Named tc libs t b' m := by
  constructor
  · intro h
    cases h with
    | written hinvoke => exact (hinvokes.not_written hinvoke).elim
    | gate hgate => exact (hinvokes.not_gate hgate).elim
    | library hinvokes' hx ht hnamed =>
      obtain ⟨-, rfl⟩ := hinvokes.unique hinvokes'
      exact ⟨_, hx, _, ht, _, rfl, hnamed⟩
  · rintro ⟨x, hx, t, ht, b', rfl, hnamed⟩
    exact .library hinvokes hx ht hnamed

end named

theorem Adds.named_iff {below : Option LevelRel} {level : Level} {stack : List Frame}
    {siblings : List StepSpec} {exposed : Exposed} {p : Piece}
    (h : Adds tc libs below level stack siblings exposed p)
    (ih : ∀ rel, below = some rel → NodesNamed tc libs rel) (b : Text) (m : Option Matrix) :
    (∃ n ∈ p.nodes, n.id = b ∧ n.matrix = m) ↔ Named tc libs p.step b m := by
  cases h with
  | @run step hinvoke hscope =>
    obtain ⟨hid, -, hmatrix⟩ := ownStep_fields tc.toHost level siblings exposed step
    rw [named_written hinvoke]
    simp only [List.mem_singleton, exists_eq_left, hid, hmatrix, eq_comm]
  | @gate step raw name def_ invs hinvoke htarget _ hdef _ _ hinvs =>
    rw [named_gate ⟨raw, name, def_, hinvoke, htarget, hdef, rfl⟩, ← exists_instance_id hinvs]
    constructor
    · rintro ⟨n, hn, rfl, rfl⟩
      obtain ⟨inv, hinv, rfl⟩ := List.mem_map.mp hn
      exact ⟨(instancesOf_spec hinvs hinv).matrix, inv, hinv, rfl⟩
    · rintro ⟨rfl, inv, hinv, rfl⟩
      exact ⟨_, List.mem_map.mpr ⟨inv, hinv, rfl⟩, rfl, (instancesOf_spec hinvs hinv).matrix⟩
  | @library step raw target source lib rel resolved invs hinvoke htarget _ _ hsource hparse hbelow
      _ _ _ hresolved hinvs =>
    rw [named_library ⟨raw, target, hinvoke, htarget, links_of_librarySource hsource hparse⟩]
    constructor
    · rintro ⟨n, hn, rfl, rfl⟩
      obtain ⟨inv, hinv, hn⟩ := List.mem_flatMap.mp hn
      obtain ⟨ls, hls, rfl⟩ := List.mem_map.mp hn
      obtain ⟨hid, -, hmatrix⟩ := inlinedNode_fields (source.link (tc.sha256Hex source.src))
        (step.deploy || lib.deploy) (resolved.map (·.id))
        (boundFor tc.toHost level siblings exposed step lib.interface.inputs).withNeeds inv ls
      obtain ⟨x, hx, hinvid⟩ := (exists_instance_id hinvs).mp ⟨inv, hinv, rfl⟩
      obtain ⟨t, ht, hnamed⟩ := (ih rel hbelow hresolved ls.id ls.matrix).mp ⟨ls, hls, rfl, rfl⟩
      rw [hid, hmatrix]
      exact ⟨x, hx, t, ht, ls.id, by rw [hinvid], hnamed⟩
    · rintro ⟨x, hx, t, ht, b', rfl, hnamed⟩
      obtain ⟨inv, hinv, hinvid⟩ := (exists_instance_id hinvs).mpr ⟨x, hx, rfl⟩
      obtain ⟨ls, hls, rfl, rfl⟩ := (ih rel hbelow hresolved b' m).mpr ⟨t, ht, hnamed⟩
      obtain ⟨hid, -, hmatrix⟩ := inlinedNode_fields (source.link (tc.sha256Hex source.src))
        (step.deploy || lib.deploy) (resolved.map (·.id))
        (boundFor tc.toHost level siblings exposed step lib.interface.inputs).withNeeds inv ls
      refine ⟨_, List.mem_flatMap.mpr ⟨inv, hinv, List.mem_map.mpr ⟨ls, hls, rfl⟩⟩, ?_, hmatrix⟩
      rw [hid, hinvid]

theorem LevelInlines.nodesNamed {below : Option LevelRel}
    (ih : ∀ rel, below = some rel → NodesNamed tc libs rel) :
    NodesNamed tc libs (LevelInlines tc libs below) := by
  intro level stack steps out h b m
  cases h with
  | @mk _ _ pieces exposed _ _ _ hpieces =>
    constructor
    · rintro ⟨n, hn, hfacts⟩
      obtain ⟨k, hk, rfl⟩ := List.mem_map.mp hn
      obtain ⟨p, hp, hk⟩ := List.mem_flatMap.mp hk
      exact ⟨p.step, List.mem_map.mpr ⟨p, hp, rfl⟩,
        ((hpieces p hp).named_iff ih b m).mp ⟨k, hk, hfacts⟩⟩
    · rintro ⟨s, hs, hnamed⟩
      obtain ⟨p, hp, rfl⟩ := List.mem_map.mp hs
      obtain ⟨k, hk, hfacts⟩ := ((hpieces p hp).named_iff ih b m).mpr hnamed
      exact ⟨_, List.mem_map.mpr ⟨k, List.mem_flatMap.mpr ⟨p, hp, hk⟩, rfl⟩, hfacts⟩

theorem Inlines.nodesNamed (room : ℕ) : NodesNamed tc libs (Inlines tc libs room) :=
  Inlines.induction (fun _ => LevelInlines.nodesNamed) room

/-- An invoke step in a copy of a file: the copy's ids begin with `pre`. -/
structure Call where
  pre : Text
  file : List StepSpec
  step : StepSpec

def Call.under (id : Text) (c : Call) : Call := { c with pre := ns id c.pre }

/-- `Copy file calls pre other`: a compile of `file` holds a copy of `other` whose ids begin with
`pre`, made through the invoke steps of `calls`, innermost first. -/
inductive Copy (tc : Toolchain) (libs : Libraries) :
    List StepSpec → List Call → Text → List StepSpec → Prop
  | whole {file : List StepSpec} : Copy tc libs file [] [] file
  | inside {file other : List StepSpec} {s : StepSpec} {link : OriginEntry} {lib : PipelineIr}
      {x pre : Text} {calls : List Call} (hs : s ∈ file) (hinvokes : Invokes tc libs s link lib)
      (hx : x ∈ suffixes tc s.matrix) (hcopy : Copy tc libs lib.steps calls pre other) :
      Copy tc libs file (calls.map (Call.under (s.id ++ x)) ++ [⟨[], file, s⟩])
        (ns (s.id ++ x) pre) other

/-- A step's id and the ids of the nodes it becomes. -/
def IsName (tc : Toolchain) (libs : Libraries) (s : StepSpec) (r : Text) : Prop :=
  r = s.id ∨ ∃ m, Named tc libs s r m

/-- The steps a step refers to, as it is written. -/
def StepSpec.refs (s : StepSpec) : List Text := s.needs ++ s.inputs.getD []

/-- No two steps of a file share a name, and a node's id fixes its matrix. -/
structure NamesApart (tc : Toolchain) (libs : Libraries) (file : List StepSpec) : Prop where
  apart : file.Pairwise fun s t => ∀ r, IsName tc libs s r → ¬ IsName tc libs t r
  matrix : ∀ s ∈ file, ∀ b m m', Named tc libs s b m → Named tc libs s b m' → m = m'

/-- The `outputs` a template reads, each with the result read when it is a constant. -/
def templateReads (host : Host) (template : Text) : OutputNames :=
  (scanInterpolations template).found.flatMap fun i =>
    match host.reads i.expr with
    | .error _ => []
    | .ok reads => reads.filterMap fun r =>
        if r.var = "outputs".toList then r.first.map fun name => (name, r.second) else none

def withReads (host : Host) (step : StepSpec) : OutputNames :=
  step.with_.values.flatMap (templateReads host)

def stepReads (host : Host) (step : StepSpec) : OutputNames :=
  (templatesOf step).flatMap (fun f => templateReads host f.2) ++ withReads host step

/-- What a step of a file refers to: its needs and inputs, and the steps behind the outputs its
templates read. -/
inductive StepRef (tc : Toolchain) (libs : Libraries) (file : List StepSpec) (step : StepSpec) :
    Text → Prop
  | written {r : Text} (hr : r ∈ step.refs) : StepRef tc libs file step r
  | read {name : Text} {field : Option Text} {t : StepSpec}
      (hread : (name, field) ∈ stepReads tc.toHost step) (ht : t ∈ file)
      (hname : namesStep name t = true) : StepRef tc libs file step t.id
  | backing {field : Option Text} {t : StepSpec} {link : OriginEntry} {lib : PipelineIr}
      {src : Text} {iface : Interface} {o : OutputSpec}
      (hread : (t.id, field) ∈ stepReads tc.toHost step) (ht : t ∈ file) (hmatrix : t.matrix = none)
      (hinvokes : Invokes tc libs t link lib) (hparse : tc.parseYaml src = .ok lib)
      (hiface : tc.parseInterface src = some iface) (ho : o ∈ iface.outputs)
      (hfield : field.all (· = o.name) = true) : StepRef tc libs file step (ns t.id o.name)

/-- Every step of a file refers to names of the file. -/
def FileSealed (tc : Toolchain) (libs : Libraries) (file : List StepSpec) : Prop :=
  ∀ s ∈ file, ∀ r, StepRef tc libs file s r → ∃ t ∈ file, IsName tc libs t r

/-- Every file a file reaches keeps its names apart, and every library it reaches is sealed. -/
structure Tidy (tc : Toolchain) (libs : Libraries) (file : List StepSpec) : Prop where
  apart : ∀ other, Reaches tc libs file other → NamesApart tc libs other
  isSealed : ∀ other, Reaches tc libs file other → ∀ s ∈ other, ∀ link lib,
    Invokes tc libs s link lib → FileSealed tc libs lib.steps

theorem Tidy.inside {file : List StepSpec} (h : Tidy tc libs file) {s : StepSpec} (hs : s ∈ file)
    {link : OriginEntry} {lib : PipelineIr} (hinvokes : Invokes tc libs s link lib) :
    Tidy tc libs lib.steps :=
  ⟨fun other hr => h.apart other (.invoke hs hinvokes hr),
    fun other hr => h.isSealed other (.invoke hs hinvokes hr)⟩

theorem NamesApart.eq_of_isName {file : List StepSpec} (h : NamesApart tc libs file)
    {s t : StepSpec} (hs : s ∈ file) (ht : t ∈ file) {r : Text} (hsr : IsName tc libs s r)
    (htr : IsName tc libs t r) : s = t := by
  by_contra hne
  have hsymm : Std.Symm fun s t : StepSpec => ∀ r, IsName tc libs s r → ¬ IsName tc libs t r :=
    ⟨fun a b hab r hb ha => hab r ha hb⟩
  exact h.apart.forall hs ht hne r hsr htr

theorem mem_pushNew {x n : Text} {l : List Text} : x ∈ pushNew n l ↔ x ∈ l ∨ x = n := by
  unfold pushNew
  split_ifs with h
  · constructor
    · exact .inl
    · rintro (hx | rfl)
      · exact hx
      · exact h
  · simp

theorem mem_pushAllNew {x : Text} {new l : List Text} :
    x ∈ pushAllNew new l ↔ x ∈ l ∨ x ∈ new := by
  induction new generalizing l with
  | nil => simp [pushAllNew]
  | cons n ns ih =>
    have hstep : pushAllNew (n :: ns) l = pushAllNew ns (pushNew n l) := rfl
    rw [hstep, ih, mem_pushNew, List.mem_cons, or_assoc]

/-- The ids a reference stands for once it is moved through the seam. -/
def exits (seam : Seam) (r : Text) : List Text := (seam.get r).getD [r]

theorem mem_rewriteThroughSeam {x : Text} {seam : Seam} {refs : List Text} :
    x ∈ rewriteThroughSeam seam refs ↔ ∃ r ∈ refs, x ∈ exits seam r := by
  induction refs using List.reverseRecOn with
  | nil => simp [rewriteThroughSeam]
  | append_singleton rs r ih =>
    rw [rewriteThroughSeam] at ih ⊢
    rw [List.foldl_append, List.foldl_cons, List.foldl_nil]
    cases hr : seam.get r with
    | none => simp [exits, hr, mem_pushNew, ih, or_and_right, exists_or]
    | some leaves => simp [exits, hr, mem_pushAllNew, ih, or_and_right, exists_or]

theorem seam_get_of_not {pieces : List Piece} {seam : Seam} {r : Text}
    (h : ∀ p ∈ pieces, p.leaves.isSome = true → p.step.id ≠ r) :
    (pieces.foldl Piece.addTo seam).get r = seam.get r := by
  induction pieces generalizing seam with
  | nil => rfl
  | cons p ps ih =>
    rw [List.foldl_cons, ih fun q hq => h q (List.mem_cons_of_mem _ hq)]
    unfold Piece.addTo
    cases hl : p.leaves with
    | none => rfl
    | some leaves =>
      rw [SortedMap.get_insert, if_neg]
      exact fun hr => h p List.mem_cons_self (by simp [hl]) hr.symm

theorem seamOf_get {pieces : List Piece}
    (hids : pieces.Pairwise fun p q => p.step.id ≠ q.step.id) {p : Piece} (hp : p ∈ pieces) :
    (seamOf pieces).get p.step.id = p.leaves := by
  obtain ⟨l₁, l₂, rfl⟩ := List.append_of_mem hp
  obtain ⟨-, h₂, h₁₂⟩ := List.pairwise_append.mp hids
  obtain ⟨hlater, -⟩ := List.pairwise_cons.mp h₂
  rw [seamOf, List.foldl_append, List.foldl_cons,
    seam_get_of_not fun q hq _ hid => hlater q hq hid.symm]
  have hbefore : (l₁.foldl Piece.addTo ∅).get p.step.id = none :=
    seam_get_of_not fun q hq _ => h₁₂ q hq p List.mem_cons_self
  generalize l₁.foldl Piece.addTo ∅ = seam at hbefore ⊢
  cases hl : p.leaves with
  | none => simpa [Piece.addTo, hl] using hbefore
  | some leaves => simp [Piece.addTo, hl, SortedMap.get_insert]

/-- A matrix's instances never keep the bare id. -/
theorem nil_not_mem_suffixes {matrix : Matrix} : [] ∉ suffixes tc (some matrix) := by
  simp only [suffixes]
  split
  · simp
  · simp [combinationSuffix]

section level

variable {below : Option LevelRel} {level : Level} {stack : List Frame} {exposed : Exposed}
  {pieces : List Piece}

/-- The steps of a level have distinct ids. -/
theorem pieces_ids_ne (hapart : NamesApart tc libs (pieces.map (·.step))) :
    pieces.Pairwise fun p q => p.step.id ≠ q.step.id :=
  (List.pairwise_map.mp hapart.apart).imp fun h hid => h _ (.inl rfl) (.inl hid)

theorem exits_step (hapart : NamesApart tc libs (pieces.map (·.step))) {p : Piece}
    (hp : p ∈ pieces) : exits (seamOf pieces) p.step.id = p.leaves.getD [p.step.id] := by
  rw [exits, seamOf_get (pieces_ids_ne hapart) hp]

/-- A step whose references move becomes no node of its own id. -/
theorem Adds.not_named_id {siblings : List StepSpec} {p : Piece}
    (h : Adds tc libs below level stack siblings exposed p) (hleaves : p.leaves.isSome = true)
    {m : Option Matrix} : ¬ Named tc libs p.step p.step.id m := by
  cases h with
  | run => cases hleaves
  | @gate step raw name def_ invs hinvoke htarget _ hdef _ _ hinvs =>
    rw [named_gate ⟨raw, name, def_, hinvoke, htarget, hdef, rfl⟩]
    rintro ⟨-, x, hx, hid⟩
    obtain rfl : x = [] := by simpa using hid
    cases hm : step.matrix with
    | none => simp [hm] at hleaves
    | some matrix =>
      rw [hm] at hx
      exact nil_not_mem_suffixes hx
  | @library step raw target source lib rel resolved invs hinvoke htarget _ _ hsource hparse =>
    rw [named_library ⟨raw, target, hinvoke, htarget, links_of_librarySource hsource hparse⟩]
    rintro ⟨x, -, t, -, b, hid, -⟩
    have hlen := congrArg List.length hid
    simp [ns] at hlen

/-- References to a node are not moved. -/
theorem exits_node (hapart : NamesApart tc libs (pieces.map (·.step)))
    (hpieces : ∀ p ∈ pieces, Adds tc libs below level stack (pieces.map (·.step)) exposed p)
    {p : Piece} (hp : p ∈ pieces) {d : Text} {m : Option Matrix} (hd : Named tc libs p.step d m) :
    exits (seamOf pieces) d = [d] := by
  have hnone : (seamOf pieces).get d = none := by
    rw [seamOf, seam_get_of_not]
    · rfl
    · rintro q hq hleaves rfl
      have hstep : q.step = p.step := hapart.eq_of_isName (List.mem_map.mpr ⟨q, hq, rfl⟩)
        (List.mem_map.mpr ⟨p, hp, rfl⟩) (.inl rfl) (.inr ⟨m, hd⟩)
      rw [← hstep] at hd
      exact (hpieces q hq).not_named_id hleaves hd
  rw [exits, hnone]
  rfl

/-- Where a step's references move are nodes it becomes. -/
theorem Adds.leaves_named {siblings : List StepSpec} {p : Piece}
    (h : Adds tc libs below level stack siblings exposed p)
    (ih : ∀ rel, below = some rel → NodesNamed tc libs rel) {x : Text}
    (hx : x ∈ p.leaves.getD [p.step.id]) : ∃ m, Named tc libs p.step x m := by
  cases h with
  | @run step hinvoke hscope =>
    obtain rfl : x = step.id := by simpa using hx
    exact ⟨_, .written hinvoke⟩
  | @gate step raw name def_ invs hinvoke htarget _ hdef _ _ hinvs =>
    have hgate : InvokesGate libs step _ := ⟨raw, name, def_, hinvoke, htarget, hdef, rfl⟩
    cases hm : step.matrix with
    | none =>
      obtain rfl : x = step.id := by simpa [hm] using hx
      exact ⟨none, (named_gate hgate).mpr ⟨rfl, [], by simp [hm, suffixes], by simp⟩⟩
    | some matrix =>
      obtain ⟨inv, hinv, rfl⟩ : ∃ inv ∈ invs, inv.id = x := by simpa [hm] using hx
      obtain ⟨y, hy, hid⟩ := (exists_instance_id hinvs).mp ⟨inv, hinv, rfl⟩
      exact ⟨none, (named_gate hgate).mpr ⟨rfl, y, hy, hid⟩⟩
  | @library step raw target source lib rel resolved invs hinvoke htarget _ _ hsource hparse hbelow
      _ _ _ hresolved hinvs =>
    simp only [Option.getD_some, List.mem_flatMap, copyLeaves, List.mem_map, List.mem_filter] at hx
    obtain ⟨inv, hinv, ls, ⟨hls, -⟩, rfl⟩ := hx
    obtain ⟨y, hy, hid⟩ := (exists_instance_id hinvs).mp ⟨inv, hinv, rfl⟩
    obtain ⟨t, ht, hnamed⟩ := (ih rel hbelow hresolved ls.id ls.matrix).mp ⟨ls, hls, rfl, rfl⟩
    have hinvokes : Invokes tc libs step _ lib :=
      ⟨raw, target, hinvoke, htarget, links_of_librarySource hsource hparse⟩
    exact ⟨_, (named_library hinvokes).mpr ⟨y, hy, t, ht, ls.id, by rw [hid], hnamed⟩⟩

/-- A reference to a name of a step moves to nodes of that step. -/
theorem named_of_mem_exits (hapart : NamesApart tc libs (pieces.map (·.step)))
    (hpieces : ∀ p ∈ pieces, Adds tc libs below level stack (pieces.map (·.step)) exposed p)
    (ih : ∀ rel, below = some rel → NodesNamed tc libs rel) {p : Piece} (hp : p ∈ pieces)
    {r x : Text} (hr : IsName tc libs p.step r) (hx : x ∈ exits (seamOf pieces) r) :
    ∃ m, Named tc libs p.step x m := by
  rcases hr with rfl | ⟨m, hd⟩
  · rw [exits_step hapart hp] at hx
    exact (hpieces p hp).leaves_named ih hx
  · rw [exits_node hapart hpieces hp hd] at hx
    obtain rfl := List.mem_singleton.mp hx
    exact ⟨m, hd⟩

end level

/-- The steps a read of `outputs` needs: a sibling, or the step behind an exposed output. -/
def ReadNeeds (siblings : List StepSpec) (exposed : Exposed) (needs : List Text)
    (read : Text × Option Text) (r : Text) : Prop :=
  (∃ outs o, exposed.get read.1 = some (some outs) ∧ o ∈ outs ∧ read.2.all (· = o) = true ∧
    r = ns read.1 o) ∨
  ∃ t ∈ siblings, t.invoke.all isPluginInvoke = true ∧ namesStep read.1 t = true ∧
    t.id ∈ needs ∧ r = t.id

section view

variable {siblings : List StepSpec} {exposed : Exposed} {needs : List Text}

theorem viewRead_spec {acc : OutputView} {read : Text × Option Text}
    (hd : (viewRead siblings exposed needs acc read).problems = []) :
    acc.problems = [] ∧ ∀ r ∈ (viewRead siblings exposed needs acc read).needs,
      r ∈ acc.needs ∨ ReadNeeds siblings exposed needs read r := by
  unfold viewRead at hd ⊢
  split at hd
  · exact ⟨hd, fun r hr => .inl hr⟩
  · next outs hget =>
    refine ⟨hd, fun r hr => ?_⟩
    rcases mem_pushAllNew.mp hr with hr | hr
    · exact .inl hr
    · simp only [backingIds, List.mem_map, List.mem_filter] at hr
      obtain ⟨o, ⟨ho, hfield⟩, rfl⟩ := hr
      exact .inr (.inl ⟨outs, o, hget, ho, hfield, rfl⟩)
  · cases hfind : siblings.find? fun s => s.invoke.all isPluginInvoke && namesStep read.1 s with
    | none => simp [hfind] at hd
    | some t =>
      have hmem := List.mem_of_find?_eq_some hfind
      have hfound := List.find?_some hfind
      simp only [Bool.and_eq_true] at hfound
      simp only [hfind] at hd ⊢
      split_ifs at hd with hneeds
      · refine ⟨hd, fun r hr => ?_⟩
        rcases mem_pushNew.mp hr with hr | rfl
        · exact .inl hr
        · exact .inr (.inr ⟨t, hmem, hfound.1, hfound.2, hneeds, rfl⟩)
      · simp at hd

theorem outputView_spec {reads : OutputNames}
    (hd : (outputView reads siblings exposed needs).problems = []) {r : Text}
    (hr : r ∈ (outputView reads siblings exposed needs).needs) :
    ∃ read ∈ reads, ReadNeeds siblings exposed needs read r := by
  have hfold : ∀ acc : OutputView, (reads.foldl (viewRead siblings exposed needs) acc).problems = [] →
      acc.problems = [] ∧ ∀ r ∈ (reads.foldl (viewRead siblings exposed needs) acc).needs,
        r ∈ acc.needs ∨ ∃ read ∈ reads, ReadNeeds siblings exposed needs read r := by
    clear hd hr
    induction reads with
    | nil => exact fun acc h => ⟨h, fun r hr => .inl hr⟩
    | cons read reads ih =>
      intro acc h
      obtain ⟨hread, hneeds⟩ := ih _ h
      obtain ⟨hacc, hnew⟩ := viewRead_spec hread
      refine ⟨hacc, fun r hr => ?_⟩
      rcases hneeds r hr with hr | ⟨read', hread', hr⟩
      · rcases hnew r hr with hr | hr
        · exact .inl hr
        · exact .inr ⟨read, List.mem_cons_self, hr⟩
      · exact .inr ⟨read', List.mem_cons_of_mem _ hread', hr⟩
  rcases (hfold _ hd).2 r hr with h | h
  · cases h
  · exact h

end view

/-- A step of a level that exposes outputs invokes a library, with its own id. -/
theorem exposed_invokes {below : Option LevelRel} {level : Level} {stack : List Frame}
    {exposed : Exposed} {pieces : List Piece}
    (hexposed : ExposedSound tc libs (pieces.map (·.step)) exposed)
    (hpieces : ∀ p ∈ pieces, Adds tc libs below level stack (pieces.map (·.step)) exposed p)
    {name : Text} {outs : List Text} (hget : exposed.get name = some (some outs)) :
    ∃ s ∈ pieces.map (·.step), s.id = name ∧ s.matrix = none ∧ ∃ link lib src iface,
      Invokes tc libs s link lib ∧ tc.parseYaml src = .ok lib ∧
      tc.parseInterface src = some iface ∧ outs = iface.outputs.map (·.name) := by
  obtain ⟨s, hs, hid, hm, raw, target, src, iface, hraw, htarget, hsrc, hiface, houts⟩ := hexposed hget
  obtain ⟨p, hp, rfl⟩ := List.mem_map.mp hs
  refine ⟨p.step, hs, hid, hm, ?_⟩
  cases hpieces p hp with
  | run hinvoke =>
    rw [hinvoke] at hraw
    cases hraw
  | gate hinvoke htarget' =>
    obtain rfl := Option.some.inj (hinvoke.symm.trans hraw)
    obtain rfl := Except.ok.inj (htarget'.symm.trans htarget)
    cases hsrc
  | library hinvoke htarget' _ _ hsource hparse =>
    obtain rfl := Option.some.inj (hinvoke.symm.trans hraw)
    obtain rfl := Except.ok.inj (htarget'.symm.trans htarget)
    obtain rfl := Option.some.inj ((librarySource_src hsource).symm.trans hsrc)
    exact ⟨_, _, _, iface, ⟨_, _, hraw, htarget, links_of_librarySource hsource hparse⟩, hparse,
      hiface, houts⟩

end Scarab.Pipeline
