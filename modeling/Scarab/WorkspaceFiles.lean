import Scarab.FanInReport

/-!
# A workspace on disk

Files, links and directories with their modes, by path below the workspace. The process owns
all of them. No operation here follows a symlink: where the system would, the model fails.
-/
namespace Scarab.Storage

open Depot

inductive FsNode where
  | dir (mode : ℕ)
  | file (content : Bytes) (mode : ℕ)
  | link (dest : Bytes)
  deriving DecidableEq, Repr

/-- An mtime is known once it was set, until the next write. -/
structure Workspace where
  nodes : List Text → Option FsNode
  mtimes : List Text → Option ℤ

namespace Workspace

/-- A change in a directory also moves the directory's mtime. -/
def set (ws : Workspace) (path : List Text) (node : Option FsNode) : Workspace where
  nodes := Function.update ws.nodes path node
  mtimes p := if p = path ∨ p = path.dropLast then none else ws.mtimes p

def setTimes (ws : Workspace) (path : List Text) (ms : ℤ) : Workspace :=
  { ws with mtimes := Function.update ws.mtimes path (some ms) }

/-- A text with a NUL in it is no name, for any operation. -/
def spelled (path : List Text) : Bool := path.all fun name => decide ('\x00' ∉ name)

def passable (ws : Workspace) (path : List Text) : Bool :=
  match ws.nodes path with
  | some (.dir mode) => ownerHas mode 0o100
  | _ => false

/-- The path can be written down, and every directory on the way lets the owner through. -/
def reachable (ws : Workspace) (path : List Text) : Bool :=
  spelled path && path.inits.all fun p => p = path || ws.passable p

def writable (ws : Workspace) (path : List Text) : Bool :=
  match ws.nodes path with
  | some (.dir mode) => ownerHas mode 0o300
  | _ => false

variable (umask : ℕ)

def makeDir (ws : Workspace) (path : List Text) : Except StorageError Workspace :=
  if ws.reachable path then
    match ws.nodes path with
    | some (.dir _) => .ok ws
    | some _ => .error .backend
    | none =>
        if ws.writable path.dropLast then .ok (ws.set path (some (.dir (Nat.ldiff 0o777 umask))))
        else .error .backend
  else .error .backend

def createDirAll (ws : Workspace) (path : List Text) : Except StorageError Workspace :=
  path.inits.foldlM (makeDir umask) ws

def removeFile (ws : Workspace) (path : List Text) : Except StorageError Workspace :=
  if ws.reachable path ∧ ws.writable path.dropLast then
    match ws.nodes path with
    | some (.file _ _) | some (.link _) => .ok (ws.set path none)
    | _ => .error .backend
  else .error .backend

/-- A link's text is not empty and has no NUL. -/
def linkText (dest : Bytes) : Bool := decide (dest ≠ [] ∧ 0 ∉ dest)

def symlink (ws : Workspace) (dest : Bytes) (path : List Text) : Except StorageError Workspace :=
  if linkText dest ∧ ws.reachable path ∧ ws.writable path.dropLast ∧ ws.nodes path = none then
    .ok (ws.set path (some (.link dest)))
  else .error .backend

/-- Open for writing, truncated or created, and write all of the data. -/
def writeData (ws : Workspace) (path : List Text) (data : Bytes) :
    Except StorageError Workspace :=
  if ws.reachable path then
    match ws.nodes path with
    | some (.file _ mode) =>
        if ownerHas mode 0o200 then .ok (ws.set path (some (.file data mode)))
        else .error .backend
    | none =>
        if ws.writable path.dropLast then
          .ok (ws.set path (some (.file data (Nat.ldiff 0o666 umask))))
        else .error .backend
    | _ => .error .backend
  else .error .backend

def setPermissions (ws : Workspace) (path : List Text) (bits : ℕ) :
    Except StorageError Workspace :=
  if ws.reachable path then
    match ws.nodes path with
    | some (.dir _) => .ok { ws with nodes := Function.update ws.nodes path (some (.dir bits)) }
    | some (.file content _) =>
        .ok { ws with nodes := Function.update ws.nodes path (some (.file content bits)) }
    | _ => .error .backend
  else .error .backend

/-- The permission bits at a path, where it can be asked for. -/
def statMode (ws : Workspace) (path : List Text) : Option ℕ :=
  if ws.reachable path then
    match ws.nodes path with
    | some (.dir mode) | some (.file _ mode) => some (mode &&& 0o7777)
    | _ => none
  else none

/-- Open for reading. -/
def openRead (ws : Workspace) (path : List Text) : Except StorageError Unit :=
  if ws.reachable path then
    match ws.nodes path with
    | some (.dir mode) | some (.file _ mode) =>
        if ownerHas mode 0o400 then .ok () else .error .backend
    | _ => .error .backend
  else .error .backend

end Workspace

/-- The segments of a manifest path, which has to stay in the workspace. -/
def safeJoin (path : Text) : Except StorageError (List Text) :=
  let parts := path.splitOn '/'
  let out := parts.filter fun s => s ≠ [] ∧ s ≠ ['.']
  if ['.', '.'] ∈ parts ∨ out = [] then .error .backend else .ok out

def applyMetadata (ws : Workspace) (path : List Text) (mode : Option ℕ) (mtimeMs : Option ℤ) :
    Except StorageError Workspace := do
  let ws ← match mtimeMs with
    | none => .ok ws
    | some ms => do
        ws.openRead path
        .ok (ws.setTimes path ms)
  match mode with
  | none => .ok ws
  | some bits => ws.setPermissions path bits

/-- Write, then the mtime, then the mode, all on one handle. -/
def writeFile (umask : ℕ) (ws : Workspace) (path : List Text) (data : Bytes) (mode : Option ℕ)
    (mtimeMs : Option ℤ) : Except StorageError Workspace := do
  let ws ← ws.writeData umask path data
  let ws := match mtimeMs with
    | none => ws
    | some ms => ws.setTimes path ms
  match mode with
  | none => .ok ws
  | some bits => ws.setPermissions path bits

/-- A read-only file cannot be opened, and a link would be followed. -/
def unlinkFirst (ws : Workspace) (target : List Text) : Except StorageError Workspace :=
  if ws.reachable target ∧ ws.nodes target ≠ none then ws.removeFile target else .ok ws

def writeEntry (umask : ℕ) (ws : Workspace) (entry : FlatEntry) (data : Bytes) :
    Except StorageError Workspace := do
  let target ← safeJoin entry.path
  let ws ← ws.createDirAll umask target.dropLast
  let ws ← unlinkFirst ws target
  if isSymlinkMode entry.mode then ws.symlink data target
  else writeFile umask ws target data (entry.mode.map (· &&& 0o7777)) entry.mtimeMs

def fetchEntry (umask : ℕ) (getBlob : Text → Except StorageError Bytes) (ws : Workspace)
    (entry : FlatEntry) : Except StorageError Workspace := do
  let data ← getBlob entry.blob
  writeEntry umask ws entry data

/-- What is left to apply to a directory once everything in it is there. -/
abbrev Deferred := List Text × Option ℕ × Option ℤ

def materializeDir (umask : ℕ) (acc : Workspace × List Deferred) (dir : FlatDir) :
    Except StorageError (Workspace × List Deferred) := do
  let target ← safeJoin dir.path
  let pre := acc.1.statMode target
  let ws ← acc.1.createDirAll umask target
  let restore := dir.mode.map (· &&& 0o7777)
  match pre with
  | none => .ok (ws, acc.2 ++ [(target, restore, dir.mtimeMs)])
  | some cur =>
      if cur &&& 0o700 = 0o700 then .ok (ws, acc.2 ++ [(target, restore, dir.mtimeMs)])
      else do
        let ws ← ws.setPermissions target (cur ||| 0o700)
        .ok (ws, acc.2 ++ [(target, restore <|> some cur, dir.mtimeMs)])

/-- The deepest first. -/
def sortDeferred (deferred : List Deferred) : List Deferred :=
  deferred.insertionSort fun a b => b.1 ≤ a.1

/-- Apply a manifest. Its entries are fetched side by side and written in the order `order`. -/
def materializeFlat (umask : ℕ) (getBlob : Text → Except StorageError Bytes)
    (manifest : FlatManifest) (order : List FlatEntry) (ws : Workspace) :
    Except StorageError Workspace := do
  let ws ← ws.createDirAll umask []
  let (ws, deferred) ← manifest.dirs.foldlM (materializeDir umask) (ws, [])
  let ws ← order.foldlM (fetchEntry umask getBlob) ws
  (sortDeferred deferred).foldlM (fun ws d => applyMetadata ws d.1 d.2.1 d.2.2) ws

def Open (ws : Workspace) (path : List Text) : Prop :=
  ∃ mode, ws.nodes path = some (.dir mode) ∧ ownerHas mode 0o700 = true

/-- The path has no NUL, and every directory on the way to it is open. -/
structure Passed (ws : Workspace) (path : List Text) : Prop where
  spelled : Workspace.spelled path = true
  opened : ∀ p, p <+: path → p ≠ path → Open ws p

theorem ownerHas_of_all {mode bits : ℕ} (h : ownerHas mode 0o700 = true)
    (hbits : 0o700 &&& bits = bits) : ownerHas mode bits = true := by
  simp only [ownerHas, decide_eq_true_eq] at h ⊢
  calc mode &&& bits = mode &&& (0o700 &&& bits) := by rw [hbits]
    _ = mode &&& 0o700 &&& bits := (Nat.and_assoc mode 0o700 bits).symm
    _ = bits := by rw [h, hbits]

theorem passable_of_open {ws : Workspace} {path : List Text} (h : Open ws path) :
    ws.passable path = true := by
  obtain ⟨mode, hnode, hmode⟩ := h
  simp only [Workspace.passable, hnode]
  exact ownerHas_of_all hmode rfl

theorem reachable_of_passed {ws : Workspace} {path : List Text} (h : Passed ws path) :
    ws.reachable path = true := by
  simp only [Workspace.reachable, h.spelled, Bool.true_and, List.all_eq_true, List.mem_inits,
    Bool.or_eq_true, decide_eq_true_eq]
  intro p hp
  by_cases heq : p = path
  · exact .inl heq
  · exact .inr (passable_of_open (h.opened p hp heq))

theorem dropLast_ne {path : List Text} (h : path ≠ []) : path.dropLast ≠ path := by
  intro heq
  have hlen := congrArg List.length heq
  have hpos := List.length_pos_of_ne_nil h
  rw [List.length_dropLast] at hlen
  omega

theorem writable_of_passed {ws : Workspace} {path : List Text} (hne : path ≠ [])
    (h : Passed ws path) : ws.writable path.dropLast = true := by
  obtain ⟨mode, hnode, hmode⟩ :=
    h.opened path.dropLast (List.dropLast_prefix path) (dropLast_ne hne)
  simp only [Workspace.writable, hnode]
  exact ownerHas_of_all hmode rfl

theorem spelled_of_prefix {path path' : List Text} (h : Workspace.spelled path = true)
    (hpre : path' <+: path) : Workspace.spelled path' = true :=
  List.all_eq_true.mpr fun name hname => List.all_eq_true.mp h name (hpre.subset hname)

theorem Passed.of_prefix {ws : Workspace} {path path' : List Text} (h : Passed ws path)
    (hpre : path' <+: path) : Passed ws path' where
  spelled := spelled_of_prefix h.spelled hpre
  opened := by
    intro p hp hne
    refine h.opened p (hp.trans hpre) fun heq => hne ?_
    exact hp.eq_of_length_le (heq ▸ hpre.length_le)

theorem passed_nil (ws : Workspace) : Passed ws [] where
  spelled := rfl
  opened := fun _ hp hne => absurd (List.prefix_nil.mp hp) hne

theorem passed_congr {ws ws' : Workspace} {path : List Text}
    (hsame : ∀ p, p <+: path → p ≠ path → ws'.nodes p = ws.nodes p) (h : Passed ws path) :
    Passed ws' path where
  spelled := h.spelled
  opened := by
    intro p hp hne
    obtain ⟨mode, hnode, hmode⟩ := h.opened p hp hne
    exact ⟨mode, (hsame p hp hne).trans hnode, hmode⟩

section operations

variable (umask : ℕ) {ws : Workspace} {path : List Text}

theorem makeDir_present (h : Passed ws path) {mode : ℕ} (hnode : ws.nodes path = some (.dir mode)) :
    ws.makeDir umask path = .ok ws := by
  simp only [Workspace.makeDir, reachable_of_passed h, hnode, ↓reduceIte]

theorem foldlM_fixed {α β ε : Type} {step : β → α → Except ε β} {b : β} :
    ∀ {xs : List α}, (∀ x ∈ xs, step b x = .ok b) → xs.foldlM step b = .ok b
  | [], _ => rfl
  | x :: xs, h => by
      rw [List.foldlM_cons, h x List.mem_cons_self]
      exact foldlM_fixed fun y hy => h y (List.mem_cons_of_mem _ hy)

theorem createDirAll_present (h : Passed ws path) {mode : ℕ}
    (hnode : ws.nodes path = some (.dir mode)) : ws.createDirAll umask path = .ok ws := by
  refine foldlM_fixed fun p hp => ?_
  rw [List.mem_inits] at hp
  by_cases heq : p = path
  · rw [heq]
    exact makeDir_present umask h hnode
  · obtain ⟨m, hm, -⟩ := h.opened p hp heq
    exact makeDir_present umask (h.of_prefix hp) hm

theorem createDirAll_new (hne : path ≠ []) (h : Passed ws path) (hnode : ws.nodes path = none) :
    ws.createDirAll umask path = .ok (ws.set path (some (.dir (Nat.ldiff 0o777 umask)))) := by
  have hsplit : path.inits = path.dropLast.inits ++ [path] := by
    have hcat := List.dropLast_append_getLast hne
    calc path.inits = (path.dropLast ++ [path.getLast hne]).inits := by rw [hcat]
      _ = path.dropLast.inits ++ [path.dropLast ++ [path.getLast hne]] := by
        rw [List.inits_append]
        simp
      _ = path.dropLast.inits ++ [path] := by rw [hcat]
  have hparent : path.dropLast.inits.foldlM (Workspace.makeDir umask) ws = .ok ws := by
    refine foldlM_fixed fun p hp => ?_
    rw [List.mem_inits] at hp
    have hpath : p <+: path := hp.trans (List.dropLast_prefix path)
    have hproper : p ≠ path := by
      rintro rfl
      exact dropLast_ne hne ((List.dropLast_prefix p).eq_of_length_le hp.length_le)
    obtain ⟨m, hm, -⟩ := h.opened p hpath hproper
    exact makeDir_present umask (h.of_prefix hpath) hm
  rw [Workspace.createDirAll, hsplit, List.foldlM_append, hparent]
  simp [Workspace.makeDir, reachable_of_passed h, hnode, writable_of_passed hne h, bind,
    Except.bind, pure, Except.pure]

theorem set_nodes (ws : Workspace) (path : List Text) (node : Option FsNode) (p : List Text) :
    (ws.set path node).nodes p = if p = path then node else ws.nodes p := by
  simp [Workspace.set, Function.update_apply]

/-- Whatever a directory's mode, its owner can change it and its mtime. -/
theorem setPermissions_dir (h : Passed ws path) {mode : ℕ}
    (hnode : ws.nodes path = some (.dir mode)) (bits : ℕ) :
    ∃ ws', ws.setPermissions path bits = .ok ws' ∧
      ∀ p, ws'.nodes p = if p = path then some (.dir bits) else ws.nodes p := by
  refine ⟨⟨Function.update ws.nodes path (some (.dir bits)), ws.mtimes⟩, ?_, fun p => ?_⟩
  · simp only [Workspace.setPermissions, reachable_of_passed h, hnode, ↓reduceIte]
  · exact Function.update_apply ws.nodes path _ p

theorem applyMetadata_open (h : Passed ws path) (hopen : Open ws path) (mode : Option ℕ)
    (mtimeMs : Option ℤ) :
    ∃ ws' left, applyMetadata ws path mode mtimeMs = .ok ws' ∧
      ∀ p, ws'.nodes p = if p = path then some (.dir left) else ws.nodes p := by
  obtain ⟨bits, hnode, hbits⟩ := hopen
  have hread : ws.openRead path = .ok () := by
    have hmode : ownerHas bits 0o400 = true := ownerHas_of_all hbits rfl
    simp only [Workspace.openRead, reachable_of_passed h, hnode, ↓reduceIte, hmode]
  have hkept : ∀ p, ws.nodes p = if p = path then some (.dir bits) else ws.nodes p := by
    intro p
    split_ifs with hp
    · rw [hp, hnode]
    · rfl
  cases mode with
  | none =>
    cases mtimeMs with
    | none => exact ⟨ws, bits, rfl, hkept⟩
    | some ms =>
      refine ⟨ws.setTimes path ms, bits, ?_, hkept⟩
      simp only [applyMetadata, hread, bind, Except.bind]
  | some b =>
    cases mtimeMs with
    | none =>
      obtain ⟨ws', hrun, hnodes⟩ := setPermissions_dir h hnode b
      refine ⟨ws', b, ?_, hnodes⟩
      simp only [applyMetadata, bind, Except.bind, hrun]
    | some ms =>
      have hpassed : Passed (ws.setTimes path ms) path := @passed_congr ws _ path (fun _ _ _ => rfl) h
      obtain ⟨ws', hrun, hnodes⟩ := setPermissions_dir hpassed hnode b
      refine ⟨ws', b, ?_, hnodes⟩
      simp only [applyMetadata, hread, bind, Except.bind, hrun]

/-- The node an entry is written as. -/
def nodeOf (umask : ℕ) (entry : FlatEntry) (data : Bytes) : FsNode :=
  if isSymlinkMode entry.mode then .link data
  else .file data ((entry.mode.map (· &&& 0o7777)).getD (Nat.ldiff 0o666 umask))

theorem removeFile_present (hne : path ≠ []) (h : Passed ws path) {node : FsNode}
    (hnode : ws.nodes path = some node) (hdir : ∀ mode, node ≠ .dir mode) :
    ws.removeFile path = .ok (ws.set path none) := by
  have hboth : ws.reachable path = true ∧ ws.writable path.dropLast = true :=
    ⟨reachable_of_passed h, writable_of_passed hne h⟩
  cases node with
  | dir mode => exact absurd rfl (hdir mode)
  | file content mode => simp only [Workspace.removeFile, if_pos hboth, hnode]
  | link dest => simp only [Workspace.removeFile, if_pos hboth, hnode]

theorem writeFile_new (hne : path ≠ []) (h : Passed ws path) (hnode : ws.nodes path = none)
    (data : Bytes) (mode : Option ℕ) (mtimeMs : Option ℤ) :
    ∃ ws', writeFile umask ws path data mode mtimeMs = .ok ws' ∧
      ∀ p, ws'.nodes p =
        if p = path then some (.file data (mode.getD (Nat.ldiff 0o666 umask))) else ws.nodes p := by
  have hwrite : ws.writeData umask path data =
      .ok (ws.set path (some (.file data (Nat.ldiff 0o666 umask)))) := by
    simp only [Workspace.writeData, reachable_of_passed h, hnode, writable_of_passed hne h,
      ↓reduceIte]
  have hset := set_nodes ws path (some (.file data (Nat.ldiff 0o666 umask)))
  cases mode with
  | none =>
    cases mtimeMs with
    | none => exact ⟨_, by simp only [writeFile, hwrite, bind, Except.bind], hset⟩
    | some ms =>
      exact ⟨(ws.set path (some (.file data (Nat.ldiff 0o666 umask)))).setTimes path ms,
        by simp only [writeFile, hwrite, bind, Except.bind], hset⟩
  | some bits =>
    have hperm : ∀ ws₁ : Workspace,
        ws₁.nodes = (ws.set path (some (.file data (Nat.ldiff 0o666 umask)))).nodes →
        ∃ ws', ws₁.setPermissions path bits = .ok ws' ∧
          ∀ p, ws'.nodes p = if p = path then some (.file data bits) else ws.nodes p := by
      intro ws₁ hnodes
      have hpassed : Passed ws₁ path := passed_congr (fun p _ hp => by
        rw [hnodes, set_nodes, if_neg hp]) h
      have hfile : ws₁.nodes path = some (.file data (Nat.ldiff 0o666 umask)) := by
        rw [hnodes, set_nodes, if_pos rfl]
      refine ⟨⟨Function.update ws₁.nodes path (some (.file data bits)), ws₁.mtimes⟩, ?_, ?_⟩
      · simp only [Workspace.setPermissions, reachable_of_passed hpassed, hfile, ↓reduceIte]
      · intro p
        refine (Function.update_apply ws₁.nodes path _ p).trans ?_
        rw [hnodes, set_nodes]
        split_ifs <;> rfl
    cases mtimeMs with
    | none =>
      obtain ⟨ws', hrun, hnodes⟩ := hperm _ rfl
      exact ⟨ws', by simp only [writeFile, hwrite, bind, Except.bind, hrun], hnodes⟩
    | some ms =>
      obtain ⟨ws', hrun, hnodes⟩ := hperm
        ((ws.set path (some (.file data (Nat.ldiff 0o666 umask)))).setTimes path ms) rfl
      exact ⟨ws', by simp only [writeFile, hwrite, bind, Except.bind, hrun], hnodes⟩

/-- An entry replaces whatever file or link is there, and nothing else moves. -/
theorem writeEntry_replaces {entry : FlatEntry} (hjoin : safeJoin entry.path = .ok path)
    (hne : path ≠ []) (h : Passed ws path) (hdir : ∀ mode, ws.nodes path ≠ some (.dir mode))
    {data : Bytes} (htext : isSymlinkMode entry.mode = true → Workspace.linkText data = true) :
    ∃ ws', writeEntry umask ws entry data = .ok ws' ∧
      ∀ p, ws'.nodes p = if p = path then some (nodeOf umask entry data) else ws.nodes p := by
  obtain ⟨mode, hparent, -⟩ :=
    h.opened path.dropLast (List.dropLast_prefix path) (dropLast_ne hne)
  have hmade : ws.createDirAll umask path.dropLast = .ok ws :=
    createDirAll_present umask (h.of_prefix (List.dropLast_prefix path)) hparent
  obtain ⟨ws₁, hunlink, hgone, hsame⟩ : ∃ ws₁, unlinkFirst ws path = .ok ws₁ ∧
      ws₁.nodes path = none ∧ ∀ p, p ≠ path → ws₁.nodes p = ws.nodes p := by
    cases hnode : ws.nodes path with
    | none => exact ⟨ws, by simp [unlinkFirst, hnode], hnode, fun _ _ => rfl⟩
    | some node =>
      have hremoved := removeFile_present hne h hnode fun m hm => hdir m (hm ▸ hnode)
      refine ⟨ws.set path none, ?_, ?_, fun p hp => ?_⟩
      · rw [unlinkFirst, if_pos ⟨reachable_of_passed h, hnode ▸ Option.some_ne_none _⟩, hremoved]
      · rw [set_nodes, if_pos rfl]
      · rw [set_nodes, if_neg hp]
  have hpassed : Passed ws₁ path := passed_congr (fun p _ hp => hsame p hp) h
  have hrun : writeEntry umask ws entry data =
      if isSymlinkMode entry.mode then ws₁.symlink data path
      else writeFile umask ws₁ path data (entry.mode.map (· &&& 0o7777)) entry.mtimeMs := by
    simp only [writeEntry, hjoin, bind, Except.bind, hmade, hunlink]
  have hback : ∀ node p, (if p = path then some node else ws₁.nodes p) =
      if p = path then some node else ws.nodes p := by
    intro node p
    split_ifs with hp
    · rfl
    · exact hsame p hp
  rw [hrun]
  by_cases hlink : isSymlinkMode entry.mode = true
  · refine ⟨ws₁.set path (some (.link data)), ?_, fun p => ?_⟩
    · rw [if_pos hlink, Workspace.symlink,
        if_pos ⟨htext hlink, reachable_of_passed hpassed, writable_of_passed hne hpassed, hgone⟩]
    · rw [set_nodes, hback, nodeOf, if_pos hlink]
  · obtain ⟨ws', hwrite, hnodes⟩ := writeFile_new umask hne hpassed hgone data
      (entry.mode.map (· &&& 0o7777)) entry.mtimeMs
    refine ⟨ws', ?_, fun p => ?_⟩
    · rw [if_neg hlink, hwrite]
    · rw [hnodes, hback, nodeOf, if_neg hlink]

end operations

end Scarab.Storage
