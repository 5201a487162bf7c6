import Scarab.SnapshotManifests
import Scarab.TextEncoding
import Scarab.WorkspaceScan

/-!
# What a scan stores

A directory is what `lstat` finds at every path below it. The trees a scan leaves show the same
at every path, and its blobs are where the bytes of every file and link can be read again.
-/
namespace Scarab.Storage

open Depot

variable {host : Host}

def findItem (name : Bytes) (items : List (Bytes × Node)) : Option Node :=
  (items.find? fun item => item.1 = name).map Prod.snd

/-- What is at a path below a node, which is itself at the empty path. -/
def nodeFrom : List Bytes → Node → Option Node
  | [], node => some node
  | name :: path, .directory _ _ items => (findItem name items).bind (nodeFrom path)
  | _ :: _, _ => none

/-- What is at a path below a directory. The directory itself is at no path. -/
def nodeAt (items : List (Bytes × Node)) : List Bytes → Option Node
  | [] => none
  | name :: path => (findItem name items).bind (nodeFrom path)

/-- The raw path of a path. -/
def rawPath (path : List Text) : List Bytes := path.map utf8Bytes

/-- The owner can read the file, or list the directory. -/
def Readable : Node → Prop
  | .file _ mode _ => ownerHas mode 0o400 = true
  | .directory mode _ items => listable mode items = true
  | .symlink _ | .irregular => True

/-- Only what a snapshot can hold and the owner can read, under names in UTF-8 that are single
path segments. No name and no link has a NUL, and no link is empty. -/
inductive Scannable : List (Bytes × Node) → Prop
  | mk {items : List (Bytes × Node)} (names : (items.map Prod.fst).Nodup)
      (named : ∀ item ∈ items, ∃ name, item.1 = utf8Bytes name ∧ Clean [name] ∧ '\x00' ∉ name)
      (linked : ∀ item ∈ items, ∀ dest, item.2 = .symlink dest → dest ≠ [] ∧ 0 ∉ dest)
      (regular : ∀ item ∈ items, item.2 ≠ .irregular)
      (readable : ∀ item ∈ items, Readable item.2)
      (below : ∀ item ∈ items, ∀ mode modified sub, item.2 = .directory mode modified sub →
        Scannable sub) : Scannable items

/-- What a snapshot keeps of a node. -/
def nodeView (host : Host) : Node → View
  | .file content mode modified => ⟨.file (host.hashHex content), some (mode &&& 0o7777), mtimeMs modified⟩
  | .symlink dest => ⟨.file (host.hashHex dest), some modeSymlink, none⟩
  | .directory mode modified _ => ⟨.directory, some (mode &&& 0o7777), mtimeMs modified⟩
  | .irregular => ⟨.directory, none, none⟩

/-- The bytes that are stored for a node. -/
def blobOf : Node → Option Bytes
  | .file content _ _ => some content
  | .symlink dest => some dest
  | .directory _ _ _ | .irregular => none

theorem findItem_mem {name : Bytes} {items : List (Bytes × Node)} {node : Node}
    (h : findItem name items = some node) : (name, node) ∈ items := by
  obtain ⟨item, hfind, rfl⟩ := Option.map_eq_some_iff.mp h
  have hname : item.1 = name := by simpa using List.find?_some hfind
  rw [← hname]
  exact List.mem_of_find?_eq_some hfind

theorem findItem_eq_some {items : List (Bytes × Node)} (names : (items.map Prod.fst).Nodup)
    {name : Bytes} {node : Node} : findItem name items = some node ↔ (name, node) ∈ items := by
  refine ⟨findItem_mem, fun hmem => ?_⟩
  cases hfind : findItem name items with
  | none =>
    have hnone := List.find?_eq_none.mp (Option.map_eq_none_iff.mp hfind) _ hmem
    simp at hnone
  | some found =>
    have hsame := List.inj_on_of_nodup_map names (findItem_mem hfind) hmem rfl
    exact congrArg some (congrArg Prod.snd hsame)

theorem findItem_perm {items items' : List (Bytes × Node)} (h : items.Perm items')
    (names : (items.map Prod.fst).Nodup) (name : Bytes) :
    findItem name items = findItem name items' := by
  have names' : (items'.map Prod.fst).Nodup := (h.map _).nodup_iff.mp names
  refine Option.ext fun node => ?_
  rw [findItem_eq_some names, findItem_eq_some names', h.mem_iff]

theorem nodeFrom_directory {mode : ℕ} {modified : Option ℤ} {items : List (Bytes × Node)}
    {path : List Bytes} (hpath : path ≠ []) :
    nodeFrom path (.directory mode modified items) = nodeAt items path := by
  obtain ⟨name, rest, rfl⟩ := List.exists_cons_of_ne_nil hpath
  rfl

/-- Only a directory has something below it. -/
theorem nodeFrom_below {node found : Node} {path : List Bytes} (hpath : path ≠ [])
    (h : nodeFrom path node = some found) : ∃ mode modified items,
      node = .directory mode modified items ∧ nodeAt items path = some found := by
  obtain ⟨name, rest, rfl⟩ := List.exists_cons_of_ne_nil hpath
  cases node with
  | directory mode modified items => exact ⟨mode, modified, items, rfl, h⟩
  | file content mode modified => cases h
  | symlink dest => cases h
  | irregular => cases h

/-- Every path to something is made of names. -/
theorem Scannable.named {items : List (Bytes × Node)} (h : Scannable items) {path : List Text}
    {found : Node} (hat : nodeAt items (rawPath path) = some found) :
    ∀ s ∈ path, Clean [s] ∧ '\x00' ∉ s := by
  induction h generalizing path with
  | @mk items names named linked regular readable below ih =>
    cases path with
    | nil => cases hat
    | cons name path =>
      obtain ⟨child, hfind, hbelow⟩ := Option.bind_eq_some_iff.mp hat
      have hmem := findItem_mem hfind
      obtain ⟨name', hname, hclean⟩ := named _ hmem
      obtain rfl := utf8Bytes_injective hname
      refine fun s hs => ?_
      rcases List.mem_cons.mp hs with rfl | hs
      · exact hclean
      · have hne : path.map utf8Bytes ≠ [] := by simpa using List.ne_nil_of_mem hs
        obtain ⟨mode, modified, sub, rfl, hsub⟩ := nodeFrom_below hne hbelow
        exact ih _ hmem mode modified sub rfl hsub s hs

theorem Scannable.clean {items : List (Bytes × Node)} (h : Scannable items) {path : List Text}
    {found : Node} (hat : nodeAt items (rawPath path) = some found) : Clean path :=
  fun s hs => (h.named hat s hs).1 s List.mem_cons_self

/-- What holds of every item of such a directory holds of all that is below. -/
theorem Scannable.every {items : List (Bytes × Node)} {P : Node → Prop} (h : Scannable items)
    (hP : ∀ items, Scannable items → ∀ item ∈ items, P item.2) {path : List Bytes} {found : Node}
    (hat : nodeAt items path = some found) : P found := by
  induction h generalizing path with
  | @mk items names named linked regular readable below ih =>
    cases path with
    | nil => cases hat
    | cons name path =>
      obtain ⟨child, hfind, hbelow⟩ := Option.bind_eq_some_iff.mp hat
      have hmem := findItem_mem hfind
      by_cases hpath : path = []
      · subst hpath
        obtain rfl : child = found := Option.some.inj hbelow
        exact hP items (.mk names named linked regular readable below) _ hmem
      · obtain ⟨mode, modified, sub, rfl, hsub⟩ := nodeFrom_below hpath hbelow
        exact ih _ hmem mode modified sub rfl hsub

theorem Scannable.regular {items : List (Bytes × Node)} (h : Scannable items) {path : List Bytes}
    {found : Node} (hat : nodeAt items path = some found) : found ≠ .irregular := by
  refine h.every (P := fun node => node ≠ .irregular) (fun items h item hitem => ?_) hat
  obtain ⟨-, -, -, regular, -, -⟩ := h
  exact regular item hitem

theorem Scannable.linked {items : List (Bytes × Node)} (h : Scannable items) {path : List Bytes}
    {dest : Bytes} (hat : nodeAt items path = some (.symlink dest)) : dest ≠ [] ∧ 0 ∉ dest := by
  refine h.every (P := fun node => ∀ dest, node = .symlink dest → dest ≠ [] ∧ 0 ∉ dest)
    (fun items h item hitem => ?_) hat dest rfl
  obtain ⟨-, -, linked, -, -, -⟩ := h
  exact linked item hitem

/-- Where the bytes of a blob are read again. -/
def readSource (items : List (Bytes × Node)) : BlobSource → Except StorageError Bytes
  | .link bytes => .ok bytes
  | .file path _ =>
      match nodeAt items path with
      | some (.file content mode _) =>
          if ownerHas mode 0o400 then .ok content else .error .backend
      | _ => .error .backend

/-- Bytes with this hash are read from the source: a link's target, or a file at a path below
`path` where `find` has one. -/
def SourceAt (host : Host) (path : List Bytes) (find : List Bytes → Option Node) (hash : Text) :
    BlobSource → Prop
  | .link bytes => host.hashHex bytes = hash
  | .file full _ => ∃ rel content mode modified, full = path ++ rel ∧
      find rel = some (.file content mode modified) ∧ host.hashHex content = hash ∧
      ownerHas mode 0o400 = true

/-- The blobs of a scan grow by those of the nodes that `find` finds below `path`. -/
structure Gathers (host : Host) (path : List Bytes) (find : List Bytes → Option Node)
    (before after : SortedMap Text BlobSource) : Prop where
  kept : ∀ hash, before.get hash ≠ none → after.get hash ≠ none
  stored : ∀ rel node bytes, find rel = some node → blobOf node = some bytes →
    after.get (host.hashHex bytes) ≠ none
  sources : ∀ hash source, after.get hash = some source →
    before.get hash = some source ∨ SourceAt host path find hash source

/-- The entry of an item, in a store that has the trees. -/
structure Entered (host : Host) (trees : List (Text × Bytes)) (item : Bytes × Node)
    (entry : TreeEntry) : Prop where
  name : utf8Bytes entry.name = item.1
  view : viewOf entry = nodeView host item.2
  below : ∀ store : Store host, Holds store trees → ∀ sub, entry.target = .tree sub →
    StoredTree store sub ∧
      ∀ path, path ≠ [] → viewAt store sub path =
        (nodeFrom (rawPath path) item.2).map (nodeView host)

theorem Entered.of_grows {scan scan' : Scan} {item : Bytes × Node} {entry : TreeEntry}
    (h : Entered host scan.trees item entry) (hg : Grows host scan scan') :
    Entered host scan'.trees item entry where
  name := h.name
  view := h.view
  below := fun store hstore => h.below store (hstore.of_grows hg)

theorem get_insertNew (m : SortedMap Text BlobSource) (hash other : Text) (source : BlobSource) :
    (m.insertNew hash source).get other =
      if m.get hash = none ∧ other = hash then some source else m.get other := by
  rw [SortedMap.insertNew]
  by_cases hkey : m.get hash = none
  · have hout : ¬ m.contains hash = true := by
      rw [SortedMap.contains_iff, hkey]
      rintro ⟨v, hv⟩
      cases hv
    rw [if_neg hout, SortedMap.get_insert]
    simp only [hkey, true_and]
    split_ifs <;> rfl
  · have hin : m.contains hash = true :=
      SortedMap.contains_iff.mpr (Option.ne_none_iff_exists'.mp hkey)
    rw [if_pos hin, if_neg fun h => hkey h.1]

/-- A file or a link adds its own bytes. -/
theorem gathers_leaf {node : Node} {bytes : Bytes} (hblob : blobOf node = some bytes)
    {path : List Bytes} {source : BlobSource} {before : SortedMap Text BlobSource}
    (hsource : SourceAt host path (fun rel => nodeFrom rel node) (host.hashHex bytes) source) :
    Gathers host path (fun rel => nodeFrom rel node) before
      (before.insertNew (host.hashHex bytes) source) where
  kept := by
    intro hash hkept
    rw [get_insertNew]
    split_ifs
    · exact Option.some_ne_none source
    · exact hkept
  stored := by
    intro rel found bytes' hfound hbytes
    cases rel with
    | nil =>
      obtain rfl : node = found := Option.some.inj hfound
      obtain rfl : bytes = bytes' := Option.some.inj (hblob.symm.trans hbytes)
      rw [get_insertNew]
      split_ifs with hnew
      · exact Option.some_ne_none source
      · exact fun hnone => hnew ⟨hnone, rfl⟩
    | cons name rest =>
      obtain ⟨mode, modified, items, rfl, -⟩ := nodeFrom_below (List.cons_ne_nil name rest) hfound
      cases hblob
  sources := by
    intro hash found hfound
    rw [get_insertNew] at hfound
    split_ifs at hfound with hnew
    · obtain rfl := Option.some.inj hfound
      rw [hnew.2]
      exact .inr hsource
    · exact .inl hfound

theorem SourceAt.imp {path path' : List Bytes} {find find' : List Bytes → Option Node}
    (hfind : ∀ rel node, find rel = some node →
      ∃ rel', path ++ rel = path' ++ rel' ∧ find' rel' = some node) {hash : Text}
    {source : BlobSource} (h : SourceAt host path find hash source) :
    SourceAt host path' find' hash source := by
  cases source with
  | link bytes => exact h
  | file full len =>
    obtain ⟨rel, content, mode, modified, rfl, hat, hhash, hread⟩ := h
    obtain ⟨rel', hpath, hat'⟩ := hfind rel _ hat
    exact ⟨rel', content, mode, modified, hpath, hat', hhash, hread⟩

theorem gathers_none (host : Host) (path : List Bytes) (before : SortedMap Text BlobSource) :
    Gathers host path (nodeAt []) before before where
  kept := fun _ h => h
  stored := by
    intro rel node bytes hfound
    cases rel <;> cases hfound
  sources := fun _ _ h => .inl h

theorem nodeAt_cons_self (item : Bytes × Node) (items : List (Bytes × Node)) (path : List Bytes) :
    nodeAt (item :: items) (item.1 :: path) = nodeFrom path item.2 := by
  simp [nodeAt, findItem]

theorem nodeAt_cons_of_ne {item : Bytes × Node} {name : Bytes} (h : item.1 ≠ name)
    (items : List (Bytes × Node)) (path : List Bytes) :
    nodeAt (item :: items) (name :: path) = nodeAt items (name :: path) := by
  simp [nodeAt, findItem, h]

theorem ne_of_nodeAt {items : List (Bytes × Node)} {first : Bytes}
    (hfirst : first ∉ items.map Prod.fst) {name : Bytes} {path : List Bytes} {node : Node}
    (h : nodeAt items (name :: path) = some node) : first ≠ name := by
  rintro rfl
  obtain ⟨child, hfind, -⟩ := Option.bind_eq_some_iff.mp h
  exact hfirst (List.mem_map_of_mem (findItem_mem hfind))

/-- The items of a directory one after the other. -/
theorem Gathers.cons {item : Bytes × Node} {items : List (Bytes × Node)}
    (hfirst : item.1 ∉ items.map Prod.fst) {path : List Bytes}
    {before between after : SortedMap Text BlobSource}
    (h : Gathers host (path ++ [item.1]) (fun rel => nodeFrom rel item.2) before between)
    (hrest : Gathers host path (nodeAt items) between after) :
    Gathers host path (nodeAt (item :: items)) before after where
  kept := fun hash hkept => hrest.kept hash (h.kept hash hkept)
  stored := by
    intro rel node bytes hfound hbytes
    cases rel with
    | nil => cases hfound
    | cons name rel =>
      by_cases hname : item.1 = name
      · subst hname
        rw [nodeAt_cons_self] at hfound
        exact hrest.kept _ (h.stored rel node bytes hfound hbytes)
      · rw [nodeAt_cons_of_ne hname] at hfound
        exact hrest.stored _ node bytes hfound hbytes
  sources := by
    intro hash source hsource
    rcases hrest.sources hash source hsource with hbetween | hhere
    · rcases h.sources hash source hbetween with hbefore | hfirstItem
      · exact .inl hbefore
      · refine .inr (hfirstItem.imp fun rel node hfound => ⟨item.1 :: rel, ?_, ?_⟩)
        · rw [List.append_assoc, List.singleton_append]
        · rw [nodeAt_cons_self]
          exact hfound
    · refine .inr (hhere.imp fun rel node hfound => ⟨rel, rfl, ?_⟩)
      cases rel with
      | nil => cases hfound
      | cons name rel =>
        rw [nodeAt_cons_of_ne (ne_of_nodeAt hfirst hfound)]
        exact hfound

theorem Gathers.congr {path : List Bytes} {find find' : List Bytes → Option Node}
    {before after : SortedMap Text BlobSource} (h : Gathers host path find before after)
    (hsame : ∀ rel node, (blobOf node).isSome → (find' rel = some node ↔ find rel = some node)) :
    Gathers host path find' before after where
  kept := h.kept
  stored := by
    intro rel node bytes hfound hbytes
    exact h.stored rel node bytes ((hsame rel node (by rw [hbytes]; rfl)).mp hfound) hbytes
  sources := by
    intro hash source hsource
    refine (h.sources hash source hsource).imp_right fun hat => ?_
    cases source with
    | link bytes => exact hat
    | file full len =>
      obtain ⟨rel, content, mode, modified, hfull, hfound, hread⟩ := hat
      exact ⟨rel, content, mode, modified, hfull, (hsame rel _ rfl).mpr hfound, hread⟩

variable {lossy : Bytes → Text}

/-- A step scans its item, whatever the scan has gathered before. -/
def Steps (host : Host) (lossy : Bytes → Text) (path : List Bytes) (item : Bytes × Node) : Prop :=
  ∀ scan, ∃ pair scan',
    scanNode host lossy (path ++ [item.1]) (lossy item.1) item.2 scan = .ok (pair, scan') ∧
    Grows host scan scan' ∧
    Gathers host (path ++ [item.1]) (fun rel => nodeFrom rel item.2) scan.blobs scan'.blobs ∧
    Entered host scan'.trees item pair.1

theorem runItems_steps {path : List Bytes} {items : List (Bytes × Node)}
    (names : (items.map Prod.fst).Nodup) (hsteps : ∀ item ∈ items, Steps host lossy path item)
    (scan : Scan) : ∃ levels scan',
      runItems (scanItems host lossy path items) scan = .ok (levels, scan') ∧
      Grows host scan scan' ∧ Gathers host path (nodeAt items) scan.blobs scan'.blobs ∧
      List.Forall₂ (Entered host scan'.trees) items levels.1 := by
  induction items generalizing scan with
  | nil =>
    refine ⟨([], []), scan, ?_, Grows.refl host scan, gathers_none host path _, .nil⟩
    rw [scanItems, runItems]
  | cons item items ih =>
    obtain ⟨hfirst, names⟩ := List.nodup_cons.mp names
    obtain ⟨pair, scan₁, hstep, hgrows, hgathers, hentered⟩ := hsteps item List.mem_cons_self scan
    obtain ⟨levels, scan', hrun, hgrows', hgathers', hentered'⟩ :=
      ih names (fun x hx => hsteps x (List.mem_cons_of_mem _ hx)) scan₁
    refine ⟨(pair.1 :: levels.1, pair.2 :: levels.2), scan', ?_, hgrows.trans hgrows',
      hgathers.cons hfirst hgathers', .cons (hentered.of_grows hgrows') hentered'⟩
    simp only [scanItems, runItems, hstep, hrun]

theorem scanItems_eq (path : List Bytes) (items : List (Bytes × Node)) :
    scanItems host lossy path items =
      items.map fun item => (item.1, scanNode host lossy (path ++ [item.1]) (lossy item.1) item.2) := by
  induction items with
  | nil => rw [scanItems, List.map_nil]
  | cons item items ih => rw [scanItems, ih, List.map_cons]

theorem sortItems_scanItems (path : List Bytes) (items : List (Bytes × Node)) :
    sortItems (scanItems host lossy path items) = scanItems host lossy path (sortItems items) := by
  rw [scanItems_eq, scanItems_eq]
  refine (List.map_insertionSort (fun a b : Bytes × Node => a.1 ≤ b.1) _ _ items ?_).symm
  exact fun a _ b _ => Iff.rfl

/-- Under a name is the entry of the item with that name. -/
theorem findNamed_entered {trees : List (Text × Bytes)} {items : List (Bytes × Node)}
    {entries : List TreeEntry} (h : List.Forall₂ (Entered host trees) items entries) (name : Text) :
    findItem (utf8Bytes name) items = none ∧ findNamed name entries = none ∨
      ∃ node entry, findItem (utf8Bytes name) items = some node ∧
        findNamed name entries = some entry ∧ Entered host trees (utf8Bytes name, node) entry := by
  induction h with
  | nil => exact .inl ⟨rfl, rfl⟩
  | @cons item entry items entries hentered _ ih =>
    by_cases hname : entry.name = name
    · subst hname
      refine .inr ⟨item.2, entry, ?_, ?_, ?_⟩
      · simp [findItem, hentered.name]
      · simp [findNamed]
      · rw [hentered.name]
        exact hentered
    · have hraw : item.1 ≠ utf8Bytes name := fun heq =>
        hname (utf8Bytes_injective (hentered.name.trans heq))
      have hitem : findItem (utf8Bytes name) (item :: items) = findItem (utf8Bytes name) items := by
        simp [findItem, hraw]
      have hentry : findNamed name (entry :: entries) = findNamed name entries := by
        simp [findNamed, hname]
      rw [hitem, hentry]
      exact ih

theorem names_entered {trees : List (Text × Bytes)} {items : List (Bytes × Node)}
    {entries : List TreeEntry} (h : List.Forall₂ (Entered host trees) items entries) :
    entries.map (fun entry => utf8Bytes entry.name) = items.map Prod.fst := by
  induction h with
  | nil => rfl
  | cons hentered _ ih => rw [List.map_cons, List.map_cons, hentered.name, ih]

theorem entered_of_mem {trees : List (Text × Bytes)} {items : List (Bytes × Node)}
    {entries : List TreeEntry} (h : List.Forall₂ (Entered host trees) items entries)
    {entry : TreeEntry} (hmem : entry ∈ entries) : ∃ item, Entered host trees item entry := by
  induction h with
  | nil => cases hmem
  | cons hentered _ ih =>
    rcases List.mem_cons.mp hmem with rfl | hmem
    · exact ⟨_, hentered⟩
    · exact ih hmem

theorem Entered.viewFrom {trees : List (Text × Bytes)} {item : Bytes × Node} {entry : TreeEntry}
    (h : Entered host trees item entry) {store : Store host} (hstore : Holds store trees)
    (path : List Text) :
    viewFrom store path entry = (nodeFrom (rawPath path) item.2).map (nodeView host) := by
  by_cases hpath : path = []
  · subst hpath
    exact congrArg some h.view
  cases htarget : entry.target with
  | tree sub => rw [viewFrom_tree htarget hpath, (h.below store hstore sub htarget).2 path hpath]
  | blob hex =>
    have hview := congrArg View.kind h.view
    have hnone : nodeFrom (rawPath path) item.2 = none := by
      by_contra hsome
      obtain ⟨found, hfound⟩ := Option.ne_none_iff_exists'.mp hsome
      have hraw : rawPath path ≠ [] := by simpa [rawPath] using hpath
      obtain ⟨mode, modified, sub, hdir, -⟩ := nodeFrom_below hraw hfound
      rw [hdir] at hview
      simp [viewOf, htarget, kindOf, nodeView] at hview
    obtain ⟨name, rest, rfl⟩ := List.exists_cons_of_ne_nil hpath
    rw [hnone, Storage.viewFrom, entryFrom, htarget]
    rfl

/-- The tree stands for the directory. -/
structure StandsFor (store : Store host) (root : Text) (items : List (Bytes × Node)) : Prop where
  stored : StoredTree store root
  views : ∀ path, viewAt store root path = (nodeAt items (rawPath path)).map (nodeView host)

theorem finishDir_standsFor (hf : Faithful host) {items : List (Bytes × Node)}
    (names : (items.map Prod.fst).Nodup) {levels : List TreeEntry × List TreeEntry} {scan : Scan}
    (hentered : List.Forall₂ (Entered host scan.trees) items levels.1) {store : Store host}
    (hstore : Holds store (finishDir host levels scan).2.trees) :
    StandsFor store (finishDir host levels scan).1.1 items := by
  have hget := hstore (host.hashHex (canonicalTreeBytes host levels.1),
    canonicalTreeBytes host levels.1) (by simp [finishDir])
  have read : treeEntries store (finishDir host levels scan).1.1 = .ok (sortByName levels.1) := by
    rw [treeEntries, finishDir, hget]
    simp only [canonicalTreeBytes_eq, hf.parse_json]
  have hscan : Holds store scan.trees := hstore.of_grows (grows_finishDir host levels scan)
  have hnames : (levels.1.map TreeEntry.name).Nodup := by
    refine List.Nodup.of_map utf8Bytes ?_
    rw [List.map_map]
    exact (names_entered hentered) ▸ names
  have hsorted : ((sortByName levels.1).map TreeEntry.name).Nodup :=
    ((sortByName_perm levels.1).map _).nodup_iff.mpr hnames
  refine ⟨.mk read (treeHash_sortByName levels.1).symm hsorted fun e he sub hsub => ?_,
    fun path => ?_⟩
  · obtain ⟨item, hitem⟩ := entered_of_mem hentered (mem_sortByName.mp he)
    exact (hitem.below store hscan sub hsub).1
  · cases path with
    | nil => rfl
    | cons name path =>
      rw [viewAt_cons read, ← findNamed_perm (sortByName_perm levels.1).symm hnames]
      rcases findNamed_entered hentered name with ⟨hitem, hentry⟩ | ⟨node, e, hitem, hentry, he⟩
      · simp [nodeAt, rawPath, hitem, hentry]
      · have hat : nodeAt items (rawPath (name :: path)) = nodeFrom (rawPath path) node := by
          rw [rawPath, List.map_cons, nodeAt, hitem, Option.bind_some, rawPath]
        rw [hentry, Option.bind_some, he.viewFrom hscan, hat]

theorem sortItems_perm (items : List (Bytes × Node)) : (sortItems items).Perm items :=
  List.perm_insertionSort _ _

theorem nodeAt_sortItems {items : List (Bytes × Node)} (names : (items.map Prod.fst).Nodup) :
    nodeAt (sortItems items) = nodeAt items := by
  funext path
  cases path with
  | nil => rfl
  | cons name path =>
    rw [nodeAt, nodeAt, ← findItem_perm (sortItems_perm items).symm names]

/-- What is in a directory is gathered when its items are. -/
theorem Gathers.directory {path : List Bytes} {mode : ℕ} {modified : Option ℤ}
    {items : List (Bytes × Node)} {before after : SortedMap Text BlobSource}
    (h : Gathers host path (nodeAt items) before after) :
    Gathers host path (fun rel => nodeFrom rel (.directory mode modified items)) before after := by
  refine h.congr fun rel node hblob => ?_
  cases rel with
  | cons name rel => exact Iff.rfl
  | nil =>
    constructor
    · intro hfound
      obtain rfl := Option.some.inj hfound
      cases hblob
    · intro hfound
      cases hfound

/-- The items of a directory that can be scanned, and the directory itself. -/
theorem scanLevel (hf : Faithful host) {path : List Bytes} {items : List (Bytes × Node)}
    (names : (items.map Prod.fst).Nodup) (hsteps : ∀ item ∈ items, Steps host lossy path item)
    (scan : Scan) : ∃ levels scan₁,
      runItems (sortItems (scanItems host lossy path items)) scan = .ok (levels, scan₁) ∧
      Grows host scan (finishDir host levels scan₁).2 ∧
      Gathers host path (nodeAt items) scan.blobs (finishDir host levels scan₁).2.blobs ∧
      ∀ store : Store host, Holds store (finishDir host levels scan₁).2.trees →
        StandsFor store (finishDir host levels scan₁).1.1 items := by
  have names' : ((sortItems items).map Prod.fst).Nodup :=
    ((sortItems_perm items).map _).nodup_iff.mpr names
  obtain ⟨levels, scan₁, hrun, hgrows, hgathers, hentered⟩ := runItems_steps names'
    (fun item hitem => hsteps item ((sortItems_perm items).mem_iff.mp hitem)) scan
  rw [← sortItems_scanItems] at hrun
  rw [nodeAt_sortItems names] at hgathers
  refine ⟨levels, scan₁, hrun, hgrows.trans (grows_finishDir host levels scan₁), hgathers,
    fun store hstore => ?_⟩
  have hstands := finishDir_standsFor hf names' hentered hstore
  refine ⟨hstands.stored, fun path => ?_⟩
  rw [hstands.views, nodeAt_sortItems names]

theorem Scannable.steps (hf : Faithful host) (hlossy : ∀ t, lossy (utf8Bytes t) = t)
    {items : List (Bytes × Node)} (h : Scannable items) (path : List Bytes) :
    ∀ item ∈ items, Steps host lossy path item := by
  induction h generalizing path with
  | @mk items names named linked regular readable below ih =>
    rintro ⟨raw, node⟩ hitem scan
    obtain ⟨name, rfl, -⟩ := named _ hitem
    have hreadable := readable _ hitem
    have hname : utf8Bytes (lossy (utf8Bytes name)) = utf8Bytes name := by rw [hlossy]
    cases node with
    | irregular => exact absurd rfl (regular _ hitem)
    | file content mode modified =>
      simp only [Readable] at hreadable
      simp only [scanNode, hreadable, if_true]
      refine ⟨_, _, rfl, ⟨fun _ ht => ht, fun _ ht => .inl ht⟩, gathers_leaf rfl ?_, hname, rfl, ?_⟩
      · exact ⟨[], content, mode, modified, (List.append_nil _).symm, rfl, rfl, hreadable⟩
      · intro store _ sub hsub
        cases hsub
    | symlink dest =>
      simp only [scanNode]
      refine ⟨_, _, rfl, ⟨fun _ ht => ht, fun _ ht => .inl ht⟩, gathers_leaf rfl ?_, hname, rfl, ?_⟩
      · exact rfl
      · intro store _ sub hsub
        cases hsub
    | directory mode modified sub =>
      obtain ⟨subNames, -, -, -, -, -⟩ := below _ hitem mode modified sub rfl
      obtain ⟨levels, scan₁, hrun, hgrows, hgathers, hstands⟩ := scanLevel hf subNames
        (ih _ hitem mode modified sub rfl (path ++ [utf8Bytes name])) scan
      simp only [Readable] at hreadable
      simp only [scanNode, hreadable, if_true, hrun]
      refine ⟨_, _, rfl, hgrows, hgathers.directory, hname, rfl, ?_⟩
      intro store hstore root hroot
      obtain rfl := TreeTarget.tree.inj hroot
      have hsub := hstands store hstore
      refine ⟨hsub.stored, fun rel hrel => ?_⟩
      rw [hsub.views, nodeFrom_directory (by simpa [rawPath] using hrel)]

/-- A directory that can be scanned is: its trees stand for it, and every byte of its files and
links can be read again where its blobs say. -/
theorem scanDir_stores (hf : Faithful host) (hlossy : ∀ t, lossy (utf8Bytes t) = t)
    {items : List (Bytes × Node)} (h : Scannable items) {mode : ℕ}
    (hmode : listable mode items = true) : ∃ root identity scan,
      scanDir host lossy [] mode items = .ok ((root, identity), scan) ∧
      (∀ t ∈ scan.trees, host.hashHex t.2 = t.1) ∧
      (∀ store : Store host, Holds store scan.trees → StandsFor store root items) ∧
      ∀ path node bytes, nodeAt items path = some node → blobOf node = some bytes →
        ∃ source, scan.blobs.get (host.hashHex bytes) = some source ∧
          readSource items source = .ok bytes := by
  obtain ⟨names, -, -, -, -, -⟩ := id h
  obtain ⟨levels, scan, hrun, hgrows, hgathers, hstands⟩ :=
    scanLevel hf names (h.steps hf hlossy []) ⟨∅, [], 0⟩
  have haddressed : ∀ t ∈ (finishDir host levels scan).2.trees, host.hashHex t.2 = t.1 :=
    fun t ht => (hgrows.addressed t ht).resolve_left List.not_mem_nil
  simp only [scanDir, scanOne, hmode, if_true, hrun]
  refine ⟨_, _, _, rfl, haddressed, hstands,
    fun path node bytes hat hbytes => ?_⟩
  obtain ⟨source, hsource⟩ :=
    Option.ne_none_iff_exists'.mp (hgathers.stored path node bytes hat hbytes)
  refine ⟨source, hsource, ?_⟩
  have hplace := (hgathers.sources _ source hsource).resolve_left fun hempty => by cases hempty
  cases source with
  | link found => rw [hf.collisionFree hplace, readSource]
  | file full len =>
    obtain ⟨rel, content, bits, modified, hfull, hfound, hhash, hread⟩ := hplace
    rw [List.nil_append] at hfull
    rw [← hf.collisionFree hhash, readSource, hfull, hfound]
    exact if_pos hread

end Scarab.Storage
