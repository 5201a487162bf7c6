import Scarab.FlatManifests
import Scarab.SortedMap

/-!
# Trees in a content-addressed store

A tree is a list of entries stored under the hash of its canonical bytes. What is in it is
observed path by path, and two trees that look alike at every path have one address.
-/
namespace Scarab.Storage

open Depot

/-- The file-type bits of a symlink's mode. -/
def modeSymlink : ℕ := 0o120000

/-- The mode has all of these permission bits. -/
def ownerHas (mode bits : ℕ) : Bool := mode &&& bits = bits

/-- `exhausted` is no error of the store: a recursion of the model had no fuel left. -/
inductive StorageError where
  | notFound
  | backend
  | unsupported
  | exhausted
  deriving DecidableEq, Repr

/-- The tree objects of a store, each under the hash of its bytes. -/
structure Store (host : Host) where
  objects : SortedMap Text Bytes
  addressed : ∀ {hash bytes}, objects.get hash = some bytes → host.hashHex bytes = hash

/-- No collisions, and a list of entries reads back from its JSON. -/
structure Faithful (host : Host) : Prop where
  collisionFree : host.CollisionFree
  parse_json : ∀ entries, host.parseTree (host.treeJson entries) = some entries

variable {host : Host}

def treeHash (host : Host) (entries : List TreeEntry) : Text :=
  host.hashHex (canonicalTreeBytes host entries)

def treeEntries (store : Store host) (hash : Text) : Except StorageError (List TreeEntry) :=
  match store.objects.get hash with
  | none => .error .notFound
  | some bytes =>
      match host.parseTree bytes with
      | none => .error .backend
      | some entries => .ok entries

def Store.put (store : Store host) (bytes : Bytes) : Store host where
  objects := store.objects.insert (host.hashHex bytes) bytes
  addressed := by
    intro hash found hget
    rw [SortedMap.get_insert] at hget
    split_ifs at hget with hhash
    · rw [← Option.some.inj hget, hhash]
    · exact store.addressed hget

def putTree (entries : List TreeEntry) (store : Store host) : Text × Store host :=
  (treeHash host entries, store.put (canonicalTreeBytes host entries))

theorem putTree_fst (entries : List TreeEntry) (store : Store host) :
    (putTree entries store).1 = treeHash host entries := rfl

theorem canonicalTreeBytes_eq (entries : List TreeEntry) :
    canonicalTreeBytes host entries = host.treeJson (sortByName entries) := rfl

theorem sortByName_perm (entries : List TreeEntry) : (sortByName entries).Perm entries :=
  List.perm_insertionSort _ _

theorem sortByName_pairwise (entries : List TreeEntry) :
    (sortByName entries).Pairwise fun a b => ¬ b.name < a.name := by
  have : Std.Total fun a b : TreeEntry => ¬ b.name < a.name :=
    ⟨fun a b => by simpa only [not_lt] using le_total a.name b.name⟩
  have : IsTrans TreeEntry fun a b => ¬ b.name < a.name :=
    ⟨fun a b c hab hbc => by simp only [not_lt] at *; exact hab.trans hbc⟩
  exact List.pairwise_insertionSort _ entries

theorem sortByName_idem (entries : List TreeEntry) :
    sortByName (sortByName entries) = sortByName entries :=
  (sortByName_pairwise entries).insertionSort_eq

/-- The order the entries come in is lost. -/
theorem sortByName_eq_of_perm {entries entries' : List TreeEntry} (h : entries.Perm entries')
    (hnames : (entries.map TreeEntry.name).Nodup) : sortByName entries = sortByName entries' := by
  have hperm : (sortByName entries).Perm (sortByName entries') :=
    (sortByName_perm entries).trans (h.trans (sortByName_perm entries').symm)
  refine hperm.eq_of_pairwise ?_ (sortByName_pairwise entries) (sortByName_pairwise entries')
  intro a b ha hb hab hba
  have hname : a.name = b.name := le_antisymm (not_lt.mp hab) (not_lt.mp hba)
  exact List.inj_on_of_nodup_map hnames (mem_sortByName.mp ha)
    (h.mem_iff.mpr (mem_sortByName.mp hb)) hname

/-- Nothing of the first store is lost in the second. -/
def Extends (store store' : Store host) : Prop :=
  ∀ hash bytes, store.objects.get hash = some bytes → store'.objects.get hash = some bytes

theorem Extends.refl (store : Store host) : Extends store store := fun _ _ h => h

theorem Extends.trans {a b c : Store host} (hab : Extends a b) (hbc : Extends b c) :
    Extends a c := fun hash bytes h => hbc hash bytes (hab hash bytes h)

theorem Store.extends_put (hc : host.CollisionFree) (store : Store host) (bytes : Bytes) :
    Extends store (store.put bytes) := by
  intro hash found hget
  simp only [Store.put, SortedMap.get_insert]
  split_ifs with hhash
  · have hsame : host.hashHex found = host.hashHex bytes := (store.addressed hget).trans hhash
    rw [hc hsame]
  · exact hget

theorem extends_putTree (hf : Faithful host) (entries : List TreeEntry) (store : Store host) :
    Extends store (putTree entries store).2 :=
  store.extends_put hf.collisionFree _

theorem treeEntries_putTree (hf : Faithful host) (entries : List TreeEntry)
    (store : Store host) :
    treeEntries (putTree entries store).2 (putTree entries store).1 =
      .ok (sortByName entries) := by
  simp only [treeEntries, putTree, Store.put, treeHash, SortedMap.get_insert, ↓reduceIte,
    canonicalTreeBytes_eq, hf.parse_json]

theorem treeEntries_of_extends {store store' : Store host} (hx : Extends store store')
    {hash : Text} {entries : List TreeEntry} (h : treeEntries store hash = .ok entries) :
    treeEntries store' hash = .ok entries := by
  unfold treeEntries at h ⊢
  split at h
  · cases h
  · next bytes hget =>
    rw [hx _ _ hget]
    exact h

/-- The trees of a store with all their sub-trees in it and no name twice in a directory. -/
inductive StoredTree (store : Store host) : Text → Prop
  | mk {root : Text} {entries : List TreeEntry} (read : treeEntries store root = .ok entries)
      (address : root = treeHash host entries) (names : (entries.map TreeEntry.name).Nodup)
      (subtrees : ∀ e ∈ entries, ∀ sub, e.target = .tree sub → StoredTree store sub) :
      StoredTree store root

theorem StoredTree.of_extends {store store' : Store host} (hx : Extends store store')
    {root : Text} (h : StoredTree store root) : StoredTree store' root := by
  induction h with
  | mk read address names _ ih => exact .mk (treeEntries_of_extends hx read) address names ih

theorem treeHash_sortByName (entries : List TreeEntry) :
    treeHash host (sortByName entries) = treeHash host entries := by
  rw [treeHash, canonicalTreeBytes_eq, sortByName_idem]
  rfl

theorem StoredTree.putTree (hf : Faithful host) {entries : List TreeEntry} {store : Store host}
    (names : (entries.map TreeEntry.name).Nodup)
    (subtrees : ∀ e ∈ entries, ∀ sub, e.target = .tree sub → StoredTree store sub) :
    StoredTree (putTree entries store).2 (putTree entries store).1 := by
  refine .mk (treeEntries_putTree hf entries store) (treeHash_sortByName entries).symm ?_ ?_
  · exact ((sortByName_perm entries).map _).nodup_iff.mpr names
  · intro e he sub hsub
    exact (subtrees e (mem_sortByName.mp he) sub hsub).of_extends (extends_putTree hf entries store)

def childrenOf (store : Store host) (root : Text) : List TreeEntry :=
  match treeEntries store root with
  | .error _ => []
  | .ok entries => entries

def findNamed (name : Text) (entries : List TreeEntry) : Option TreeEntry :=
  entries.find? (·.name = name)

/-- The entry at a path below an entry, which is itself at the empty path. -/
def entryFrom (store : Store host) : List Text → TreeEntry → Option TreeEntry
  | [], e => some e
  | name :: path, e =>
      match e.target with
      | .blob _ => none
      | .tree sub => (findNamed name (childrenOf store sub)).bind (entryFrom store path)

/-- The entry at a path below a tree. The tree itself is no entry. -/
def entryAt (store : Store host) (root : Text) : List Text → Option TreeEntry
  | [] => none
  | name :: path => (findNamed name (childrenOf store root)).bind (entryFrom store path)

inductive Kind where
  | file (blob : Text)
  | directory
  deriving DecidableEq, Repr

/-- An entry as it looks from outside: of a directory, not what is in it. -/
structure View where
  kind : Kind
  mode : Option ℕ
  mtimeMs : Option ℤ
  deriving DecidableEq, Repr

def kindOf : TreeTarget → Kind
  | .blob hex => .file hex
  | .tree _ => .directory

def viewOf (e : TreeEntry) : View := ⟨kindOf e.target, e.mode, e.mtimeMs⟩

def viewAt (store : Store host) (root : Text) (path : List Text) : Option View :=
  (entryAt store root path).map viewOf

theorem childrenOf_eq {store : Store host} {root : Text} {entries : List TreeEntry}
    (read : treeEntries store root = .ok entries) : childrenOf store root = entries := by
  rw [childrenOf, read]

theorem findNamed_name {name : Text} {entries : List TreeEntry} {e : TreeEntry}
    (h : findNamed name entries = some e) : e.name = name := by
  simpa using List.find?_some h

theorem findNamed_mem {name : Text} {entries : List TreeEntry} {e : TreeEntry}
    (h : findNamed name entries = some e) : e ∈ entries := List.mem_of_find?_eq_some h

theorem findNamed_eq_some {entries : List TreeEntry}
    (names : (entries.map TreeEntry.name).Nodup) {e : TreeEntry} :
    findNamed e.name entries = some e ↔ e ∈ entries := by
  refine ⟨findNamed_mem, fun he => ?_⟩
  cases hfind : findNamed e.name entries with
  | none => simpa using List.find?_eq_none.mp hfind e he
  | some found =>
    rw [List.inj_on_of_nodup_map names (findNamed_mem hfind) he (findNamed_name hfind)]

theorem findNamed_map {change : TreeEntry → TreeEntry} (hname : ∀ e, (change e).name = e.name)
    (name : Text) (entries : List TreeEntry) :
    findNamed name (entries.map change) = (findNamed name entries).map change := by
  have hsame : ((fun e : TreeEntry => decide (e.name = name)) ∘ change) =
      fun e : TreeEntry => decide (e.name = name) := by
    funext e
    simp only [Function.comp_apply, hname]
  rw [findNamed, List.find?_map, hsame]
  rfl

theorem findNamed_perm {entries entries' : List TreeEntry} (h : entries.Perm entries')
    (names : (entries.map TreeEntry.name).Nodup) (name : Text) :
    findNamed name entries = findNamed name entries' := by
  have names' : (entries'.map TreeEntry.name).Nodup := (h.map _).nodup_iff.mp names
  refine Option.ext fun e => ⟨fun he => ?_, fun he => ?_⟩
  · obtain rfl := findNamed_name he
    exact (findNamed_eq_some names').mpr (h.mem_iff.mp (findNamed_mem he))
  · obtain rfl := findNamed_name he
    exact (findNamed_eq_some names).mpr (h.mem_iff.mpr (findNamed_mem he))

/-- A directory is what it has under each name. -/
theorem perm_of_findNamed_eq {entries entries' : List TreeEntry}
    (names : (entries.map TreeEntry.name).Nodup) (names' : (entries'.map TreeEntry.name).Nodup)
    (h : ∀ name, findNamed name entries = findNamed name entries') : entries.Perm entries' := by
  refine (List.perm_ext_iff_of_nodup names.of_map names'.of_map).mpr fun e => ?_
  rw [← findNamed_eq_some names, ← findNamed_eq_some names', h]

theorem treeHash_eq_of_perm {entries entries' : List TreeEntry} (h : entries.Perm entries')
    (names : (entries.map TreeEntry.name).Nodup) :
    treeHash host entries = treeHash host entries' := by
  rw [treeHash, treeHash, canonicalTreeBytes_eq, canonicalTreeBytes_eq,
    sortByName_eq_of_perm h names]

theorem entryFrom_tree {store : Store host} {e : TreeEntry} {sub : Text}
    (h : e.target = .tree sub) (name : Text) (path : List Text) :
    entryFrom store (name :: path) e = entryAt store sub (name :: path) := by
  rw [entryFrom, h, entryAt]

theorem entryAt_of_findNamed {store : Store host} {root : Text} {entries : List TreeEntry}
    (read : treeEntries store root = .ok entries) (name : Text) (path : List Text) :
    entryAt store root (name :: path) = (findNamed name entries).bind (entryFrom store path) := by
  rw [entryAt, childrenOf_eq read]

theorem entryFrom_append (store : Store host) (path path' : List Text) (e : TreeEntry) :
    entryFrom store (path ++ path') e = (entryFrom store path e).bind (entryFrom store path') := by
  induction path generalizing e with
  | nil => rfl
  | cons name path ih =>
    rw [List.cons_append, entryFrom, entryFrom]
    cases e.target with
    | blob hex => rfl
    | tree sub =>
      simp only [Option.bind_assoc]
      congr 1
      exact funext fun child => ih child

theorem entryAt_append (store : Store host) (root : Text) {path : List Text} (hpath : path ≠ [])
    (path' : List Text) :
    entryAt store root (path ++ path') =
      (entryAt store root path).bind (entryFrom store path') := by
  obtain ⟨name, rest, rfl⟩ := List.exists_cons_of_ne_nil hpath
  rw [List.cons_append, entryAt, entryAt, Option.bind_assoc]
  congr 1
  exact funext fun child => entryFrom_append store rest path' child

theorem viewAt_none_of_prefix {store : Store host} {root : Text} {path path' : List Text}
    (hpath : path ≠ []) (h : entryAt store root path = none) (hpre : path <+: path') :
    viewAt store root path' = none := by
  obtain ⟨rest, rfl⟩ := hpre
  rw [viewAt, entryAt_append store root hpath, h]
  rfl

section extending

variable {store store' : Store host} (hx : Extends store store')
include hx

theorem entryFrom_of_extends {path : List Text} {e : TreeEntry}
    (he : ∀ sub, e.target = .tree sub → StoredTree store sub) :
    entryFrom store' path e = entryFrom store path e := by
  induction path generalizing e with
  | nil => rfl
  | cons name path ih =>
    cases htarget : e.target with
    | blob hex => rw [entryFrom, entryFrom, htarget]
    | tree sub =>
      obtain ⟨read, -, -, subtrees⟩ := he sub htarget
      rw [entryFrom, entryFrom, htarget]
      simp only [childrenOf_eq read, childrenOf_eq (treeEntries_of_extends hx read)]
      cases hfind : findNamed name _ with
      | none => rfl
      | some child => exact ih fun s hs => subtrees child (findNamed_mem hfind) s hs

theorem entryAt_of_extends {root : Text} (h : StoredTree store root) (path : List Text) :
    entryAt store' root path = entryAt store root path := by
  cases path with
  | nil => rfl
  | cons name path =>
    have hroot : entryFrom store' (name :: path) ⟨[], .tree root, none, none⟩ =
        entryFrom store (name :: path) ⟨[], .tree root, none, none⟩ := by
      refine entryFrom_of_extends hx fun sub hsub => ?_
      obtain rfl := TreeTarget.tree.inj hsub
      exact h
    exact hroot

theorem viewAt_of_extends {root : Text} (h : StoredTree store root) (path : List Text) :
    viewAt store' root path = viewAt store root path := by
  rw [viewAt, entryAt_of_extends hx h, viewAt]

end extending

def viewFrom (store : Store host) (path : List Text) (e : TreeEntry) : Option View :=
  (entryFrom store path e).map viewOf

theorem viewFrom_tree {store : Store host} {e : TreeEntry} {sub : Text}
    (h : e.target = .tree sub) {path : List Text} (hpath : path ≠ []) :
    viewFrom store path e = viewAt store sub path := by
  obtain ⟨name, rest, rfl⟩ := List.exists_cons_of_ne_nil hpath
  rw [viewFrom, viewAt, entryFrom_tree h]

theorem viewAt_cons {store : Store host} {root : Text} {entries : List TreeEntry}
    (read : treeEntries store root = .ok entries) (name : Text) (path : List Text) :
    viewAt store root (name :: path) = (findNamed name entries).bind (viewFrom store path) := by
  rw [viewAt, entryAt_of_findNamed read]
  cases findNamed name entries <;> rfl

theorem viewFrom_of_extends {store store' : Store host} (hx : Extends store store')
    {e : TreeEntry} (he : ∀ sub, e.target = .tree sub → StoredTree store sub) (path : List Text) :
    viewFrom store' path e = viewFrom store path e := by
  rw [viewFrom, entryFrom_of_extends hx he, viewFrom]

theorem viewAt_putTree (hf : Faithful host) {entries : List TreeEntry} {store : Store host}
    (names : (entries.map TreeEntry.name).Nodup)
    (subtrees : ∀ e ∈ entries, ∀ sub, e.target = .tree sub → StoredTree store sub)
    (name : Text) (path : List Text) :
    viewAt (putTree entries store).2 (putTree entries store).1 (name :: path) =
      (findNamed name entries).bind (viewFrom store path) := by
  rw [viewAt_cons (treeEntries_putTree hf entries store),
    ← findNamed_perm (sortByName_perm entries).symm names]
  cases hfind : findNamed name entries with
  | none => rfl
  | some e =>
    exact viewFrom_of_extends (extends_putTree hf entries store)
      (subtrees e (findNamed_mem hfind)) path

/-- An entry is its name, how it looks and the tree it leads to. -/
theorem entry_ext {e e' : TreeEntry} (hname : e.name = e'.name) (hview : viewOf e = viewOf e')
    (hbelow : ∀ sub sub', e.target = .tree sub → e'.target = .tree sub' → sub = sub') :
    e = e' := by
  obtain ⟨n, target, mode, mtime⟩ := e
  obtain ⟨n', target', mode', mtime'⟩ := e'
  simp only [viewOf, View.mk.injEq] at hview
  obtain ⟨hkind, rfl, rfl⟩ := hview
  obtain rfl : n = n' := hname
  cases target with
  | blob hex =>
    cases target' with
    | blob hex' =>
      obtain rfl : hex = hex' := Kind.file.inj hkind
      rfl
    | tree sub' => cases hkind
  | tree sub =>
    cases target' with
    | blob hex' => cases hkind
    | tree sub' => rw [hbelow sub sub' rfl rfl]

/-- Stored trees that look alike at every path have one address, in whatever stores they are. -/
theorem StoredTree.ext {store : Store host} {root : Text} (h : StoredTree store root) :
    ∀ {store' : Store host} {root' : Text}, StoredTree store' root' →
      (∀ path, viewAt store root path = viewAt store' root' path) → root = root' := by
  induction h with
  | @mk root entries read address names subtrees ih =>
    intro store' root' h' hviews
    obtain ⟨read', address', names', subtrees'⟩ := h'
    rename_i entries'
    have hfind : ∀ name, findNamed name entries = findNamed name entries' := by
      intro name
      have hat : ∀ path, (findNamed name entries).bind (viewFrom store path) =
          (findNamed name entries').bind (viewFrom store' path) := by
        intro path
        rw [← viewAt_cons read, ← viewAt_cons read', hviews]
      cases he : findNamed name entries with
      | none =>
        cases he' : findNamed name entries' with
        | none => rfl
        | some e' => simpa [he, he', viewFrom, entryFrom] using hat []
      | some e =>
        cases he' : findNamed name entries' with
        | none => simpa [he, he', viewFrom, entryFrom] using hat []
        | some e' =>
          simp only [he, he', Option.bind_some] at hat
          have hview : viewOf e = viewOf e' := by simpa [viewFrom, entryFrom] using hat []
          have hname : e.name = e'.name := (findNamed_name he).trans (findNamed_name he').symm
          have hbelow : ∀ sub sub', e.target = .tree sub → e'.target = .tree sub' → sub = sub' := by
            intro sub sub' hsub hsub'
            refine ih e (findNamed_mem he) sub hsub (subtrees' e' (findNamed_mem he') sub' hsub') ?_
            intro path
            cases path with
            | nil => rfl
            | cons next rest =>
              rw [← viewFrom_tree hsub (List.cons_ne_nil next rest), hat,
                viewFrom_tree hsub' (List.cons_ne_nil next rest)]
          rw [entry_ext hname hview hbelow]
    rw [address, address', treeHash_eq_of_perm (perm_of_findNamed_eq names names' hfind) names]

theorem entryFrom_name {store : Store host} {path : List Text} (hpath : path ≠ []) :
    ∀ {e found : TreeEntry}, entryFrom store path e = some found →
      found.name = path.getLast hpath := by
  induction path with
  | nil => exact absurd rfl hpath
  | cons name path ih =>
    intro e found h
    rw [entryFrom] at h
    cases htarget : e.target with
    | blob hex => simp [htarget] at h
    | tree sub =>
      simp only [htarget] at h
      obtain ⟨child, hchild, h⟩ := Option.bind_eq_some_iff.mp h
      cases path with
      | nil =>
        obtain rfl : child = found := Option.some.inj h
        exact findNamed_name hchild
      | cons next rest => exact ih (List.cons_ne_nil next rest) h

theorem entryAt_name {store : Store host} {root : Text} {path : List Text} (hpath : path ≠ [])
    {e : TreeEntry} (he : entryAt store root path = some e) : e.name = path.getLast hpath := by
  have hroot : entryFrom store path ⟨[], .tree root, none, none⟩ = some e := by
    cases path with
    | nil => exact absurd rfl hpath
    | cons name rest => exact he
  exact entryFrom_name hpath hroot

theorem StoredTree.subtree {store : Store host} {root : Text} (h : StoredTree store root)
    {path : List Text} (hpath : path ≠ []) {e : TreeEntry} (he : entryAt store root path = some e) :
    ∀ sub, e.target = .tree sub → StoredTree store sub := by
  induction path generalizing root with
  | nil => exact absurd rfl hpath
  | cons name path ih =>
    obtain ⟨read, -, -, subtrees⟩ := h
    rw [entryAt_of_findNamed read] at he
    obtain ⟨child, hchild, he⟩ := Option.bind_eq_some_iff.mp he
    have hsubs := subtrees child (findNamed_mem hchild)
    cases path with
    | nil =>
      obtain rfl : child = e := Option.some.inj he
      exact hsubs
    | cons next rest =>
      cases htarget : child.target with
      | blob hex => simp [entryFrom, htarget] at he
      | tree s =>
        rw [entryFrom_tree htarget] at he
        exact ih (hsubs s htarget) (List.cons_ne_nil next rest) he

/-- Where trees look alike at and below a path they have the same entry there. -/
theorem entryAt_eq_of_views {store store' : Store host} {root root' : Text}
    (h : StoredTree store root) (h' : StoredTree store' root') {path : List Text}
    (hviews : ∀ path', path <+: path' → viewAt store root path' = viewAt store' root' path') :
    entryAt store root path = entryAt store' root' path := by
  by_cases hpath : path = []
  · rw [hpath, entryAt, entryAt]
  have hhere := hviews path (List.prefix_refl path)
  cases he : entryAt store root path with
  | none =>
    cases he' : entryAt store' root' path with
    | none => rfl
    | some e' => simp [viewAt, he, he'] at hhere
  | some e =>
    cases he' : entryAt store' root' path with
    | none => simp [viewAt, he, he'] at hhere
    | some e' =>
      have hview : viewOf e = viewOf e' := by simpa [viewAt, he, he'] using hhere
      have hname : e.name = e'.name := by
        rw [entryAt_name hpath he, entryAt_name hpath he']
      have hbelow : ∀ sub sub', e.target = .tree sub → e'.target = .tree sub' → sub = sub' := by
        intro sub sub' hsub hsub'
        refine (h.subtree hpath he sub hsub).ext (h'.subtree hpath he' sub' hsub') fun rest => ?_
        by_cases hrest : rest = []
        · rw [hrest]
          rfl
        · have hboth := hviews (path ++ rest) (List.prefix_append path rest)
          rw [viewAt, viewAt, entryAt_append store root hpath, entryAt_append store' root' hpath,
            he, he'] at hboth
          have hleft : viewFrom store rest e = viewAt store sub rest := viewFrom_tree hsub hrest
          have hright : viewFrom store' rest e' = viewAt store' sub' rest :=
            viewFrom_tree hsub' hrest
          rw [← hleft, ← hright]
          exact hboth
      rw [entry_ext hname hview hbelow]

end Scarab.Storage
