import Scarab.ContentIdentity
import Scarab.TreeExclude

/-!
# Hashing a directory

A scan hashes a whole directory bottom-up, folding the root and the content identity side by
side. What it produced is then read as a store of its own.
-/
namespace Scarab.Storage

open Depot

/-- What `lstat` finds under a name: raw names, contents, mode bits, and the mtime in nanoseconds
from the epoch. -/
inductive Node where
  | file (content : Bytes) (mode : ℕ) (modified : Option ℤ)
  | symlink (dest : Bytes)
  | directory (mode : ℕ) (modified : Option ℤ) (items : List (Bytes × Node))
  | irregular

/-- Whole milliseconds, cut towards the epoch, where they fit. -/
def unixMsFromSystemTime (ns : ℤ) : Option ℤ :=
  if (ns.tdiv 1000000).natAbs < 2 ^ 63 then some (ns.tdiv 1000000) else none

def mtimeMs (modified : Option ℤ) : Option ℤ := modified.bind unixMsFromSystemTime

/-- The owner can list the directory, and ask for what is in it. -/
def listable (mode : ℕ) (items : List (Bytes × Node)) : Bool :=
  ownerHas mode 0o400 && (items.isEmpty || ownerHas mode 0o100)

inductive BlobSource where
  | file (path : List Bytes) (len : ℕ)
  | link (bytes : Bytes)
  deriving DecidableEq, Repr

/-- What a scan has gathered: blobs by address, and tree bytes, children before parents. -/
structure Scan where
  blobs : SortedMap Text BlobSource
  trees : List (Text × Bytes)
  files : ℕ

def TreeEntry.symlink (name blob : Text) : TreeEntry :=
  ⟨name, .blob blob, some modeSymlink, none⟩

/-- An entry of the tree and the one of its identity. -/
abbrev EntryPair := TreeEntry × TreeEntry

abbrev ScanStep (α : Type) := Scan → Except StorageError (α × Scan)

def sortItems {α : Type} (items : List (Bytes × α)) : List (Bytes × α) :=
  items.insertionSort fun a b => a.1 ≤ b.1

def runItems : List (Bytes × ScanStep EntryPair) → ScanStep (List TreeEntry × List TreeEntry)
  | [], scan => .ok (([], []), scan)
  | item :: items, scan =>
      match item.2 scan with
      | .error e => .error e
      | .ok ((entry, idEntry), scan) =>
          match runItems items scan with
          | .error e => .error e
          | .ok ((entries, idEntries), scan) => .ok ((entry :: entries, idEntry :: idEntries), scan)

section scanning

variable (host : Host) (lossy : Bytes → Text)

/-- The tree of one level, once its entries are there. -/
def finishDir (levels : List TreeEntry × List TreeEntry) (scan : Scan) : (Text × Text) × Scan :=
  let identity := contentIdentityOf host levels.2
  let bytes := canonicalTreeBytes host levels.1
  ((host.hashHex bytes, identity),
    { scan with trees := scan.trees ++ [(host.hashHex bytes, bytes)] })

mutual

def scanNode (path : List Bytes) (name : Text) : Node → ScanStep EntryPair
  | .symlink dest, scan =>
      let hash := host.hashHex dest
      let entry := TreeEntry.symlink name hash
      .ok ((entry, entry),
        ⟨scan.blobs.insertNew hash (.link dest), scan.trees, scan.files + 1⟩)
  | .irregular, _ => .error .unsupported
  | .file content mode modified, scan =>
      if ownerHas mode 0o400 then
        let hash := host.hashHex content
        let mode := some (mode &&& 0o7777)
        .ok ((⟨name, .blob hash, mode, mtimeMs modified⟩, ⟨name, .blob hash, mode, none⟩),
          ⟨scan.blobs.insertNew hash (.file path content.length), scan.trees, scan.files + 1⟩)
      else .error .backend
  | .directory mode modified items, scan =>
      if listable mode items then
        match runItems (sortItems (scanItems path items)) scan with
        | .error e => .error e
        | .ok (levels, scan) =>
            let ((sub, subIdentity), scan) := finishDir host levels scan
            let mode := some (mode &&& 0o7777)
            .ok ((⟨name, .tree sub, mode, mtimeMs modified⟩,
              ⟨name, .tree subIdentity, mode, none⟩), scan)
      else .error .backend

/-- The items of a directory, each with the step that scans it. -/
def scanItems (path : List Bytes) : List (Bytes × Node) → List (Bytes × ScanStep EntryPair)
  | [] => []
  | (name, node) :: items =>
      (name, scanNode (path ++ [name]) (lossy name) node) :: scanItems path items

end

/-- One directory: the hash of its tree and its content identity. -/
def scanOne (path : List Bytes) (mode : ℕ) (items : List (Bytes × Node)) :
    ScanStep (Text × Text) := fun scan =>
  if listable mode items then
    match runItems (sortItems (scanItems host lossy path items)) scan with
    | .error e => .error e
    | .ok (levels, scan) => .ok (finishDir host levels scan)
  else .error .backend

def scanDir (path : List Bytes) (mode : ℕ) (items : List (Bytes × Node)) :
    Except StorageError ((Text × Text) × Scan) :=
  scanOne host lossy path mode items ⟨∅, [], 0⟩

end scanning

/-- The store has all these trees. -/
def Holds {host : Host} (store : Store host) (trees : List (Text × Bytes)) : Prop :=
  ∀ t ∈ trees, store.objects.get t.1 = some t.2

structure Grows (host : Host) (scan scan' : Scan) : Prop where
  kept : ∀ t ∈ scan.trees, t ∈ scan'.trees
  addressed : ∀ t ∈ scan'.trees, t ∈ scan.trees ∨ host.hashHex t.2 = t.1

theorem Grows.refl (host : Host) (scan : Scan) : Grows host scan scan :=
  ⟨fun _ h => h, fun _ h => .inl h⟩

theorem Grows.trans {host : Host} {a b c : Scan} (hab : Grows host a b) (hbc : Grows host b c) :
    Grows host a c where
  kept := fun t ht => hbc.kept t (hab.kept t ht)
  addressed := fun t ht => (hbc.addressed t ht).elim (hab.addressed t) .inr

theorem Holds.of_grows {host : Host} {store : Store host} {scan scan' : Scan}
    (h : Holds store scan'.trees) (hg : Grows host scan scan') : Holds store scan.trees :=
  fun t ht => h t (hg.kept t ht)

/-- A step pairs each entry with the one its identity sees, in every store that has the trees. -/
def SoundStep (host : Host) (step : ScanStep EntryPair) : Prop :=
  ∀ scan pair scan', step scan = .ok (pair, scan') → Grows host scan scan' ∧
    ∀ store : Store host, Holds store scan'.trees →
      dropMtime pair.2 = identityEntry store pair.1 ∧ Identified store pair.1

theorem runItems_sound {host : Host} {items : List (Bytes × ScanStep EntryPair)}
    (hsteps : ∀ item ∈ items, SoundStep host item.2) {scan scan' : Scan}
    {levels : List TreeEntry × List TreeEntry} (h : runItems items scan = .ok (levels, scan')) :
    Grows host scan scan' ∧ ∀ store : Store host, Holds store scan'.trees →
      levels.2.map dropMtime = levels.1.map (identityEntry store) ∧
        ∀ e ∈ levels.1, Identified store e := by
  induction items generalizing scan levels with
  | nil =>
    obtain ⟨rfl, rfl⟩ := Prod.mk.inj (Except.ok.inj h)
    exact ⟨Grows.refl host scan, fun store _ => ⟨rfl, fun e he => (List.not_mem_nil he).elim⟩⟩
  | cons item items ih =>
    simp only [runItems] at h
    split at h
    · cases h
    · next entry idEntry scan₁ hstep =>
      split at h
      · cases h
      · next entries idEntries scan₂ hrest =>
        obtain ⟨rfl, rfl⟩ := Prod.mk.inj (Except.ok.inj h)
        obtain ⟨hg, hpair⟩ := hsteps item List.mem_cons_self _ _ _ hstep
        obtain ⟨hg', hlevels⟩ := ih (fun x hx => hsteps x (List.mem_cons_of_mem _ hx)) hrest
        refine ⟨hg.trans hg', fun store hstore => ?_⟩
        obtain ⟨hhere, hid⟩ := hpair store (hstore.of_grows hg')
        obtain ⟨hthere, hids⟩ := hlevels store hstore
        refine ⟨?_, fun e he => ?_⟩
        · rw [List.map_cons, List.map_cons, hhere, hthere]
        · rcases List.mem_cons.mp he with rfl | he
          · exact hid
          · exact hids e he

theorem sortByName_map {change : TreeEntry → TreeEntry} (hname : ∀ e, (change e).name = e.name)
    (entries : List TreeEntry) :
    (sortByName entries).map change = sortByName (entries.map change) := by
  refine List.map_insertionSort _ _ change entries fun a _ b _ => ?_
  rw [hname, hname]

theorem finishDir_sound {host : Host} (hf : Faithful host) {levels : List TreeEntry × List TreeEntry}
    {scan : Scan} {store : Store host} (hstore : Holds store (finishDir host levels scan).2.trees)
    (hlevels : levels.2.map dropMtime = levels.1.map (identityEntry store))
    (hids : ∀ e ∈ levels.1, Identified store e) :
    HasIdentity store (finishDir host levels scan).1.1 (finishDir host levels scan).1.2 := by
  have hget := hstore (host.hashHex (canonicalTreeBytes host levels.1),
    canonicalTreeBytes host levels.1) (by simp [finishDir])
  have read : treeEntries store (host.hashHex (canonicalTreeBytes host levels.1)) =
      .ok (sortByName levels.1) := by
    rw [treeEntries, hget]
    simp only [canonicalTreeBytes_eq, hf.parse_json]
  have hid := hasIdentity_of_read read fun e he => hids e (mem_sortByName.mp he)
  have hsame : contentIdentityOf host ((sortByName levels.1).map (resolve store)) =
      contentIdentityOf host levels.2 := by
    rw [contentIdentityOf, contentIdentityOf, hlevels, List.map_map, ← treeHash_sortByName,
      ← treeHash_sortByName (levels.1.map _)]
    exact congrArg (treeHash host) (by
      rw [← sortByName_idem (levels.1.map _), ← sortByName_map (identityEntry_name store)]
      rfl)
  rw [hsame] at hid
  exact hid

theorem grows_finishDir (host : Host) (levels : List TreeEntry × List TreeEntry) (scan : Scan) :
    Grows host scan (finishDir host levels scan).2 where
  kept := fun _ ht => List.mem_append_left _ ht
  addressed := by
    intro t ht
    rcases List.mem_append.mp ht with ht | ht
    · exact .inl ht
    · obtain rfl := List.mem_singleton.mp ht
      exact .inr rfl

theorem mem_sortItems {α : Type} {items : List (Bytes × α)} {x : Bytes × α} :
    x ∈ sortItems items ↔ x ∈ items := List.mem_insertionSort _

mutual

theorem scanNode_sound {host : Host} (hf : Faithful host) (lossy : Bytes → Text) :
    ∀ (node : Node) (path : List Bytes) (name : Text),
      SoundStep host (scanNode host lossy path name node)
  | .symlink dest, path, name => by
      intro scan pair scan' h
      rw [scanNode] at h
      obtain ⟨rfl, rfl⟩ := Prod.mk.inj (Except.ok.inj h)
      refine ⟨⟨fun _ ht => ht, fun _ ht => .inl ht⟩, fun store _ => ⟨rfl, fun sub hsub => ?_⟩⟩
      cases hsub
  | .irregular, path, name => by
      intro scan pair scan' h
      rw [scanNode] at h
      cases h
  | .file content mode modified, path, name => by
      intro scan pair scan' h
      rw [scanNode] at h
      split_ifs at h
      obtain ⟨rfl, rfl⟩ := Prod.mk.inj (Except.ok.inj h)
      refine ⟨⟨fun _ ht => ht, fun _ ht => .inl ht⟩, fun store _ => ⟨rfl, fun sub hsub => ?_⟩⟩
      cases hsub
  | .directory mode modified items, path, name => by
      intro scan pair scan' h
      rw [scanNode] at h
      split_ifs at h
      split at h
      · cases h
      · next levels scan₁ hrun =>
        obtain ⟨rfl, rfl⟩ := Prod.mk.inj (Except.ok.inj h)
        obtain ⟨hg, hlevels⟩ := runItems_sound
          (fun item hitem => scanItems_sound hf lossy items path item (mem_sortItems.mp hitem)) hrun
        have hg' := grows_finishDir host levels scan₁
        refine ⟨hg.trans hg', fun store hstore => ?_⟩
        obtain ⟨hhere, hids⟩ := hlevels store (hstore.of_grows hg')
        have hid := finishDir_sound hf hstore hhere hids
        refine ⟨?_, fun sub hsub => ?_⟩
        · have hat : identityAt store (host.hashHex (canonicalTreeBytes host levels.1)) =
              contentIdentityOf host levels.2 := identityAt_eq hid
          simp only [identityEntry, resolve, dropMtime]
          rw [hat]
        · obtain rfl := TreeTarget.tree.inj hsub
          exact ⟨_, hid⟩

theorem scanItems_sound {host : Host} (hf : Faithful host) (lossy : Bytes → Text) :
    ∀ (items : List (Bytes × Node)) (path : List Bytes),
      ∀ item ∈ scanItems host lossy path items, SoundStep host item.2
  | [], path, item, hitem => by
      rw [scanItems] at hitem
      cases hitem
  | (name, node) :: items, path, item, hitem => by
      rw [scanItems] at hitem
      rcases List.mem_cons.mp hitem with rfl | hitem
      · exact scanNode_sound hf lossy node (path ++ [name]) (lossy name)
      · exact scanItems_sound hf lossy items path item hitem

end

/-- The trees of a scan by address. -/
def scanStore {host : Host} {trees : List (Text × Bytes)}
    (h : ∀ t ∈ trees, host.hashHex t.2 = t.1) : Store host where
  objects := SortedMap.ofList trees
  addressed := by
    intro hash bytes hget
    rcases SortedMap.get_insertAll hget with hmem | hempty
    · exact h _ hmem
    · cases hempty

theorem get_insertAll_ne_none {trees : List (Text × Bytes)} {hash : Text} :
    ∀ {m : SortedMap Text Bytes}, m.get hash ≠ none ∨ hash ∈ trees.map Prod.fst →
      (m.insertAll trees).get hash ≠ none := by
  induction trees with
  | nil => exact fun h => h.resolve_right List.not_mem_nil
  | cons t trees ih =>
    intro m h
    refine @ih (m.insert t.1 t.2) ?_
    rw [SortedMap.get_insert]
    by_cases hhash : hash = t.1
    · exact .inl (by rw [if_pos hhash]; exact Option.some_ne_none _)
    · rw [if_neg hhash]
      exact h.imp_right fun hmem => (List.mem_cons.mp hmem).resolve_left hhash

theorem scanStore_holds {host : Host} (hc : host.CollisionFree) {trees : List (Text × Bytes)}
    (h : ∀ t ∈ trees, host.hashHex t.2 = t.1) : Holds (scanStore h) trees := by
  intro t ht
  have hkey : t.1 ∈ trees.map Prod.fst := List.mem_map_of_mem ht
  cases hget : (scanStore h).objects.get t.1 with
  | none => exact absurd hget (get_insertAll_ne_none (.inr hkey))
  | some bytes =>
    have hhash := (scanStore h).addressed hget
    rw [hc (hhash.trans (h t ht).symm)]

theorem scanDir_sound {host : Host} (hf : Faithful host) {lossy : Bytes → Text}
    {path : List Bytes} {mode : ℕ} {items : List (Bytes × Node)} {root identity : Text}
    {scan : Scan} (hrun : scanDir host lossy path mode items = .ok ((root, identity), scan)) :
    ∃ store : Store host, store.objects = SortedMap.ofList scan.trees ∧
      HasIdentity store root identity := by
  rw [scanDir, scanOne] at hrun
  split_ifs at hrun
  split at hrun
  · cases hrun
  · next levels scan₁ hitems =>
    have hdone := Except.ok.inj hrun
    obtain ⟨hg, hlevels⟩ := runItems_sound (fun item hitem =>
      scanItems_sound hf lossy items path item (mem_sortItems.mp hitem)) hitems
    have hg' := hg.trans (grows_finishDir host levels scan₁)
    have haddressed : ∀ t ∈ (finishDir host levels scan₁).2.trees, host.hashHex t.2 = t.1 :=
      fun t ht => (hg'.addressed t ht).resolve_left List.not_mem_nil
    have hholds := scanStore_holds hf.collisionFree haddressed
    obtain ⟨hhere, hids⟩ := hlevels _ (hholds.of_grows (grows_finishDir host levels scan₁))
    have hid := finishDir_sound hf hholds hhere hids
    have hpair : (finishDir host levels scan₁).1 = (root, identity) := congrArg Prod.fst hdone
    obtain rfl : (finishDir host levels scan₁).2 = scan := congrArg Prod.snd hdone
    rw [hpair] at hid
    exact ⟨scanStore haddressed, rfl, hid⟩

/-- The identity of a tree is decided by its content and decides it, a scan folds the same, and
pruning by the same paths keeps it. -/
theorem content_identity_exact (hf : Faithful host) :
    (∀ (store store' : Store host) (root root' : Text), StoredTree store root →
      StoredTree store' root' → ∃ id id', HasIdentity store root id ∧
        HasIdentity store' root' id' ∧
        (id = id' ↔ ∀ path, contentAt store root path = contentAt store' root' path)) ∧
    (∀ (lossy : Bytes → Text) (path : List Bytes) (mode : ℕ) (items : List (Bytes × Node))
      (root identity : Text) (scan : Scan),
      scanDir host lossy path mode items = .ok ((root, identity), scan) →
        ∃ store : Store host, store.objects = SortedMap.ofList scan.trees ∧
          HasIdentity store root identity) ∧
    ∀ (store store' : Store host) (root root' : Text), StoredTree store root →
      StoredTree store' root' →
      (∀ path, contentAt store root path = contentAt store' root' path) → ∀ paths : List Text,
        ((∃ e, pruneTree paths root store = .error e) ∧
          ∃ e, pruneTree paths root' store' = .error e) ∨
        ∃ pruned pruned' kept kept' id, pruneTree paths root store = .ok (pruned, kept) ∧
          pruneTree paths root' store' = .ok (pruned', kept') ∧
          HasIdentity kept pruned id ∧ HasIdentity kept' pruned' id := by
  refine ⟨fun store store' root root' h h' => ?_,
    fun lossy path mode items root identity scan hrun => scanDir_sound hf hrun,
    fun store store' root root' h h' hsame paths => ?_⟩
  · exact ⟨_, _, h.hasIdentity, h'.hasIdentity, identityAt_eq_iff hf h h'⟩
  · refine (pruneTree_content hf h h' hsame paths).imp_right ?_
    rintro ⟨pruned, pruned', kept, kept', hrun, hrun', hstored, hstored', hid⟩
    exact ⟨pruned, pruned', kept, kept', _, hrun, hrun', hstored.hasIdentity,
      hid ▸ hstored'.hasIdentity⟩

/-- A file with this mtime. -/
def timedEntries (mtime : Option ℤ) : List TreeEntry :=
  [⟨['f'], .blob emptyBlobHex, some 420, mtime⟩]

def retimedHex : Text :=
  addressText 0xf31030064803879a14f14efd49ed21040d96e909e5b5f768d65fd2a428669c6c

def timelessHex : Text :=
  addressText 0x8e4d6eebdc8be95f43e2ea9796dece1a9a5ac0124335086fcdbf70339a2e2363

/-- A directory with this mtime. -/
def nestedEntries (hex : Text) (mtime : Option ℤ) : List TreeEntry :=
  [⟨['d'], .tree hex, some 493, mtime⟩]

def touchedTrees : List (List TreeEntry × Text) :=
  [(timedEntries (some 7), innerHex), (timedEntries (some 8), retimedHex),
    (timedEntries none, timelessHex), (nestedEntries innerHex (some 5), outerHex),
    (nestedEntries retimedHex (some 6),
      addressText 0x3e779c50126d58a0eb94bdfe1e38462542865160424f4adb6f9c1cb0cbdfddc1),
    (nestedEntries timelessHex none,
      addressText 0xb6f51b4318d6c9d5377dd6773e787173532ab965771e1bd81754bb95cdac7c70)]

def touchedHost : Host := treesHost touchedTrees []

theorem touchedHost_faithful : Faithful touchedHost :=
  tableHost_faithful (by decide +kernel) (by decide +kernel) (by decide +kernel)
    (by decide +kernel)

/-- The directory with the file in it, stored: its root and the store. -/
def nestedTree (host : Host) (file dir : Option ℤ) : Text × Store host :=
  let inner := putTree (timedEntries file) (emptyStore host)
  putTree (nestedEntries inner.1 dir) inner.2

theorem timed_stored (hf : Faithful host) (file : Option ℤ) (store : Store host) :
    StoredTree (putTree (timedEntries file) store).2 (putTree (timedEntries file) store).1 := by
  refine StoredTree.putTree hf (List.nodup_singleton _) fun e he sub hsub => ?_
  obtain rfl := List.mem_singleton.mp he
  cases hsub

theorem nestedTree_stored (hf : Faithful host) (file dir : Option ℤ) :
    StoredTree (nestedTree host file dir).2 (nestedTree host file dir).1 := by
  refine StoredTree.putTree hf (List.nodup_singleton _) fun e he sub hsub => ?_
  obtain rfl := List.mem_singleton.mp he
  obtain rfl := TreeTarget.tree.inj hsub
  exact timed_stored hf file _

/-- The mtimes do not show in the content. -/
theorem nestedTree_content (hf : Faithful host) (file dir : Option ℤ) (path : List Text) :
    contentAt (nestedTree host file dir).2 (nestedTree host file dir).1 path =
      if path = [['d']] then some (.directory, some 493)
      else if path = [['d'], ['f']] then some (.file emptyBlobHex, some 420) else none := by
  have hinner : treeEntries (nestedTree host file dir).2
      (putTree (timedEntries file) (emptyStore host)).1 = .ok (sortByName (timedEntries file)) :=
    treeEntries_of_extends (extends_putTree hf _ _) (treeEntries_putTree hf _ _)
  cases path with
  | nil => simp [contentAt, viewAt, entryAt]
  | cons name rest =>
    rw [nestedTree, contentAt_cons (treeEntries_putTree hf _ _)]
    by_cases hname : ['d'] = name
    · subst hname
      cases rest with
      | nil => simp [nestedEntries, sortByName, findNamed, contentFrom_nil, kindOf]
      | cons next more =>
        have hfound : findNamed ['d'] (sortByName (nestedEntries
            (putTree (timedEntries file) (emptyStore host)).1 dir)) =
          some ⟨['d'], .tree (putTree (timedEntries file) (emptyStore host)).1, some 493, dir⟩ := by
          simp [nestedEntries, sortByName, findNamed]
        rw [hfound, Option.bind_some, contentFrom_tree rfl]
        refine (contentAt_cons hinner next more).trans ?_
        by_cases hnext : ['f'] = next
        · subst hnext
          cases more with
          | nil => simp [timedEntries, sortByName, findNamed, contentFrom_nil, kindOf]
          | cons last others => simp [timedEntries, sortByName, findNamed, contentFrom_blob]
        · simp [timedEntries, sortByName, findNamed, hnext, Ne.symm hnext]
    · simp [nestedEntries, sortByName, findNamed, hname, Ne.symm hname]

theorem nestedTree_roots : (nestedTree touchedHost (some 7) (some 5)).1 ≠
    (nestedTree touchedHost (some 8) (some 6)).1 := by
  decide +kernel

/-- A file that is touched, and with it its directory, leaves the identity. -/
theorem content_identity_touched :
    (nestedTree touchedHost (some 7) (some 5)).1 ≠ (nestedTree touchedHost (some 8) (some 6)).1 ∧
    ∃ id, HasIdentity (nestedTree touchedHost (some 7) (some 5)).2
        (nestedTree touchedHost (some 7) (some 5)).1 id ∧
      HasIdentity (nestedTree touchedHost (some 8) (some 6)).2
        (nestedTree touchedHost (some 8) (some 6)).1 id := by
  have hf := touchedHost_faithful
  obtain ⟨id, id', hid, hid', hiff⟩ := (content_identity_exact hf).1 _ _ _ _
    (nestedTree_stored hf (some 7) (some 5)) (nestedTree_stored hf (some 8) (some 6))
  have hsame : id = id' :=
    hiff.mpr fun path => by rw [nestedTree_content hf, nestedTree_content hf]
  exact ⟨nestedTree_roots, id, hid, hsame ▸ hid'⟩

end Scarab.Storage
