import Scarab.DirectoryScan
import Scarab.WorkspaceRestore

/-!
# A workspace through the store and back

A directory is scanned, its trees and blobs are stored, and the snapshot is materialised
somewhere else. What is there then is the directory again.
-/
namespace Scarab.Storage

open Depot

variable {host : Host} {lossy : Bytes → Text}

/-- A node as it is on disk. -/
def diskOf : Node → Option FsNode
  | .file content mode _ => some (.file content (mode &&& 0o7777))
  | .symlink dest => some (.link dest)
  | .directory mode _ _ => some (.dir (mode &&& 0o7777))
  | .irregular => none

/-- The mtime a snapshot keeps of it. -/
def mtimeOf : Node → Option ℤ
  | .file _ _ modified | .directory _ modified _ => mtimeMs modified
  | .symlink _ | .irregular => none

/-- The workspace holds the directory: every node with its bytes, its mode and its mtime in whole
milliseconds, and nothing else. -/
structure Represents (items : List (Bytes × Node)) (ws : Workspace) : Prop where
  nodes : ∀ path, path ≠ [] → ws.nodes path = (nodeAt items (rawPath path)).bind diskOf
  mtimes : ∀ path node ms, nodeAt items (rawPath path) = some node → mtimeOf node = some ms →
    ws.mtimes path = some ms

/-- Every file and directory has an mtime that a snapshot can keep. -/
def Timed (items : List (Bytes × Node)) : Prop :=
  ∀ path node, nodeAt items path = some node → (∃ dest, node = .symlink dest) ∨ mtimeOf node ≠ none

/-- The bytes the service has for an address, once the blobs of the scan are uploaded. -/
def uploaded (items : List (Bytes × Node)) (scan : Scan) (hash : Text) :
    Except StorageError Bytes :=
  match scan.blobs.get hash with
  | none => .error .notFound
  | some source => readSource items source

theorem masked_not_symlink (mode : ℕ) : isSymlinkMode (some (mode &&& 0o7777)) = false := by
  have hzero : mode &&& 0o7777 &&& 0o170000 = 0 := by
    rw [Nat.and_assoc]
    exact Nat.and_zero mode
  simp only [isSymlinkMode, hzero, modeSymlink]
  rfl

/-- What is restored for an entry is the node it was scanned from. -/
theorem restored_of_view (umask : ℕ) {content : Text → Bytes} {e : TreeEntry} {node : Node}
    (hview : viewOf e = nodeView host node) (hregular : node ≠ .irregular)
    (hcontent : ∀ bytes, blobOf node = some bytes → content (host.hashHex bytes) = bytes) :
    some (restoredNode umask content e) = diskOf node ∧ restoredMtime e = mtimeOf node := by
  obtain ⟨name, target, mode, mtimeMs⟩ := e
  cases node with
  | irregular => exact absurd rfl hregular
  | file bytes bits time =>
    cases target with
    | tree sub => simp [viewOf, nodeView, kindOf] at hview
    | blob hex =>
      simp only [viewOf, nodeView, kindOf, View.mk.injEq, Kind.file.injEq] at hview
      obtain ⟨rfl, rfl, rfl⟩ := hview
      simp [restoredNode, restoredMtime, diskNode, isDirectory, masked_not_symlink,
        hcontent bytes rfl, diskOf, mtimeOf]
  | symlink dest =>
    cases target with
    | tree sub => simp [viewOf, nodeView, kindOf] at hview
    | blob hex =>
      simp only [viewOf, nodeView, kindOf, View.mk.injEq, Kind.file.injEq] at hview
      obtain ⟨rfl, rfl, rfl⟩ := hview
      have hlink : isSymlinkMode (some modeSymlink) = true := rfl
      simp [restoredNode, restoredMtime, diskNode, isDirectory, hlink, hcontent dest rfl, diskOf,
        mtimeOf]
  | directory bits time items =>
    cases target with
    | blob hex => simp [viewOf, nodeView, kindOf] at hview
    | tree sub =>
      simp only [viewOf, nodeView, kindOf, View.mk.injEq, true_and] at hview
      obtain ⟨rfl, rfl⟩ := hview
      simp [restoredNode, restoredMtime, isDirectory, diskOf, mtimeOf]

section standing

variable {store : Store host} {root : Text} {items : List (Bytes × Node)}
  (hs : StandsFor store root items)
include hs

/-- An entry of the tree is there for a node of the directory. -/
theorem StandsFor.node_of_entry {path : List Text} {e : TreeEntry}
    (he : entryAt store root path = some e) :
    ∃ node, nodeAt items (rawPath path) = some node ∧ viewOf e = nodeView host node := by
  have hview := hs.views path
  rw [viewAt, he, Option.map_some] at hview
  obtain ⟨node, hnode, hsame⟩ := Option.map_eq_some_iff.mp hview.symm
  exact ⟨node, hnode, hsame.symm⟩

theorem StandsFor.plain (h : Scannable items) : PlainTree store root where
  stored := hs.stored
  plain := by
    intro path hpath
    obtain ⟨e, he⟩ := Option.ne_none_iff_exists'.mp hpath
    obtain ⟨node, hnode, -⟩ := hs.node_of_entry he
    exact h.clean hnode

theorem StandsFor.entry_none {path : List Text} (hnone : nodeAt items (rawPath path) = none) :
    entryAt store root path = none := by
  cases he : entryAt store root path with
  | none => rfl
  | some e =>
    obtain ⟨node, hnode, -⟩ := hs.node_of_entry he
    rw [hnone] at hnode
    cases hnode

theorem StandsFor.entry_of_node {path : List Text} {node : Node}
    (hnode : nodeAt items (rawPath path) = some node) :
    ∃ e, entryAt store root path = some e ∧ viewOf e = nodeView host node := by
  have hview := hs.views path
  rw [hnode, Option.map_some, viewAt] at hview
  obtain ⟨e, he, hsame⟩ := Option.map_eq_some_iff.mp hview
  exact ⟨e, he, hsame⟩

theorem StandsFor.creatable (h : Scannable items) {listed : List Listed}
    (hl : Lists store root listed) {content : Text → Bytes}
    (hcontent : ∀ path node bytes, nodeAt items path = some node → blobOf node = some bytes →
      content (host.hashHex bytes) = bytes) : Creatable listed content where
  spelled := by
    intro x hx
    obtain ⟨node, hnode, -⟩ := hs.node_of_entry ((hl.mem x).mp hx)
    exact List.all_eq_true.mpr fun name hname => decide_eq_true (h.named hnode name hname).2
  texts := by
    intro x hx hlink
    obtain ⟨hmem, hfile⟩ := mem_filesOf.mp hx
    obtain ⟨node, hnode, hview⟩ := hs.node_of_entry ((hl.mem x).mp hmem)
    have hkind := congrArg View.kind hview
    have hmode : x.2.mode = (nodeView host node).mode := congrArg View.mode hview
    rw [viewOf, isDirectory_blob hfile] at hkind
    cases node with
    | irregular => exact absurd rfl (h.regular hnode)
    | directory mode modified sub => cases hkind
    | file bytes mode modified =>
      rw [hmode, nodeView, masked_not_symlink] at hlink
      cases hlink
    | symlink dest =>
      rw [Kind.file.inj hkind, hcontent _ _ dest hnode rfl]
      exact decide_eq_true (h.linked hnode)

end standing

theorem materialize_represents {umask : ℕ} (humask : OwnerKept umask)
    {items : List (Bytes × Node)} (h : Scannable items) {store : Store host} {root : Text}
    (hs : StandsFor store root items) {getBlob : Text → Except StorageError Bytes}
    (hblobs : ∀ path node bytes, nodeAt items path = some node → blobOf node = some bytes →
      getBlob (host.hashHex bytes) = .ok bytes) (size : Text → ℕ) :
    ∃ manifest, Flattens store size root manifest ∧
      ∀ order, List.Perm order manifest.entries → ∀ ws, Fresh ws →
        ∃ ws', materializeFlat umask getBlob manifest order ws = .ok ws' ∧
          Represents items ws' := by
  obtain ⟨listed, hl, hflat⟩ := flattenTree_lists (hs.plain h) size
  refine ⟨_, hflat, fun order horder ws hfresh => ?_⟩
  let content : Text → Bytes := fun hash => (getBlob hash).toOption.getD []
  have hcontent : ∀ path node bytes, nodeAt items path = some node → blobOf node = some bytes →
      content (host.hashHex bytes) = bytes := by
    intro path node bytes hnode hbytes
    simp only [content, hblobs path node bytes hnode hbytes]
    rfl
  have hfetched : ∀ x ∈ filesOf listed,
      getBlob (targetHex x.2.target) = .ok (content (targetHex x.2.target)) := by
    intro x hx
    obtain ⟨hmem, hfile⟩ := mem_filesOf.mp hx
    obtain ⟨node, hnode, hview⟩ := hs.node_of_entry ((hl.mem x).mp hmem)
    have hkind := congrArg View.kind hview
    rw [viewOf, isDirectory_blob hfile] at hkind
    cases node with
    | irregular => exact absurd rfl (h.regular hnode)
    | directory mode modified sub => cases hkind
    | file bytes mode modified =>
      rw [Kind.file.inj hkind, hblobs _ _ bytes hnode rfl, hcontent _ _ bytes hnode rfl]
    | symlink dest =>
      rw [Kind.file.inj hkind, hblobs _ _ dest hnode rfl, hcontent _ _ dest hnode rfl]
  obtain ⟨ws', hrun, hnodes, hmtimes⟩ :=
    materializeFlat_restores umask (hs.plain h) hl humask size hfetched
      (hs.creatable h hl hcontent) horder hfresh
  refine ⟨ws', hrun, fun path hpath => ?_, fun path node ms hnode hms => ?_⟩
  · rw [hnodes path hpath]
    cases hnode : nodeAt items (rawPath path) with
    | none => rw [hs.entry_none hnode, Option.map_none, Option.bind_none]
    | some node =>
      obtain ⟨e, he, hview⟩ := hs.entry_of_node hnode
      obtain ⟨hdisk, -⟩ := restored_of_view umask hview (h.regular hnode)
        (fun bytes hbytes => hcontent _ node bytes hnode hbytes)
      rw [he, Option.map_some, hdisk, Option.bind_some]
  · obtain ⟨e, he, hview⟩ := hs.entry_of_node hnode
    obtain ⟨-, htime⟩ := restored_of_view umask hview (h.regular hnode)
      (fun bytes hbytes => hcontent _ node bytes hnode hbytes)
    exact hmtimes path e ms he (htime.trans hms)

theorem content_of_disk {node node' : Node} (hregular : node ≠ .irregular)
    (hregular' : node' ≠ .irregular) (h : diskOf node = diskOf node') :
    contentOf (nodeView host node) = contentOf (nodeView host node') := by
  cases node <;> cases node' <;> simp_all [diskOf, nodeView, contentOf]

/-- Two directories that one workspace holds have the same content at every path. -/
theorem Represents.content {items items' : List (Bytes × Node)} {ws : Workspace}
    (hr : Represents items ws) (hr' : Represents items' ws) (h : Scannable items)
    (h' : Scannable items') (path : List Text) :
    ((nodeAt items (rawPath path)).map (nodeView host)).map contentOf =
      ((nodeAt items' (rawPath path)).map (nodeView host)).map contentOf := by
  by_cases hpath : path = []
  · subst hpath
    rfl
  have hdisk := (hr.nodes path hpath).symm.trans (hr'.nodes path hpath)
  cases hnode : nodeAt items (rawPath path) with
  | none =>
    cases hnode' : nodeAt items' (rawPath path) with
    | none => rfl
    | some node' =>
      have hregular := h'.regular hnode'
      rw [hnode, hnode'] at hdisk
      cases node' <;> simp_all [diskOf]
  | some node =>
    cases hnode' : nodeAt items' (rawPath path) with
    | none =>
      have hregular := h.regular hnode
      rw [hnode, hnode'] at hdisk
      cases node <;> simp_all [diskOf]
    | some node' =>
      rw [hnode, hnode', Option.bind_some, Option.bind_some] at hdisk
      exact congrArg some (content_of_disk (h.regular hnode) (h'.regular hnode') hdisk)

theorem view_of_content {node node' : Node} (hregular : node ≠ .irregular)
    (hregular' : node' ≠ .irregular)
    (hcontent : contentOf (nodeView host node) = contentOf (nodeView host node'))
    (htime : mtimeOf node = mtimeOf node') : nodeView host node = nodeView host node' := by
  cases node <;> cases node' <;> simp_all [nodeView, contentOf, mtimeOf, modeSymlink]

/-- Where both mtimes can be read they are the one the workspace has. -/
theorem mtime_of_disk {node node' : Node} (hdisk : diskOf node = diskOf node')
    (hread : (∃ dest, node = .symlink dest) ∨ mtimeOf node ≠ none)
    (hread' : (∃ dest, node' = .symlink dest) ∨ mtimeOf node' ≠ none)
    (hknown : ∀ ms ms', mtimeOf node = some ms → mtimeOf node' = some ms' → ms = ms') :
    mtimeOf node = mtimeOf node' := by
  rcases hread with ⟨dest, rfl⟩ | hms
  · cases node' <;> simp_all [diskOf, mtimeOf]
  · rcases hread' with ⟨dest, rfl⟩ | hms'
    · cases node <;> simp_all [diskOf, mtimeOf]
    · obtain ⟨ms, hms⟩ := Option.ne_none_iff_exists'.mp hms
      obtain ⟨ms', hms'⟩ := Option.ne_none_iff_exists'.mp hms'
      rw [hms, hms', hknown ms ms' hms hms']

/-- Directories with readable mtimes that one workspace holds look alike at every path. -/
theorem Represents.views {items items' : List (Bytes × Node)} {ws : Workspace}
    (hr : Represents items ws) (hr' : Represents items' ws) (h : Scannable items)
    (h' : Scannable items') (ht : Timed items) (ht' : Timed items') (path : List Text) :
    (nodeAt items (rawPath path)).map (nodeView host) =
      (nodeAt items' (rawPath path)).map (nodeView host) := by
  have hcontent : ((nodeAt items (rawPath path)).map (nodeView host)).map contentOf =
      ((nodeAt items' (rawPath path)).map (nodeView host)).map contentOf :=
    hr.content hr' h h' path
  cases hnode : nodeAt items (rawPath path) with
  | none =>
    cases hnode' : nodeAt items' (rawPath path) with
    | none => rfl
    | some node' => simp [hnode, hnode'] at hcontent
  | some node =>
    cases hnode' : nodeAt items' (rawPath path) with
    | none => simp [hnode, hnode'] at hcontent
    | some node' =>
      rw [hnode, hnode'] at hcontent
      have hsame := Option.some.inj hcontent
      refine congrArg some (view_of_content (h.regular hnode) (h'.regular hnode') hsame ?_)
      have hknown : ∀ ms ms', mtimeOf node = some ms → mtimeOf node' = some ms' → ms = ms' :=
        fun ms ms' hms hms' => Option.some.inj
          ((hr.mtimes path node ms hnode hms).symm.trans (hr'.mtimes path node' ms' hnode' hms'))
      have hpath : path ≠ [] := by
        rintro rfl
        cases hnode
      have hdisk := (hr.nodes path hpath).symm.trans (hr'.nodes path hpath)
      rw [hnode, hnode', Option.bind_some, Option.bind_some] at hdisk
      exact mtime_of_disk hdisk (ht _ node hnode) (ht' _ node' hnode') hknown

/-- The identity of a directory belongs to any tree that stands for it. -/
theorem identity_of_scan (hf : Faithful host) {items : List (Bytes × Node)} {root identity : Text}
    {scan : Scan} {mode : ℕ} (hrun : scanDir host lossy [] mode items = .ok ((root, identity), scan))
    {store : Store host} (hstore : store.objects = SortedMap.ofList scan.trees) :
    identityAt store root = identity := by
  obtain ⟨store', hobjects, hid⟩ := scanDir_sound hf hrun
  obtain rfl : store = store' := by
    cases store
    cases store'
    simp_all
  exact identityAt_eq hid

/-- A directory that was stored is there again after materialising its snapshot: every file, link
and sub-directory with its bytes, permission bits and mtime in milliseconds, and nothing else.
Scanning what is there gives the same content identity, and the same root wherever the mtimes can
be kept. -/
theorem workspace_survives (hf : Faithful host) {umask : ℕ} (humask : OwnerKept umask)
    (hlossy : ∀ t, lossy (utf8Bytes t) = t) {items : List (Bytes × Node)} (h : Scannable items)
    {mode : ℕ} (hmode : listable mode items = true) (size : Text → ℕ) : ∃ root identity scan,
      scanDir host lossy [] mode items = .ok ((root, identity), scan) ∧
      (∃ store : Store host, Holds store scan.trees) ∧
      ∀ store : Store host, Holds store scan.trees →
        ∃ manifest, Flattens store size root manifest ∧
          ∀ order, List.Perm order manifest.entries → ∀ ws, Fresh ws →
            ∃ ws', materializeFlat umask (uploaded items scan) manifest order ws = .ok ws' ∧
              Represents items ws' ∧
              ∀ items' mode', Scannable items' → listable mode' items' = true →
                Represents items' ws' →
                ∃ root' scan', scanDir host lossy [] mode' items' = .ok ((root', identity), scan') ∧
                  (Timed items → Timed items' → root' = root) := by
  obtain ⟨root, identity, scan, hrun, haddressed, hstands, hblobs⟩ :=
    scanDir_stores hf hlossy h hmode
  refine ⟨root, identity, scan, hrun, ⟨_, scanStore_holds hf.collisionFree haddressed⟩,
    fun store hstore => ?_⟩
  have hs := hstands store hstore
  have hfetched : ∀ path node bytes, nodeAt items path = some node → blobOf node = some bytes →
      uploaded items scan (host.hashHex bytes) = .ok bytes := by
    intro path node bytes hnode hbytes
    obtain ⟨source, hsource, hread⟩ := hblobs path node bytes hnode hbytes
    rw [uploaded, hsource]
    exact hread
  obtain ⟨manifest, hflat, hall⟩ := materialize_represents humask h hs hfetched size
  refine ⟨manifest, hflat, fun order horder ws hfresh => ?_⟩
  obtain ⟨ws', hmaterialize, hr⟩ := hall order horder ws hfresh
  refine ⟨ws', hmaterialize, hr, fun items' mode' h' hmode' hr' => ?_⟩
  obtain ⟨root', identity', scan', hrun', haddressed', hstands', -⟩ := 
    scanDir_stores hf hlossy h' hmode'
  have hs₀ := hstands _ (scanStore_holds hf.collisionFree haddressed)
  have hs' := hstands' _ (scanStore_holds hf.collisionFree haddressed')
  have hidentity : identity' = identity := by
    have hid : identityAt (scanStore haddressed) root = identity := identity_of_scan hf hrun rfl
    have hid' : identityAt (scanStore haddressed') root' = identity' :=
      identity_of_scan hf hrun' rfl
    rw [← hid, ← hid', eq_comm, identityAt_eq_iff hf hs₀.stored hs'.stored]
    intro path
    rw [contentAt, contentAt, hs₀.views, hs'.views]
    exact hr.content hr' h h' path
  subst hidentity
  refine ⟨root', scan', hrun', fun ht ht' => ?_⟩
  refine (hs₀.stored.ext hs'.stored fun path => ?_).symm
  rw [hs₀.views, hs'.views]
  exact hr.views hr' h h' ht ht' path

def readOnlyItems : List (Bytes × Node) := [(utf8Bytes ['l'], .symlink (utf8Bytes ['f'])),
  (utf8Bytes ['f'], .file [] 0o644 (some 7000500))]

def boxItems : List (Bytes × Node) :=
  [(utf8Bytes ['d'], .directory 0o500 (some 5000000) readOnlyItems)]

def linkHex : Text := addressText 0x252f10c83610ebca1a059c0bae8255eba2f95be4d1d7bcfa89d7248a82d9f111

def readOnlyEntries (mtimeMs : Option ℤ) : List TreeEntry :=
  [⟨['f'], .blob emptyBlobHex, some 420, mtimeMs⟩, ⟨['l'], .blob linkHex, some modeSymlink, none⟩]

def boxEntries (hex : Text) (mtimeMs : Option ℤ) : List TreeEntry :=
  [⟨['d'], .tree hex, some 320, mtimeMs⟩]

def readOnlyHex : Text := addressText 0x31fa72b3065610b4eb9c770958e0aef3a40f595f92bbd34fe502e46287cf947a
def boxHex : Text := addressText 0x00a3dffb9d88ead663f481ecee1615904df9ffea07f28ed6e087880ce134484e

def readOnlyIdentity : Text :=
  addressText 0xc7ceab90f0c8e58675b36e291af0940e87af21be5572b3a1cbfbc0e68d4cfab0

def boxIdentity : Text :=
  addressText 0xc296a5c18285441229ba4788628eeea9a889f3b4398f38770c0e8de5b4b759b7

def boxTrees : List (List TreeEntry × Text) :=
  [(readOnlyEntries (some 7), readOnlyHex), (readOnlyEntries none, readOnlyIdentity),
    (boxEntries readOnlyHex (some 5), boxHex), (boxEntries readOnlyIdentity none, boxIdentity)]

def boxHost : Host :=
  treesHost boxTrees [([], emptyBlobHex), (utf8Bytes ['f'], linkHex)]

theorem boxHost_faithful : Faithful boxHost :=
  tableHost_faithful (by decide +kernel) (by decide +kernel) (by decide +kernel)
    (by decide +kernel)

/-- Bytes as text, with a replacement character for what is not UTF-8. -/
def lossyText (bs : Bytes) : Text := (fromUtf8 bs).getD ['\uFFFD']

theorem lossyText_utf8Bytes (t : Text) : lossyText (utf8Bytes t) = t := by
  rw [lossyText, fromUtf8_utf8Bytes, Option.getD_some]

theorem clean_singleton {name : Text}
    (h : name ≠ [] ∧ name ≠ ['.'] ∧ name ≠ ['.', '.'] ∧ '/' ∉ name) : Clean [name] := by
  intro s hs
  obtain rfl := List.mem_singleton.mp hs
  exact h

theorem readOnlyItems_scannable : Scannable readOnlyItems := by
  refine .mk (by decide) ?_ ?_ ?_ ?_ ?_
  · intro item hitem
    rcases List.mem_cons.mp hitem with rfl | hitem
    · exact ⟨['l'], rfl, clean_singleton (by decide), by decide⟩
    · obtain rfl := List.mem_singleton.mp hitem
      exact ⟨['f'], rfl, clean_singleton (by decide), by decide⟩
  · intro item hitem dest hdest
    rcases List.mem_cons.mp hitem with rfl | hitem
    · obtain rfl := Node.symlink.inj hdest
      decide
    · obtain rfl := List.mem_singleton.mp hitem
      cases hdest
  · intro item hitem
    rcases List.mem_cons.mp hitem with rfl | hitem
    · simp
    · obtain rfl := List.mem_singleton.mp hitem
      simp
  · intro item hitem
    rcases List.mem_cons.mp hitem with rfl | hitem
    · trivial
    · obtain rfl := List.mem_singleton.mp hitem
      exact (by decide : ownerHas 0o644 0o400 = true)
  · intro item hitem mode modified sub hsub
    rcases List.mem_cons.mp hitem with rfl | hitem
    · cases hsub
    · obtain rfl := List.mem_singleton.mp hitem
      cases hsub

theorem boxItems_scannable : Scannable boxItems := by
  refine .mk (by decide) ?_ ?_ ?_ ?_ ?_
  · intro item hitem
    obtain rfl := List.mem_singleton.mp hitem
    exact ⟨['d'], rfl, clean_singleton (by decide), by decide⟩
  · intro item hitem dest hdest
    obtain rfl := List.mem_singleton.mp hitem
    cases hdest
  · intro item hitem
    obtain rfl := List.mem_singleton.mp hitem
    simp
  · intro item hitem
    obtain rfl := List.mem_singleton.mp hitem
    exact (by decide : listable 0o500 readOnlyItems = true)
  · intro item hitem mode modified sub hsub
    obtain rfl := List.mem_singleton.mp hitem
    cases hsub
    exact readOnlyItems_scannable

theorem workspace_survives_box : ∃ scan manifest ws',
    scanDir boxHost lossyText [] 0o755 boxItems = .ok ((boxHex, boxIdentity), scan) ∧
      materializeFlat 0o22 (uploaded boxItems scan) manifest manifest.entries newWorkspace =
        .ok ws' ∧
      ws'.nodes [['d']] = some (.dir 0o500) ∧
      ws'.nodes [['d'], ['l']] = some (.link (utf8Bytes ['f'])) ∧
      ws'.mtimes [['d'], ['f']] = some 7 := by
  have humask : OwnerKept 0o22 := by
    show ownerHas (Nat.ldiff 0o777 0o22) 0o700 = true
    decide +kernel
  have hmode : listable 0o755 boxItems = true := by decide
  obtain ⟨root, identity, scan, hrun, ⟨store, hstore⟩, hall⟩ := workspace_survives
    boxHost_faithful humask lossyText_utf8Bytes boxItems_scannable hmode fun _ => 0
  obtain ⟨manifest, -, hmanifest⟩ := hall store hstore
  obtain ⟨ws', hmaterialize, hr, -⟩ :=
    hmanifest _ (List.Perm.refl _) newWorkspace newWorkspace_fresh
  have haddress : (scanDir boxHost lossyText [] 0o755 boxItems).toOption.map Prod.fst =
      some (boxHex, boxIdentity) := by decide +kernel
  rw [hrun] at haddress
  obtain ⟨rfl, rfl⟩ := Prod.mk.inj (Option.some.inj haddress)
  refine ⟨scan, manifest, ws', hrun, hmaterialize, ?_, ?_, ?_⟩
  · exact hr.nodes [['d']] (by simp)
  · exact hr.nodes [['d'], ['l']] (by simp)
  · exact hr.mtimes [['d'], ['f']] (.file [] 0o644 (some 7000500)) 7 rfl (by decide)

end Scarab.Storage
