import Scarab.TreePrune

/-!
# Removing paths from a tree

One path at a time: descend to its last component, drop the entry there and mint the chain of
parents anew. A path the tree does not have changes nothing.
-/
namespace Scarab.Storage

open Depot

variable {host : Host}

def componentsOf (path : Text) : List Text := (path.splitOn '/').filter (· ≠ [])

/-- The parents of a change, innermost first, each pointed at the child minted last. -/
def rebuild : List (List TreeEntry × ℕ) → Text → Store host →
    Except StorageError (Text × Store host)
  | [], child, store => .ok (child, store)
  | (parent, idx) :: chain, child, store =>
      match parent[idx]? with
      | some ⟨name, .tree _, mode, mtime⟩ =>
          let minted := putTree (parent.set idx ⟨name, .tree child, mode, mtime⟩) store
          rebuild chain minted.1 minted.2
      | _ => .error .backend

def excludeFrom (root : Text) (store : Store host) :
    List Text → Text → List (List TreeEntry × ℕ) → Except StorageError (Text × Store host)
  | [], _, _ => .ok (root, store)
  | comp :: comps, tree, chain =>
      match treeEntries store tree with
      | .error e => .error e
      | .ok entries =>
          match entries.findIdx? (·.name = comp) with
          | none => .ok (root, store)
          | some idx =>
              if comps = [] then
                rebuild chain (putTree (entries.eraseIdx idx) store).1
                  (putTree (entries.eraseIdx idx) store).2
              else
                match entries[idx]?.map TreeEntry.target with
                | some (.tree sub) => excludeFrom root store comps sub ((entries, idx) :: chain)
                | _ => .ok (root, store)

def excludeOne (root : Text) (store : Store host) (path : Text) :
    Except StorageError (Text × Store host) :=
  if componentsOf path = [] then .ok (root, store)
  else excludeFrom root store (componentsOf path) root []

def excludePaths : List Text → Text → Store host → Except StorageError (Text × Store host)
  | [], root, store => .ok (root, store)
  | path :: paths, root, store =>
      match excludeOne root store path with
      | .error e => .error e
      | .ok (root, store) => excludePaths paths root store

theorem exists_split {entries : List TreeEntry} {comp : Text} {idx : ℕ}
    (h : entries.findIdx? (·.name = comp) = some idx) :
    ∃ before e after, entries = before ++ e :: after ∧ idx = before.length ∧ e.name = comp := by
  obtain ⟨hlt, hname, -⟩ := List.findIdx?_eq_some_iff_getElem.mp h
  refine ⟨entries.take idx, entries[idx], entries.drop (idx + 1), ?_, ?_, by simpa using hname⟩
  · rw [← List.drop_eq_getElem_cons hlt, List.take_append_drop]
  · rw [List.length_take, Nat.min_eq_left hlt.le]

theorem findNamed_eq_none {entries : List TreeEntry} {name : Text} :
    findNamed name entries = none ↔ name ∉ entries.map TreeEntry.name := by
  simp [findNamed]

theorem findNamed_middle (before after : List TreeEntry) (e : TreeEntry) {name : Text}
    (hname : e.name ≠ name) :
    findNamed name (before ++ e :: after) = findNamed name (before ++ after) := by
  rw [findNamed, List.find?_append, List.find?_cons_of_neg (by simpa using hname), findNamed,
    List.find?_append]

/-- The second tree is the first without what is at and below a path. -/
structure Omits (store : Store host) (tree : Text) (comps : List Text) (store' : Store host)
    (tree' : Text) : Prop where
  dropped : ∀ path, comps <+: path → viewAt store' tree' path = none
  others : ∀ path, ¬ comps <+: path → viewAt store' tree' path = viewAt store tree path

section directory

variable {store : Store host} {tree : Text} {before after : List TreeEntry} {e : TreeEntry}
  (read : treeEntries store tree = .ok (before ++ e :: after))
  (names : ((before ++ e :: after).map TreeEntry.name).Nodup)
  (subtrees : ∀ x ∈ before ++ e :: after, ∀ sub, x.target = .tree sub → StoredTree store sub)

include subtrees in
theorem others_subtrees :
    ∀ x ∈ before ++ after, ∀ sub, x.target = .tree sub → StoredTree store sub := by
  intro x hx
  refine subtrees x ?_
  rcases List.mem_append.mp hx with hx | hx
  · exact List.mem_append_left _ hx
  · exact List.mem_append_right _ (List.mem_cons_of_mem _ hx)

include names

theorem name_notMem_others : e.name ∉ (before ++ after).map TreeEntry.name := by
  rw [List.map_append, List.map_cons, List.nodup_middle, List.nodup_cons] at names
  rw [List.map_append]
  exact names.1

theorem others_nodup : ((before ++ after).map TreeEntry.name).Nodup := by
  rw [List.map_append, List.map_cons, List.nodup_middle, List.nodup_cons] at names
  rw [List.map_append]
  exact names.2

include read subtrees

/-- Drop one entry of a directory. -/
theorem omits_erased (hf : Faithful host) :
    StoredTree (putTree (before ++ after) store).2 (putTree (before ++ after) store).1 ∧
      Omits store tree [e.name] (putTree (before ++ after) store).2
        (putTree (before ++ after) store).1 := by
  have hsubs := others_subtrees subtrees
  refine ⟨StoredTree.putTree hf (others_nodup names) hsubs, fun path hpath => ?_,
    fun path hpath => ?_⟩
  · cases path with
    | nil => rfl
    | cons name path =>
      obtain ⟨rfl, -⟩ := List.cons_prefix_cons.mp hpath
      rw [viewAt_putTree hf (others_nodup names) hsubs,
        findNamed_eq_none.mpr (name_notMem_others names)]
      rfl
  · cases path with
    | nil => rfl
    | cons name path =>
      have hname : e.name ≠ name := fun heq =>
        hpath (List.cons_prefix_cons.mpr ⟨heq, List.nil_prefix⟩)
      rw [viewAt_putTree hf (others_nodup names) hsubs, viewAt_cons read,
        findNamed_middle before after e hname]

/-- Point one directory of a directory at a child with less in it. -/
theorem omits_retargeted (hf : Faithful host) {sub child : Text} {store' : Store host}
    (htarget : e.target = .tree sub) {comps : List Text} (hcomps : comps ≠ [])
    (hx : Extends store store') (hchild : StoredTree store' child)
    (homits : Omits store sub comps store' child) {minted : List TreeEntry}
    (hminted : minted = before ++ ⟨e.name, .tree child, e.mode, e.mtimeMs⟩ :: after) :
    Extends store (putTree minted store').2 ∧
      StoredTree (putTree minted store').2 (putTree minted store').1 ∧
      Omits store tree (e.name :: comps) (putTree minted store').2
        (putTree minted store').1 := by
  have hnames : (minted.map TreeEntry.name).Nodup := by
    simpa [hminted] using names
  have hmem : ∀ x ∈ minted, x ∈ before ++ after ∨
      x = ⟨e.name, .tree child, e.mode, e.mtimeMs⟩ := by
    intro x hx
    rw [hminted, List.mem_append, List.mem_cons] at hx
    rw [List.mem_append]
    tauto
  have holds := others_subtrees subtrees
  have hsubs : ∀ x ∈ minted, ∀ s, x.target = .tree s → StoredTree store' s := by
    intro x hx s hs
    rcases hmem x hx with hx | rfl
    · exact (holds x hx s hs).of_extends ‹Extends store store'›
    · obtain rfl := TreeTarget.tree.inj hs
      exact hchild
  have hsub : StoredTree store sub := subtrees e (by simp) sub htarget
  have hhere : findNamed e.name minted = some ⟨e.name, .tree child, e.mode, e.mtimeMs⟩ :=
    have hin : (⟨e.name, .tree child, e.mode, e.mtimeMs⟩ : TreeEntry) ∈ minted := by
      simp [hminted]
    (findNamed_eq_some hnames).mpr hin
  have hthere : findNamed e.name (before ++ e :: after) = some e :=
    (findNamed_eq_some names).mpr (by simp)
  have hother : ∀ name, e.name ≠ name → ∀ path,
      (findNamed name minted).bind (viewFrom store' path) =
        (findNamed name (before ++ e :: after)).bind (viewFrom store path) := by
    intro name hname path
    rw [hminted, findNamed_middle before after ⟨e.name, .tree child, e.mode, e.mtimeMs⟩ hname,
      findNamed_middle before after e hname]
    cases hfind : findNamed name (before ++ after) with
    | none => rfl
    | some x => exact viewFrom_of_extends hx (holds x (findNamed_mem hfind)) path
  refine ⟨hx.trans (extends_putTree hf minted store'), StoredTree.putTree hf hnames hsubs,
    fun path hpath => ?_, fun path hpath => ?_⟩
  · cases path with
    | nil => rfl
    | cons name path =>
      obtain ⟨rfl, hrest⟩ := List.cons_prefix_cons.mp hpath
      have hpath : path ≠ [] := fun hnil => hcomps (by simpa [hnil] using hrest)
      rw [viewAt_putTree hf hnames hsubs, hhere, Option.bind_some, viewFrom_tree rfl hpath,
        homits.dropped path hrest]
  · cases path with
    | nil => rfl
    | cons name path =>
      rw [viewAt_putTree hf hnames hsubs, viewAt_cons read]
      by_cases hname : e.name = name
      · subst hname
        rw [hhere, hthere, Option.bind_some, Option.bind_some]
        by_cases hnil : path = []
        · subst hnil
          simp [viewFrom, entryFrom, viewOf, kindOf, htarget]
        · have hrest : ¬ comps <+: path := fun hpre =>
            hpath (List.cons_prefix_cons.mpr ⟨rfl, hpre⟩)
          rw [viewFrom_tree rfl hnil, homits.others path hrest, viewFrom_tree htarget hnil]
      · exact hother name hname path

end directory

/-- The descent either finds nothing to exclude or goes on to rebuild the parents from a child
without the entry. -/
theorem excludeFrom_cases (hf : Faithful host) (store : Store host) {comps : List Text}
    (hne : comps ≠ []) {tree : Text} (h : StoredTree store tree) :
    (entryAt store tree comps = none ∧
      ∀ root chain, excludeFrom root store comps tree chain = .ok (root, store)) ∨
    ∃ child store', (∀ root chain,
        excludeFrom root store comps tree chain = rebuild chain child store') ∧
      Extends store store' ∧ StoredTree store' child ∧ Omits store tree comps store' child := by
  induction comps generalizing tree with
  | nil => exact absurd rfl hne
  | cons comp comps ih =>
    obtain ⟨read, -, names, subtrees⟩ := h
    rename_i entries
    cases hidx : entries.findIdx? (·.name = comp) with
    | none =>
      left
      have hfind : findNamed comp entries = none := by
        rw [findNamed, List.find?_eq_none]
        intro e he
        simpa using List.findIdx?_eq_none_iff.mp hidx e he
      refine ⟨by rw [entryAt_of_findNamed read, hfind]; rfl, fun root chain => ?_⟩
      simp only [excludeFrom, read, hidx]
    | some idx =>
      obtain ⟨before, e, after, hsplit, rfl, rfl⟩ := exists_split hidx
      subst hsplit
      by_cases hcomps : comps = []
      · right
        subst hcomps
        have hgone := omits_erased read names subtrees hf
        refine ⟨_, _, fun root chain => ?_, extends_putTree hf (before ++ after) store, hgone⟩
        simp only [excludeFrom, read, hidx, ↓reduceIte]
        rw [List.eraseIdx_append_of_length_le le_rfl, Nat.sub_self, List.eraseIdx_cons_zero]
      · have hget : (before ++ e :: after)[before.length]? = some e := by simp
        have hthere : findNamed e.name (before ++ e :: after) = some e :=
          (findNamed_eq_some names).mpr (by simp)
        obtain ⟨next, rest, rfl⟩ := List.exists_cons_of_ne_nil hcomps
        cases htarget : e.target with
        | blob hex =>
          left
          refine ⟨?_, fun root chain => ?_⟩
          · rw [entryAt_of_findNamed read, hthere, Option.bind_some, entryFrom, htarget]
          · simp only [excludeFrom, read, hidx, if_neg hcomps, hget, Option.map_some, htarget]
        | tree sub =>
          have hdescend : ∀ root chain,
              excludeFrom root store (e.name :: next :: rest) tree chain =
                excludeFrom root store (next :: rest) sub
                  ((before ++ e :: after, before.length) :: chain) := by
            intro root chain
            rw [excludeFrom]
            simp only [read, hidx, if_neg hcomps, hget, Option.map_some, htarget]
          rcases ih hcomps (subtrees e (by simp) sub htarget) with
            ⟨hnone, hrun⟩ | ⟨child, store', hrun, hx, hstored, homits⟩
          · left
            refine ⟨?_, fun root chain => by rw [hdescend, hrun]⟩
            rw [entryAt_of_findNamed read, hthere, Option.bind_some, entryFrom_tree htarget, hnone]
          · right
            refine ⟨_, _, fun root chain => ?_,
              omits_retargeted read names subtrees hf htarget hcomps hx hstored homits rfl⟩
            obtain ⟨name, target, mode, mtime⟩ := e
            obtain rfl : target = .tree sub := htarget
            rw [hdescend, hrun]
            simp only [rebuild, hget]
            rw [List.set_append_right _ _ le_rfl, Nat.sub_self, List.set_cons_zero]

theorem Omits.of_absent {store : Store host} {tree : Text} {comps : List Text} (hne : comps ≠ [])
    (h : entryAt store tree comps = none) : Omits store tree comps store tree where
  dropped := fun _ hpre => viewAt_none_of_prefix hne h hpre
  others := fun _ _ => rfl

theorem excludeOne_omits (hf : Faithful host) {store : Store host} {root : Text}
    (h : StoredTree store root) {path : Text} (hne : componentsOf path ≠ []) :
    ∃ root' store', excludeOne root store path = .ok (root', store') ∧ Extends store store' ∧
      StoredTree store' root' ∧ Omits store root (componentsOf path) store' root' := by
  rw [excludeOne, if_neg hne]
  rcases excludeFrom_cases hf store hne h with ⟨hnone, hrun⟩ | ⟨child, store', hrun, hx, hdone⟩
  · exact ⟨root, store, hrun root [], Extends.refl store, h, .of_absent hne hnone⟩
  · exact ⟨child, store', hrun root [], hx, hdone⟩

/-- A path at or below one of the listed entries. -/
def Excluded (paths : List Text) (path : List Text) : Prop :=
  ∃ listed ∈ paths, componentsOf listed ≠ [] ∧ componentsOf listed <+: path

theorem excludePaths_views (hf : Faithful host) (paths : List Text) {store : Store host}
    {root : Text} (h : StoredTree store root) :
    ∃ root' store', excludePaths paths root store = .ok (root', store') ∧ Extends store store' ∧
      StoredTree store' root' ∧
      (∀ path, Excluded paths path → viewAt store' root' path = none) ∧
      ∀ path, ¬ Excluded paths path → viewAt store' root' path = viewAt store root path := by
  induction paths generalizing store root with
  | nil =>
    refine ⟨root, store, rfl, Extends.refl store, h, ?_, fun _ _ => rfl⟩
    rintro path ⟨listed, hlisted, -⟩
    cases hlisted
  | cons first paths ih =>
    by_cases hne : componentsOf first = []
    · obtain ⟨root', store', hrun, hx, hstored, hout, hin⟩ := ih h
      have hsame : ∀ path, Excluded (first :: paths) path ↔ Excluded paths path := by
        intro path
        simp [Excluded, hne]
      refine ⟨root', store', ?_, hx, hstored, ?_, ?_⟩
      · simp only [excludePaths, excludeOne, if_pos hne, hrun]
      · exact fun path hpath => hout path ((hsame path).mp hpath)
      · exact fun path hpath => hin path fun hex => hpath ((hsame path).mpr hex)
    · obtain ⟨root₁, store₁, hfirst, hx₁, hstored₁, homits⟩ := excludeOne_omits hf h hne
      obtain ⟨root', store', hrun, hx, hstored, hout, hin⟩ := ih hstored₁
      refine ⟨root', store', ?_, hx₁.trans hx, hstored, ?_, ?_⟩
      · simp only [excludePaths, hfirst, hrun]
      · rintro path ⟨listed, hlisted, hcomps, hpre⟩
        by_cases hrest : Excluded paths path
        · exact hout path hrest
        · rcases List.mem_cons.mp hlisted with rfl | hlisted
          · rw [hin path hrest, homits.dropped path hpre]
          · exact absurd ⟨listed, hlisted, hcomps, hpre⟩ hrest
      · intro path hpath
        have hrest : ¬ Excluded paths path := by
          rintro ⟨listed, hlisted, hex⟩
          exact hpath ⟨listed, List.mem_cons_of_mem _ hlisted, hex⟩
        have hhere : ¬ componentsOf first <+: path := fun hpre =>
          hpath ⟨first, List.mem_cons_self, hne, hpre⟩
        rw [hin path hrest, homits.others path hhere]

/-- What is neither above nor at nor below a listed entry keeps its very entry, hash and all. -/
theorem entryAt_of_excluded {store store' : Store host} {root root' : Text}
    (h : StoredTree store root) (h' : StoredTree store' root') {paths : List Text}
    (hin : ∀ path, ¬ Excluded paths path → viewAt store' root' path = viewAt store root path)
    {path : List Text}
    (hfree : ∀ listed ∈ paths, componentsOf listed ≠ [] →
      ¬ componentsOf listed <+: path ∧ ¬ path <+: componentsOf listed) :
    entryAt store' root' path = entryAt store root path := by
  refine entryAt_eq_of_views h' h fun path' hpre => hin path' ?_
  rintro ⟨listed, hlisted, hne, hcomps⟩
  obtain ⟨hbelow, habove⟩ := hfree listed hlisted hne
  rcases List.prefix_or_prefix_of_prefix hcomps hpre with hle | hle
  · exact hbelow hle
  · exact habove hle

theorem entryAt_of_selected {store store' : Store host} {root root' : Text}
    (h : StoredTree store root) (h' : StoredTree store' root') {selection : List (List Text)}
    (hview : Restricts store root selection store' root') {q path : List Text}
    (hq : q ∈ selection) (hpre : q <+: path) :
    entryAt store' root' path = entryAt store root path :=
  entryAt_eq_of_views h' h fun path' hpath' =>
    hview.inside path' ⟨q, hq, .inl (hpre.trans hpath')⟩

/-- The declared paths decide what is published, and the excluded ones what is not. -/
theorem selection_exact (hf : Faithful host) {store : Store host} {root : Text}
    (h : StoredTree store root) (paths : List Text) :
    ((∃ done, pruneTree paths root store = .ok done) ↔
      (∀ path ∈ paths, segmentsOf path ≠ none) ∧ Present store root (selectionOf paths)) ∧
    (∀ root' store', pruneTree paths root store = .ok (root', store') →
      Restricts store root (selectionOf paths) store' root' ∧
      (∀ q ∈ selectionOf paths, ∀ path, q <+: path →
        entryAt store' root' path = entryAt store root path) ∧
      (∀ paths', (∀ path ∈ paths', segmentsOf path ≠ none) →
        (∀ q, q ∈ selectionOf paths ↔ q ∈ selectionOf paths') →
        ∃ store'', pruneTree paths' root store = .ok (root', store'')) ∧
      ∃ store'', pruneTree paths root' store' = .ok (root', store'')) ∧
    ∃ root' store', excludePaths paths root store = .ok (root', store') ∧
      (∀ path, Excluded paths path → viewAt store' root' path = none) ∧
      (∀ path, ¬ Excluded paths path → viewAt store' root' path = viewAt store root path) ∧
      (∀ path, (∀ listed ∈ paths, componentsOf listed ≠ [] →
          ¬ componentsOf listed <+: path ∧ ¬ path <+: componentsOf listed) →
        entryAt store' root' path = entryAt store root path) ∧
      ∀ paths', (∀ path, path ∈ paths ↔ path ∈ paths') →
        ∃ store'', excludePaths paths' root store = .ok (root', store'') := by
  refine ⟨pruneTree_ok_iff hf h paths, fun root' store' hrun => ?_, ?_⟩
  · obtain ⟨-, hstored, hview⟩ := pruneTree_ok hf h hrun
    refine ⟨hview, fun q hq path hpre => entryAt_of_selected h hstored hview hq hpre,
      fun paths' hsafe hsame => pruneTree_respelled hf h hrun hsafe hsame, ?_⟩
    exact pruneTree_again hf h hrun
  · obtain ⟨root', store', hrun, -, hstored, hout, hin⟩ := excludePaths_views hf paths h
    refine ⟨root', store', hrun, hout, hin,
      fun path hfree => entryAt_of_excluded h hstored hin hfree, fun paths' hsame => ?_⟩
    obtain ⟨root'', store'', hrun', -, hstored', hout', hin'⟩ := excludePaths_views hf paths' h
    have hexcluded : ∀ path, Excluded paths path ↔ Excluded paths' path := fun path =>
      exists_congr fun listed => and_congr (hsame listed) Iff.rfl
    have hroot : root' = root'' := by
      refine hstored.ext hstored' fun path => ?_
      by_cases hpath : Excluded paths path
      · rw [hout path hpath, hout' path ((hexcluded path).mp hpath)]
      · rw [hin path hpath, hin' path fun hex => hpath ((hexcluded path).mpr hex)]
    exact ⟨store'', hroot ▸ hrun'⟩

instance charEncodable : Encodable Char := Encodable.ofLeftInverse Char.toNat Char.ofNat Char.ofNat_toNat

def targetSum : TreeTarget → Text ⊕ Text
  | .blob hex => .inl hex
  | .tree hex => .inr hex

def sumTarget : Text ⊕ Text → TreeTarget
  | .inl hex => .blob hex
  | .inr hex => .tree hex

instance targetEncodable : Encodable TreeTarget :=
  Encodable.ofLeftInverse targetSum sumTarget fun t => by cases t <;> rfl

instance entryEncodable : Encodable TreeEntry :=
  Encodable.ofLeftInverse (fun e => (e.name, e.target, e.mode, e.mtimeMs))
    (fun t => ⟨t.1, t.2.1, t.2.2.1, t.2.2.2⟩) fun _ => rfl

/-- A host from tables of real encodings and digests, with a code of its own for the rest. -/
def tableHost (jsons : List (List TreeEntry × Bytes)) (digests : List (Bytes × Text)) : Host where
  hashHex bytes :=
    ((digests.find? (·.1 = bytes)).map (·.2)).getD ('x' :: latinText bytes)
  parseTree bytes :=
    if bytes.head? = some 0x78 then Encodable.decode bytes.tail.length
    else (jsons.find? (·.2 = bytes)).map (·.1)
  treeJson entries :=
    ((jsons.find? (·.1 = entries)).map (·.2)).getD
      (0x78 :: List.replicate (Encodable.encode entries) 0)
  footerJson _ := []
  commitJson _ _ _ _ := []

theorem tableHost_faithful {jsons : List (List TreeEntry × Bytes)}
    {digests : List (Bytes × Text)} (hjsons : (jsons.map Prod.snd).Nodup)
    (hhead : ∀ j ∈ jsons, j.2.head? ≠ some 0x78) (hdigests : (digests.map Prod.snd).Nodup)
    (hx : ∀ d ∈ digests, d.2.head? ≠ some 'x') : Faithful (tableHost jsons digests) where
  collisionFree := by
    intro a b hab
    simp only [tableHost] at hab
    cases ha : digests.find? (·.1 = a) with
    | none =>
      cases hb : digests.find? (·.1 = b) with
      | none =>
        rw [ha, hb] at hab
        exact latinText_injective (List.cons.inj hab).2
      | some d =>
        rw [ha, hb] at hab
        have hd : 'x' :: latinText a = d.2 := hab
        exact absurd (by rw [← hd]; rfl) (hx d (List.mem_of_find?_eq_some hb))
    | some d =>
      cases hb : digests.find? (·.1 = b) with
      | none =>
        rw [ha, hb] at hab
        have hd : d.2 = 'x' :: latinText b := hab
        exact absurd (by rw [hd]; rfl) (hx d (List.mem_of_find?_eq_some ha))
      | some d' =>
        rw [ha, hb] at hab
        have hsame : d = d' := List.inj_on_of_nodup_map hdigests (List.mem_of_find?_eq_some ha)
          (List.mem_of_find?_eq_some hb) hab
        have hda : d.1 = a := by simpa using List.find?_some ha
        have hdb : d'.1 = b := by simpa using List.find?_some hb
        rw [← hda, ← hdb, hsame]
  parse_json := by
    intro entries
    simp only [tableHost]
    cases hfind : jsons.find? (·.1 = entries) with
    | none => simp
    | some j =>
      have hmem := List.mem_of_find?_eq_some hfind
      have hj : j.1 = entries := by simpa using List.find?_some hfind
      simp only [Option.map_some, Option.getD_some, if_neg (hhead j hmem)]
      cases hback : jsons.find? (·.2 = j.2) with
      | none => simpa using List.find?_eq_none.mp hback j hmem
      | some j' =>
        have hj' : j'.2 = j.2 := by simpa using List.find?_some hback
        have hsame : j' = j :=
          List.inj_on_of_nodup_map hjsons (List.mem_of_find?_eq_some hback) hmem hj'
        rw [hsame, Option.map_some, hj]

def quoted (t : Text) : Text := '"' :: t ++ ['"']

def jsonField (key value : Text) : Text := quoted key ++ ':' :: value

def jsonObject (fields : List Text) : Text :=
  '\x7b' :: [','].intercalate fields ++ ['\x7d']

/-- A character of a name as JSON writes it, when it is a NUL or needs no escape. -/
def nameChar (c : Char) : Text :=
  if c = '\x00' then Char.ofNat 92 :: ['u', '0', '0', '0', '0'] else [c]

/-- A tree entry as JSON. -/
def entryJson (e : TreeEntry) : Text :=
  let target := match e.target with
    | .blob hash => jsonField ['B', 'l', 'o', 'b'] (quoted hash)
    | .tree hash => jsonField ['T', 'r', 'e', 'e'] (quoted hash)
  jsonObject ([jsonField ['n', 'a', 'm', 'e'] (quoted (e.name.flatMap nameChar)),
      jsonField ['t', 'a', 'r', 'g', 'e', 't'] (jsonObject [target])] ++
    (e.mode.map fun mode => jsonField ['m', 'o', 'd', 'e'] (natText mode)).toList ++
    (e.mtimeMs.map fun ms =>
      jsonField ['m', 't', 'i', 'm', 'e', '_', 'm', 's'] (natText ms.toNat)).toList)

def entriesJson (entries : List TreeEntry) : Bytes :=
  ('[' :: [','].intercalate (entries.map entryJson) ++ [']']).map fun c => UInt8.ofNat c.toNat

/-- The host of these trees and blobs, each with its real digest. -/
def treesHost (trees : List (List TreeEntry × Text)) (blobs : List (Bytes × Text)) : Host :=
  tableHost (trees.map fun t => (t.1, entriesJson t.1))
    (blobs ++ trees.map fun t => (entriesJson t.1, t.2))

/-- `f`, an empty file. -/
def innerEntries : List TreeEntry := [⟨['f'], .blob emptyBlobHex, some 420, some 7⟩]

def innerHex : Text :=
  addressText 0x7248684edf6697199fa9dca4ece4692697040f8b1579b34d0c9cc2a5e76ba1dc

/-- `d`, the directory with that file. -/
def outerEntries : List TreeEntry := [⟨['d'], .tree innerHex, some 493, some 5⟩]

def outerHex : Text :=
  addressText 0xb3d6450b3765aaedcee858c77cb1f412eeee393c6bf445756f063972319736b1

def nestedHost : Host := treesHost [(innerEntries, innerHex), (outerEntries, outerHex)] []

theorem nestedHost_faithful : Faithful nestedHost :=
  tableHost_faithful (by decide +kernel) (by decide +kernel) (by decide +kernel)
    (by decide +kernel)

def emptyStore (host : Host) : Store host := ⟨∅, fun h => by cases h⟩

def nestedStore : Store nestedHost :=
  (putTree outerEntries (putTree innerEntries (emptyStore nestedHost)).2).2

theorem nested_addresses :
    treeHash nestedHost innerEntries = innerHex ∧ treeHash nestedHost outerEntries = outerHex := by
  decide +kernel

theorem nested_stored : StoredTree nestedStore outerHex := by
  have hinner : StoredTree (putTree innerEntries (emptyStore nestedHost)).2
      (putTree innerEntries (emptyStore nestedHost)).1 := by
    refine StoredTree.putTree nestedHost_faithful (by decide) fun e he sub hsub => ?_
    obtain rfl := List.mem_singleton.mp he
    cases hsub
  rw [putTree_fst, nested_addresses.1] at hinner
  have houter : StoredTree nestedStore
      (putTree outerEntries (putTree innerEntries (emptyStore nestedHost)).2).1 := by
    refine StoredTree.putTree nestedHost_faithful (by decide) fun e he sub hsub => ?_
    obtain rfl := List.mem_singleton.mp he
    obtain rfl := TreeTarget.tree.inj hsub
    exact hinner
  rwa [putTree_fst, nested_addresses.2] at houter

theorem selection_exact_nested :
    ∃ done, pruneTree ["d/f".toList, "./d//f/".toList] outerHex nestedStore = .ok done := by
  refine (selection_exact nestedHost_faithful nested_stored _).1.mpr ⟨by decide +kernel, ?_⟩
  have hselection : selectionOf ["d/f".toList, "./d//f/".toList] =
      [[['d'], ['f']], [['d'], ['f']]] := by
    decide +kernel
  rw [hselection]
  rintro q ⟨hq, -⟩
  obtain rfl : q = [['d'], ['f']] := by simpa using hq
  decide +kernel

end Scarab.Storage
