import Scarab.TreePrune

/-!
# The content identity of a tree

The hash of a tree moves with the mtimes of its files. Its identity is the same fold with the
mtimes dropped and each sub-tree named by its own identity, so it moves with nothing else.
-/
namespace Scarab.Storage

open Depot

variable {host : Host}

def dropMtime (e : TreeEntry) : TreeEntry := ⟨e.name, e.target, e.mode, none⟩

/-- The identity of one level whose sub-trees are named by theirs. -/
def contentIdentityOf (host : Host) (entries : List TreeEntry) : Text :=
  treeHash host (entries.map dropMtime)

def resolveAll (identity : Text → Except StorageError Text) :
    List TreeEntry → Except StorageError (List TreeEntry)
  | [] => .ok []
  | entry :: entries =>
      match entry.target with
      | .blob _ =>
          match resolveAll identity entries with
          | .error x => .error x
          | .ok resolved => .ok (entry :: resolved)
      | .tree sub =>
          match identity sub with
          | .error x => .error x
          | .ok id =>
              match resolveAll identity entries with
              | .error x => .error x
              | .ok resolved =>
                  .ok (⟨entry.name, .tree id, entry.mode, entry.mtimeMs⟩ :: resolved)

def contentIdentity (store : Store host) : ℕ → Text → Except StorageError Text
  | 0, _ => .error .exhausted
  | fuel + 1, root =>
      match treeEntries store root with
      | .error x => .error x
      | .ok entries =>
          match resolveAll (contentIdentity store fuel) entries with
          | .error x => .error x
          | .ok resolved => .ok (contentIdentityOf host resolved)

/-- The fold ends in `id`, however much fuel is left. -/
def HasIdentity (store : Store host) (root id : Text) : Prop :=
  ∃ least, ∀ fuel, least ≤ fuel → contentIdentity store fuel root = .ok id

open Classical in
/-- The identity of a tree that has one. -/
noncomputable def identityAt (store : Store host) (root : Text) : Text :=
  if h : ∃ id, HasIdentity store root id then h.choose else []

noncomputable def resolve (store : Store host) (e : TreeEntry) : TreeEntry :=
  match e.target with
  | .blob _ => e
  | .tree sub => ⟨e.name, .tree (identityAt store sub), e.mode, e.mtimeMs⟩

theorem HasIdentity.unique {store : Store host} {root id id' : Text}
    (h : HasIdentity store root id) (h' : HasIdentity store root id') : id = id' := by
  obtain ⟨n, hn⟩ := h
  obtain ⟨n', hn'⟩ := h'
  have hboth := (hn (max n n') (le_max_left n n')).symm.trans (hn' (max n n') (le_max_right n n'))
  exact Except.ok.inj hboth

theorem identityAt_eq {store : Store host} {root id : Text} (h : HasIdentity store root id) :
    identityAt store root = id := by
  have hex : ∃ id, HasIdentity store root id := ⟨id, h⟩
  rw [identityAt, dif_pos hex]
  exact hex.choose_spec.unique h

theorem resolve_name (store : Store host) (e : TreeEntry) : (resolve store e).name = e.name := by
  unfold resolve
  split <;> rfl

/-- Every sub-tree an entry leads to has an identity. -/
def Identified (store : Store host) (e : TreeEntry) : Prop :=
  ∀ sub, e.target = .tree sub → ∃ id, HasIdentity store sub id

theorem resolveAll_eq {store : Store host} {entries : List TreeEntry}
    (h : ∀ e ∈ entries, Identified store e) :
    ∃ least, ∀ fuel, least ≤ fuel →
      resolveAll (contentIdentity store fuel) entries = .ok (entries.map (resolve store)) := by
  induction entries with
  | nil => exact ⟨0, fun _ _ => rfl⟩
  | cons e entries ih =>
    obtain ⟨n, hn⟩ := ih fun x hx => h x (List.mem_cons_of_mem _ hx)
    cases htarget : e.target with
    | blob hex =>
      refine ⟨n, fun fuel hfuel => ?_⟩
      simp only [resolveAll, htarget, hn fuel hfuel, List.map_cons, resolve]
    | tree sub =>
      obtain ⟨id, hid⟩ := h e List.mem_cons_self sub htarget
      have hat : identityAt store sub = id := identityAt_eq hid
      obtain ⟨m, hm⟩ := hid
      refine ⟨max n m, fun fuel hfuel => ?_⟩
      simp only [resolveAll, htarget, hm fuel ((le_max_right n m).trans hfuel),
        hn fuel ((le_max_left n m).trans hfuel), List.map_cons, resolve, hat]

theorem hasIdentity_of_read {store : Store host} {root : Text} {entries : List TreeEntry}
    (read : treeEntries store root = .ok entries) (h : ∀ e ∈ entries, Identified store e) :
    HasIdentity store root (contentIdentityOf host (entries.map (resolve store))) := by
  obtain ⟨n, hn⟩ := resolveAll_eq h
  refine ⟨n + 1, fun fuel hfuel => ?_⟩
  obtain ⟨fuel, rfl⟩ : ∃ k, fuel = k + 1 := ⟨fuel - 1, by omega⟩
  simp only [contentIdentity, read, hn fuel (by omega)]

/-- A stored tree is walked to its end. -/
theorem StoredTree.hasIdentity {store : Store host} {root : Text} (h : StoredTree store root) :
    HasIdentity store root (identityAt store root) := by
  have hex : ∃ id, HasIdentity store root id := by
    induction h with
    | mk read _ _ _ ih =>
      exact ⟨_, hasIdentity_of_read read fun e he sub hsub => ih e he sub hsub⟩
  obtain ⟨id, hid⟩ := hex
  rwa [identityAt_eq hid]

theorem StoredTree.identified {store : Store host} {entries : List TreeEntry}
    (subtrees : ∀ e ∈ entries, ∀ sub, e.target = .tree sub → StoredTree store sub) :
    ∀ e ∈ entries, Identified store e :=
  fun e he sub hsub => ⟨_, (subtrees e he sub hsub).hasIdentity⟩

/-- An entry of a level as its identity sees it. -/
noncomputable def identityEntry (store : Store host) (e : TreeEntry) : TreeEntry :=
  dropMtime (resolve store e)

theorem identityEntry_name (store : Store host) (e : TreeEntry) :
    (identityEntry store e).name = e.name := resolve_name store e

theorem identityAt_of_read {store : Store host} {root : Text} {entries : List TreeEntry}
    (read : treeEntries store root = .ok entries) (h : ∀ e ∈ entries, Identified store e) :
    identityAt store root = treeHash host (entries.map (identityEntry store)) := by
  rw [identityAt_eq (hasIdentity_of_read read h), contentIdentityOf, List.map_map]
  rfl

theorem names_identityEntry (store : Store host) (entries : List TreeEntry) :
    (entries.map (identityEntry store)).map TreeEntry.name = entries.map TreeEntry.name := by
  rw [List.map_map]
  exact List.map_congr_left fun e _ => identityEntry_name store e

/-- The address of a list of entries determines the list up to order. -/
theorem perm_of_treeHash_eq (hf : Faithful host) {entries entries' : List TreeEntry}
    (h : treeHash host entries = treeHash host entries') : entries.Perm entries' := by
  have hbytes := hf.collisionFree h
  rw [canonicalTreeBytes_eq, canonicalTreeBytes_eq] at hbytes
  have hsorted : sortByName entries = sortByName entries' := by
    have hparse := congrArg host.parseTree hbytes
    rw [hf.parse_json, hf.parse_json] at hparse
    exact Option.some.inj hparse
  calc entries.Perm (sortByName entries) := (sortByName_perm entries).symm
    _ = sortByName entries' := hsorted
    List.Perm _ entries' := sortByName_perm entries'

/-- What a path leads to, whatever its mtime. -/
def contentOf (view : View) : Kind × Option ℕ := (view.kind, view.mode)

def contentAt (store : Store host) (root : Text) (path : List Text) : Option (Kind × Option ℕ) :=
  (viewAt store root path).map contentOf

def contentFrom (store : Store host) (path : List Text) (e : TreeEntry) :
    Option (Kind × Option ℕ) :=
  (viewFrom store path e).map contentOf

theorem contentAt_cons {store : Store host} {root : Text} {entries : List TreeEntry}
    (read : treeEntries store root = .ok entries) (name : Text) (path : List Text) :
    contentAt store root (name :: path) = (findNamed name entries).bind (contentFrom store path) := by
  rw [contentAt, viewAt_cons read]
  cases findNamed name entries <;> rfl

theorem contentFrom_tree {store : Store host} {e : TreeEntry} {sub : Text}
    (h : e.target = .tree sub) (name : Text) (path : List Text) :
    contentFrom store (name :: path) e = contentAt store sub (name :: path) := by
  rw [contentFrom, viewFrom_tree h (List.cons_ne_nil name path), contentAt]

theorem contentFrom_nil (store : Store host) (e : TreeEntry) :
    contentFrom store [] e = some (kindOf e.target, e.mode) := rfl

theorem contentFrom_blob {store : Store host} {e : TreeEntry} {hex : Text}
    (h : e.target = .blob hex) (name : Text) (path : List Text) :
    contentFrom store (name :: path) e = none := by
  rw [contentFrom, viewFrom, entryFrom, h]
  rfl

section entries

variable {store store' : Store host} {e e' : TreeEntry} (hname : e.name = e'.name)
include hname

/-- Two entries count the same exactly when all that is at and below them looks the same up to
mtimes, provided this holds one level down. -/
theorem identityEntry_eq_iff
    (hsub : ∀ sub sub', e.target = .tree sub → e'.target = .tree sub' →
      (identityAt store sub = identityAt store' sub' ↔
        ∀ path, contentAt store sub path = contentAt store' sub' path)) :
    identityEntry store e = identityEntry store' e' ↔
      ∀ path, contentFrom store path e = contentFrom store' path e' := by
  obtain ⟨name, target, mode, mtime⟩ := e
  obtain ⟨name', target', mode', mtime'⟩ := e'
  obtain rfl : name = name' := hname
  cases target with
  | blob hex =>
    cases target' with
    | blob hex' =>
      constructor
      · intro h path
        simp only [identityEntry, resolve, dropMtime, TreeEntry.mk.injEq, true_and] at h
        obtain ⟨hhex, rfl, -⟩ := h
        obtain rfl := TreeTarget.blob.inj hhex
        cases path with
        | nil => rfl
        | cons next rest => rw [contentFrom_blob rfl, contentFrom_blob rfl]
      · intro h
        have hhere := h []
        simp only [contentFrom_nil, kindOf, Option.some.injEq, Prod.mk.injEq,
          Kind.file.injEq] at hhere
        obtain ⟨rfl, rfl⟩ := hhere
        rfl
    | tree sub' =>
      constructor
      · intro h
        simp [identityEntry, resolve, dropMtime] at h
      · intro h
        simpa [contentFrom_nil, kindOf] using h []
  | tree sub =>
    cases target' with
    | blob hex' =>
      constructor
      · intro h
        simp [identityEntry, resolve, dropMtime] at h
      · intro h
        simpa [contentFrom_nil, kindOf] using h []
    | tree sub' =>
      have hboth := hsub sub sub' rfl rfl
      constructor
      · intro h path
        simp only [identityEntry, resolve, dropMtime, TreeEntry.mk.injEq, true_and] at h
        obtain ⟨hid, rfl, -⟩ := h
        cases path with
        | nil => rfl
        | cons next rest =>
          rw [contentFrom_tree rfl, contentFrom_tree rfl, hboth.mp (TreeTarget.tree.inj hid)]
      · intro h
        have hhere := h []
        simp only [contentFrom_nil, kindOf, Option.some.injEq, Prod.mk.injEq, true_and] at hhere
        subst hhere
        have hid : identityAt store sub = identityAt store' sub' := by
          refine hboth.mpr fun path => ?_
          cases path with
          | nil => rfl
          | cons next rest =>
            have hnext := h (next :: rest)
            rwa [contentFrom_tree rfl, contentFrom_tree rfl] at hnext
        simp only [identityEntry, resolve, dropMtime, hid]

end entries

/-- The identities of two stored trees agree exactly when the trees agree at every path in kind,
blob and mode. -/
theorem identityAt_eq_iff (hf : Faithful host) {store : Store host} {root : Text}
    (h : StoredTree store root) : ∀ {store' : Store host} {root' : Text},
      StoredTree store' root' → (identityAt store root = identityAt store' root' ↔
        ∀ path, contentAt store root path = contentAt store' root' path) := by
  induction h with
  | @mk root entries read address names subtrees ih =>
    intro store' root' h'
    obtain ⟨read', -, names', subtrees'⟩ := h'
    rename_i entries'
    have hat : ∀ name,
        (findNamed name entries).map (identityEntry store) =
            (findNamed name entries').map (identityEntry store') ↔
          ∀ path, contentAt store root (name :: path) = contentAt store' root' (name :: path) := by
      intro name
      simp only [contentAt_cons read, contentAt_cons read']
      cases he : findNamed name entries with
      | none =>
        cases he' : findNamed name entries' with
        | none => simp
        | some e' =>
          refine ⟨fun hmap => by simp at hmap, fun hpath => ?_⟩
          simpa [contentFrom_nil] using hpath []
      | some e =>
        cases he' : findNamed name entries' with
        | none =>
          refine ⟨fun hmap => by simp at hmap, fun hpath => ?_⟩
          simpa [contentFrom_nil] using hpath []
        | some e' =>
          have hname : e.name = e'.name := (findNamed_name he).trans (findNamed_name he').symm
          simp only [Option.map_some, Option.some.injEq, Option.bind_some]
          refine identityEntry_eq_iff hname fun sub sub' hsub hsub' => ?_
          exact ih e (findNamed_mem he) sub hsub (subtrees' e' (findNamed_mem he') sub' hsub')
    rw [identityAt_of_read read (StoredTree.identified subtrees),
      identityAt_of_read read' (StoredTree.identified subtrees')]
    have hnodup : ((entries.map (identityEntry store)).map TreeEntry.name).Nodup := by
      rwa [names_identityEntry]
    have hnodup' : ((entries'.map (identityEntry store')).map TreeEntry.name).Nodup := by
      rwa [names_identityEntry]
    constructor
    · intro hhash path
      cases path with
      | nil => rfl
      | cons name path =>
        refine (hat name).mp ?_ path
        rw [← findNamed_map (identityEntry_name store), ← findNamed_map (identityEntry_name store')]
        exact findNamed_perm (perm_of_treeHash_eq hf hhash) hnodup name
    · intro hviews
      refine treeHash_eq_of_perm (perm_of_findNamed_eq hnodup hnodup' fun name => ?_) hnodup
      rw [findNamed_map (identityEntry_name store), findNamed_map (identityEntry_name store')]
      exact (hat name).mpr fun path => hviews (name :: path)

theorem present_of_content {store store' : Store host} {root root' : Text}
    (hsame : ∀ path, contentAt store root path = contentAt store' root' path)
    (selection : List (List Text)) :
    Present store root selection ↔ Present store' root' selection := by
  have hnone : ∀ path, entryAt store root path = none ↔ entryAt store' root' path = none := by
    intro path
    have hpath := hsame path
    rw [contentAt, contentAt] at hpath
    rw [entryAt_none_iff, entryAt_none_iff, ← Option.map_eq_none_iff (f := contentOf), hpath,
      Option.map_eq_none_iff]
  exact forall₂_congr fun q _ => not_congr (hnone q)

theorem Restricts.content_eq {store₁ store₂ store₁' store₂' : Store host}
    {root₁ root₂ root₁' root₂' : Text} {selection : List (List Text)}
    (h₁ : Restricts store₁ root₁ selection store₁' root₁')
    (h₂ : Restricts store₂ root₂ selection store₂' root₂')
    (hsame : ∀ path, contentAt store₁ root₁ path = contentAt store₂ root₂ path)
    (path : List Text) : contentAt store₁' root₁' path = contentAt store₂' root₂' path := by
  by_cases hpath : Selected selection path
  · have hboth := hsame path
    rw [contentAt, contentAt] at hboth ⊢
    rw [h₁.inside path hpath, h₂.inside path hpath, hboth]
  · rw [contentAt, contentAt, h₁.outside path hpath, h₂.outside path hpath]

/-- Pruning by the same paths keeps equal contents equal, or fails on both. -/
theorem pruneTree_content (hf : Faithful host) {store store' : Store host} {root root' : Text}
    (h : StoredTree store root) (h' : StoredTree store' root')
    (hsame : ∀ path, contentAt store root path = contentAt store' root' path)
    (paths : List Text) :
    ((∃ e, pruneTree paths root store = .error e) ∧
      ∃ e, pruneTree paths root' store' = .error e) ∨
    ∃ pruned pruned' kept kept', pruneTree paths root store = .ok (pruned, kept) ∧
      pruneTree paths root' store' = .ok (pruned', kept') ∧
      StoredTree kept pruned ∧ StoredTree kept' pruned' ∧
      identityAt kept pruned = identityAt kept' pruned' := by
  have hok : (∃ done, pruneTree paths root store = .ok done) ↔
      ∃ done, pruneTree paths root' store' = .ok done := by
    rw [pruneTree_ok_iff hf h, pruneTree_ok_iff hf h', present_of_content hsame]
  cases hrun : pruneTree paths root store with
  | error e =>
    cases hrun' : pruneTree paths root' store' with
    | error e' => exact .inl ⟨⟨e, rfl⟩, e', rfl⟩
    | ok done' =>
      obtain ⟨done, hdone⟩ := hok.mpr ⟨done', hrun'⟩
      rw [hrun] at hdone
      cases hdone
  | ok done =>
    cases hrun' : pruneTree paths root' store' with
    | error e' =>
      obtain ⟨done', hdone⟩ := hok.mp ⟨done, hrun⟩
      rw [hrun'] at hdone
      cases hdone
    | ok done' =>
      obtain ⟨pruned, kept⟩ := done
      obtain ⟨pruned', kept'⟩ := done'
      obtain ⟨-, hstored, hview⟩ := pruneTree_ok hf h hrun
      obtain ⟨-, hstored', hview'⟩ := pruneTree_ok hf h' hrun'
      refine .inr ⟨pruned, pruned', kept, kept', rfl, rfl, hstored, hstored', ?_⟩
      exact (identityAt_eq_iff hf hstored hstored').mpr (hview.content_eq hview' hsame)

end Scarab.Storage
