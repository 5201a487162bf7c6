import Scarab.TreePrune

/-!
# The manifest of a stored tree

Flattening lists every entry of a tree once, under its path, and nothing below an entry before
the entry.
-/
namespace Scarab.Storage

open Depot

variable {host : Host}

/-- A stored tree all of whose names are single path segments. -/
structure PlainTree (store : Store host) (root : Text) : Prop where
  stored : StoredTree store root
  plain : ∀ path, entryAt store root path ≠ none → Clean path

/-- The manifest the service answers for a root, its sizes as it measures them. -/
def flattenTree (store : Store host) (size : Text → ℕ) (rounds : ℕ) (root : Text) :
    Except StorageError FlatManifest :=
  flatten (treeEntries store) (fun hex => .ok (size hex)) (.error .exhausted) rounds root

/-- An entry with its path. -/
abbrev Listed := List Text × TreeEntry

def isDirectory (e : TreeEntry) : Bool :=
  match e.target with
  | .blob _ => false
  | .tree _ => true

def targetHex : TreeTarget → Text
  | .blob hex => hex
  | .tree hex => hex

def level (path : List Text) (entries : List TreeEntry) : List Listed :=
  entries.map fun e => (path ++ [e.name], e)

def dirsOf (listed : List Listed) : List Listed := listed.filter fun x => isDirectory x.2

def filesOf (listed : List Listed) : List Listed := listed.filter fun x => !isDirectory x.2

/-- The sub-trees of a list of entries, each with its path. -/
def subtreesOf (listed : List Listed) : List (Text × List Text) :=
  (dirsOf listed).map fun x => (targetHex x.2.target, x.1)

def flatDirOf (x : Listed) : FlatDir := ⟨joinSlash x.1, x.2.mode, x.2.mtimeMs⟩

def flatEntryOf (size : Text → ℕ) (x : Listed) : FlatEntry :=
  ⟨joinSlash x.1, targetHex x.2.target, size (targetHex x.2.target), x.2.mode, x.2.mtimeMs⟩

def manifestOf (size : Text → ℕ) (root : Text) (listed : List Listed) : FlatManifest :=
  ⟨root, (filesOf listed).map (flatEntryOf size), (dirsOf listed).map flatDirOf⟩

/-- The same walk over paths kept apart. -/
def walkFrom (store : Store host) : ℕ → List (Text × List Text) → Option (List Listed)
  | _, [] => some []
  | 0, _ :: _ => none
  | rounds + 1, (tree, path) :: queue =>
      let here := level path (sortByName (childrenOf store tree))
      (walkFrom store rounds (queue ++ subtreesOf here)).map (here ++ ·)

theorem joinSlash_cons_cons (first next : Text) (rest : List Text) :
    joinSlash (first :: next :: rest) = first ++ '/' :: joinSlash (next :: rest) := by
  rw [joinSlash, List.intercalate_cons_cons, joinSlash]
  simp

theorem joinSlash_snoc (first : Text) (rest : List Text) (name : Text) :
    joinSlash (first :: rest ++ [name]) = joinSlash (first :: rest) ++ '/' :: name := by
  induction rest generalizing first with
  | nil =>
    rw [List.singleton_append, joinSlash_cons_cons]
    simp [joinSlash]
  | cons next rest ih =>
    have hnext := ih next
    rw [List.cons_append] at hnext
    rw [List.cons_append, List.cons_append, joinSlash_cons_cons, hnext, joinSlash_cons_cons]
    simp

theorem childPath_joinSlash {path : List Text} (hclean : Clean path) (name : Text) :
    childPath (joinSlash path) name = joinSlash (path ++ [name]) := by
  cases path with
  | nil => simp [childPath, joinSlash]
  | cons first rest =>
    have hfirst : first ≠ [] := (hclean first List.mem_cons_self).1
    have hne : joinSlash (first :: rest) ≠ [] := by
      cases rest with
      | nil => simpa [joinSlash] using hfirst
      | cons next more => simp [joinSlash_cons_cons]
    rw [childPath, if_neg hne, joinSlash_snoc]

theorem joinSlash_injective {path path' : List Text} (hclean : Clean path)
    (hclean' : Clean path') (hne : path ≠ []) (hne' : path' ≠ [])
    (h : joinSlash path = joinSlash path') : path = path' := by
  have hsegs := segmentsOf_joinSlash hclean hne
  rw [h, segmentsOf_joinSlash hclean' hne'] at hsegs
  exact (Option.some.inj hsegs).symm

theorem mem_dirsOf {x : Listed} {listed : List Listed} :
    x ∈ dirsOf listed ↔ x ∈ listed ∧ isDirectory x.2 = true := List.mem_filter

theorem mem_filesOf {x : Listed} {listed : List Listed} :
    x ∈ filesOf listed ↔ x ∈ listed ∧ isDirectory x.2 = false := by
  simp [filesOf]

theorem isDirectory_tree {e : TreeEntry} (h : isDirectory e = true) :
    e.target = .tree (targetHex e.target) := by
  unfold isDirectory at h
  cases htarget : e.target with
  | blob hex => simp [htarget] at h
  | tree hex => rfl

theorem isDirectory_blob {e : TreeEntry} (h : isDirectory e = false) :
    e.target = .blob (targetHex e.target) := by
  unfold isDirectory at h
  cases htarget : e.target with
  | blob hex => rfl
  | tree hex => simp [htarget] at h

/-- The queue of the service for a queue of paths. -/
def spelledQueue (queue : List (Text × List Text)) : List (Text × Text) :=
  queue.map fun item => (item.1, joinSlash item.2)

theorem foldlM_flattenEntry (size : Text → ℕ) {path : List Text} (hclean : Clean path)
    (entries : List TreeEntry) (manifest : FlatManifest) (queue : List (Text × Text)) :
    entries.foldlM (flattenEntry (fun hex => .ok (size hex)) (joinSlash path)) (manifest, queue) =
      (.ok ({ manifest with
          entries := manifest.entries ++ (filesOf (level path entries)).map (flatEntryOf size)
          dirs := manifest.dirs ++ (dirsOf (level path entries)).map flatDirOf },
        queue ++ spelledQueue (subtreesOf (level path entries))) :
          Except StorageError (FlatManifest × List (Text × Text))) := by
  induction entries generalizing manifest queue with
  | nil => simp [level, filesOf, dirsOf, subtreesOf, spelledQueue, pure, Except.pure]
  | cons e entries ih =>
    rw [List.foldlM_cons]
    cases htarget : e.target with
    | blob hex =>
      have hdir : isDirectory e = false := by rw [isDirectory, htarget]
      simp only [flattenEntry, htarget, bind, Except.bind, pure, Except.pure, ih,
        childPath_joinSlash hclean]
      simp [level, filesOf, dirsOf, subtreesOf, hdir, flatEntryOf, htarget, targetHex]
    | tree hex =>
      have hdir : isDirectory e = true := by rw [isDirectory, htarget]
      simp only [flattenEntry, htarget, bind, Except.bind, pure, Except.pure, ih,
        childPath_joinSlash hclean]
      simp [level, filesOf, dirsOf, subtreesOf, hdir, flatDirOf, htarget, targetHex, spelledQueue]

/-- An item of the queue of a walk. -/
structure Ready (store : Store host) (item : Text × List Text) : Prop where
  tree : PlainTree store item.1
  clean : Clean item.2

theorem Clean.append {path path' : List Text} (h : Clean path) (h' : Clean path') :
    Clean (path ++ path') := fun s hs => (List.mem_append.mp hs).elim (h s) (h' s)

section level

variable {store : Store host} {tree : Text} {entries : List TreeEntry}
  (read : treeEntries store tree = .ok entries) (names : (entries.map TreeEntry.name).Nodup)
include read names

theorem entryAt_of_mem {e : TreeEntry} (he : e ∈ entries) (path : List Text) :
    entryAt store tree (e.name :: path) = entryFrom store path e := by
  rw [entryAt_of_findNamed read, (findNamed_eq_some names).mpr he, Option.bind_some]

theorem PlainTree.name (h : PlainTree store tree) {e : TreeEntry} (he : e ∈ entries) :
    Clean [e.name] := by
  refine h.plain [e.name] ?_
  rw [entryAt_of_mem read names he]
  exact Option.some_ne_none _

theorem PlainTree.sub (h : PlainTree store tree) {e : TreeEntry} (he : e ∈ entries) {sub : Text}
    (htarget : e.target = .tree sub) : PlainTree store sub := by
  refine ⟨?_, fun path hpath => ?_⟩
  · obtain ⟨read', -, -, subtrees⟩ := h.stored
    obtain rfl := Except.ok.inj (read.symm.trans read')
    exact subtrees e he sub htarget
  · cases path with
    | nil => exact absurd rfl hpath
    | cons name rest =>
      have hclean : Clean (e.name :: name :: rest) := by
        refine h.plain _ ?_
        rwa [entryAt_of_mem read names he, entryFrom_tree htarget]
      exact fun s hs => hclean s (List.mem_cons_of_mem _ hs)

end level

theorem mem_level {path : List Text} {entries : List TreeEntry} {x : Listed} :
    x ∈ level path entries ↔ x.2 ∈ entries ∧ x.1 = path ++ [x.2.name] := by
  obtain ⟨p, e⟩ := x
  simp only [level, List.mem_map, Prod.mk.injEq]
  constructor
  · rintro ⟨e', he', rfl, rfl⟩
    exact ⟨he', rfl⟩
  · rintro ⟨he, rfl⟩
    exact ⟨e, he, rfl, rfl⟩

theorem mem_subtreesOf {listed : List Listed} {item : Text × List Text} :
    item ∈ subtreesOf listed ↔ ∃ e, (item.2, e) ∈ listed ∧ e.target = .tree item.1 := by
  obtain ⟨sub, path⟩ := item
  simp only [subtreesOf, List.mem_map, mem_dirsOf, Prod.mk.injEq]
  constructor
  · rintro ⟨x, ⟨hx, hdir⟩, rfl, rfl⟩
    exact ⟨x.2, hx, isDirectory_tree hdir⟩
  · rintro ⟨e, he, htarget⟩
    exact ⟨(path, e), ⟨he, by rw [isDirectory, htarget]⟩, by rw [htarget, targetHex], rfl⟩

theorem ready_subtrees {store : Store host} {item : Text × List Text} (h : Ready store item) :
    ∀ next ∈ subtreesOf (level item.2 (sortByName (childrenOf store item.1))),
      Ready store next := by
  intro next hnext
  obtain ⟨read, -, names, -⟩ := h.tree.stored
  rw [childrenOf_eq read] at hnext
  obtain ⟨e, he, htarget⟩ := mem_subtreesOf.mp hnext
  obtain ⟨he, hpath⟩ := mem_level.mp he
  have hmem := mem_sortByName.mp he
  have hnextPath : next.2 = item.2 ++ [e.name] := hpath
  refine ⟨h.tree.sub read names hmem htarget, ?_⟩
  rw [hnextPath]
  exact h.clean.append (h.tree.name read names hmem)

/-- The service lists what the walk lists. -/
theorem flattenFrom_eq (store : Store host) (size : Text → ℕ) {rounds : ℕ}
    {queue : List (Text × List Text)} (hready : ∀ item ∈ queue, Ready store item)
    {listed : List Listed} (h : walkFrom store rounds queue = some listed)
    (manifest : FlatManifest) :
    flattenFrom (treeEntries store) (fun hex => .ok (size hex)) (.error .exhausted) rounds
        (spelledQueue queue) manifest =
      .ok { manifest with
        entries := manifest.entries ++ (filesOf listed).map (flatEntryOf size)
        dirs := manifest.dirs ++ (dirsOf listed).map flatDirOf } := by
  induction rounds generalizing queue listed manifest with
  | zero =>
    cases queue with
    | nil =>
      obtain rfl : [] = listed := by simpa [walkFrom] using h
      simp [flattenFrom, spelledQueue, filesOf, dirsOf, pure, Except.pure]
    | cons item queue => cases h
  | succ rounds ih =>
    cases queue with
    | nil =>
      obtain rfl : [] = listed := by simpa [walkFrom] using h
      simp [flattenFrom, spelledQueue, filesOf, dirsOf, pure, Except.pure]
    | cons item queue =>
      have hitem := hready item List.mem_cons_self
      obtain ⟨read, -, -, -⟩ := hitem.tree.stored
      rename_i entries
      obtain ⟨rest, hrest, rfl⟩ := Option.map_eq_some_iff.mp h
      have hqueue : ∀ next ∈ queue ++ subtreesOf (level item.2 (sortByName (childrenOf store item.1))),
          Ready store next := by
        intro next hnext
        rcases List.mem_append.mp hnext with hnext | hnext
        · exact hready next (List.mem_cons_of_mem _ hnext)
        · exact ready_subtrees hitem next hnext
      have hspelled : spelledQueue (queue ++
          subtreesOf (level item.2 (sortByName (childrenOf store item.1)))) =
            spelledQueue queue ++
              spelledQueue (subtreesOf (level item.2 (sortByName entries))) := by
        rw [spelledQueue, List.map_append, childrenOf_eq read]
        rfl
      have hnext := ih hqueue hrest
      rw [hspelled] at hnext
      simp only [spelledQueue, List.map_cons, flattenFrom, read, bind, Except.bind]
      rw [foldlM_flattenEntry size hitem.clean]
      simp only [childrenOf_eq read]
      refine (hnext _).trans ?_
      simp [filesOf, dirsOf]

theorem entryAt_ne_nil {store : Store host} {root : Text} {path : List Text} {e : TreeEntry}
    (h : entryAt store root path = some e) : path ≠ [] := by
  rintro rfl
  cases h

/-- Every entry at or below an item of the queue is listed under its path, and nothing else. -/
theorem mem_walkFrom (store : Store host) {rounds : ℕ} {queue : List (Text × List Text)}
    (hstored : ∀ item ∈ queue, StoredTree store item.1) {listed : List Listed}
    (h : walkFrom store rounds queue = some listed) {x : Listed} :
    x ∈ listed ↔ ∃ item ∈ queue, ∃ path, x.1 = item.2 ++ path ∧
      entryAt store item.1 path = some x.2 := by
  induction rounds generalizing queue listed with
  | zero =>
    cases queue with
    | nil =>
      obtain rfl : [] = listed := by simpa [walkFrom] using h
      simp
    | cons item queue => cases h
  | succ rounds ih =>
    cases queue with
    | nil =>
      obtain rfl : [] = listed := by simpa [walkFrom] using h
      simp
    | cons item queue =>
      obtain ⟨read, -, names, subtrees⟩ := hstored item List.mem_cons_self
      rename_i entries
      obtain ⟨rest, hrest, rfl⟩ := Option.map_eq_some_iff.mp h
      rw [childrenOf_eq read] at hrest ⊢
      have hqueue : ∀ next ∈ queue ++ subtreesOf (level item.2 (sortByName entries)),
          StoredTree store next.1 := by
        intro next hnext
        rcases List.mem_append.mp hnext with hnext | hnext
        · exact hstored next (List.mem_cons_of_mem _ hnext)
        · obtain ⟨e, he, htarget⟩ := mem_subtreesOf.mp hnext
          exact subtrees e (mem_sortByName.mp (mem_level.mp he).1) next.1 htarget
      rw [List.mem_append, mem_level, ih hqueue hrest]
      constructor
      · rintro (⟨he, hpath⟩ | ⟨next, hnext, path, hpath, hat⟩)
        · have hmem := mem_sortByName.mp he
          exact ⟨item, List.mem_cons_self, [x.2.name], hpath, entryAt_of_mem read names hmem []⟩
        · rcases List.mem_append.mp hnext with hnext | hnext
          · exact ⟨next, List.mem_cons_of_mem _ hnext, path, hpath, hat⟩
          · obtain ⟨e, he, htarget⟩ := mem_subtreesOf.mp hnext
            obtain ⟨he, hnextPath⟩ := mem_level.mp he
            have hsplit : next.2 = item.2 ++ [e.name] := hnextPath
            refine ⟨item, List.mem_cons_self, e.name :: path, ?_, ?_⟩
            · rw [hpath, hsplit, List.append_assoc, List.singleton_append]
            · obtain ⟨name, more, rfl⟩ := List.exists_cons_of_ne_nil (entryAt_ne_nil hat)
              rw [entryAt_of_mem read names (mem_sortByName.mp he), entryFrom_tree htarget, hat]
      · rintro ⟨found, hfound, path, hpath, hat⟩
        rcases List.mem_cons.mp hfound with rfl | hfound
        · obtain ⟨name, more, rfl⟩ := List.exists_cons_of_ne_nil (entryAt_ne_nil hat)
          rw [entryAt_of_findNamed read] at hat
          obtain ⟨e, hfind, hbelow⟩ := Option.bind_eq_some_iff.mp hat
          obtain rfl := findNamed_name hfind
          have he := mem_sortByName.mpr (findNamed_mem hfind)
          cases more with
          | nil =>
            obtain rfl : e = x.2 := Option.some.inj hbelow
            exact .inl ⟨he, hpath⟩
          | cons next rest =>
            cases htarget : e.target with
            | blob hex => simp [entryFrom, htarget] at hbelow
            | tree sub =>
              rw [entryFrom_tree htarget] at hbelow
              refine .inr ⟨(sub, found.2 ++ [e.name]), ?_, next :: rest, ?_, hbelow⟩
              · refine List.mem_append_right _ (mem_subtreesOf.mpr ⟨e, ?_, htarget⟩)
                exact mem_level.mpr ⟨he, rfl⟩
              · rw [hpath, List.append_assoc, List.singleton_append]
        · exact .inr ⟨found, List.mem_append_left _ hfound, path, hpath, hat⟩

/-- Neither path leads to the other. -/
def Apart (a b : List Text) : Prop := ¬ a <+: b ∧ ¬ b <+: a

theorem prefix_snoc {path path' : List Text} {name : Text} (h : path' <+: path ++ [name])
    (hlen : path'.length ≤ path.length) : path' <+: path :=
  List.prefix_of_prefix_length_le h (List.prefix_append path [name]) hlen

theorem apart_snoc_left {path path' : List Text} (h : Apart path path') (name : Text) :
    Apart (path ++ [name]) path' := by
  refine ⟨fun hpre => h.1 ((List.prefix_append path [name]).trans hpre), fun hpre => ?_⟩
  by_cases hlen : path'.length ≤ path.length
  · exact h.2 (prefix_snoc hpre hlen)
  · have heq : path' = path ++ [name] := by
      refine hpre.eq_of_length_le ?_
      rw [List.length_append, List.length_singleton]
      omega
    exact h.1 (heq ▸ List.prefix_append path [name])

theorem apart_siblings {path : List Text} {name name' : Text} (h : name ≠ name') :
    Apart (path ++ [name]) (path ++ [name']) := by
  constructor
  · intro hpre
    have heq := hpre.eq_of_length (by simp)
    exact h (by simpa using heq)
  · intro hpre
    have heq := hpre.eq_of_length (by simp)
    exact h (by simpa using heq.symm)

theorem level_apart {path : List Text} {entries : List TreeEntry}
    (names : (entries.map TreeEntry.name).Nodup) :
    (level path entries).Pairwise fun a b => Apart a.1 b.1 := by
  refine List.pairwise_map.mpr ?_
  exact (List.pairwise_map.mp names).imp fun h => apart_siblings h

theorem subtreesOf_apart {path : List Text} {entries : List TreeEntry}
    (names : (entries.map TreeEntry.name).Nodup) :
    (subtreesOf (level path entries)).Pairwise fun a b => Apart a.2 b.2 :=
  List.pairwise_map.mpr ((level_apart names).filter _)

/-- Nothing is listed twice, and nothing after what lies below it. -/
theorem walkFrom_ordered (store : Store host) {rounds : ℕ} {queue : List (Text × List Text)}
    (hstored : ∀ item ∈ queue, StoredTree store item.1)
    (hqueue : queue.Pairwise fun a b => Apart a.2 b.2) {listed : List Listed}
    (h : walkFrom store rounds queue = some listed) :
    listed.Pairwise fun a b => ¬ b.1 <+: a.1 := by
  induction rounds generalizing queue listed with
  | zero =>
    cases queue with
    | nil =>
      obtain rfl : [] = listed := by simpa [walkFrom] using h
      exact List.Pairwise.nil
    | cons item queue => cases h
  | succ rounds ih =>
    cases queue with
    | nil =>
      obtain rfl : [] = listed := by simpa [walkFrom] using h
      exact List.Pairwise.nil
    | cons item queue =>
      obtain ⟨read, -, names, subtrees⟩ := hstored item List.mem_cons_self
      rename_i entries
      obtain ⟨rest, hrest, rfl⟩ := Option.map_eq_some_iff.mp h
      rw [childrenOf_eq read] at hrest ⊢
      have hsorted : ((sortByName entries).map TreeEntry.name).Nodup :=
        ((sortByName_perm entries).map _).nodup_iff.mpr names
      obtain ⟨hhead, htail⟩ := List.pairwise_cons.mp hqueue
      have hnextStored : ∀ next ∈ queue ++ subtreesOf (level item.2 (sortByName entries)),
          StoredTree store next.1 := by
        intro next hnext
        rcases List.mem_append.mp hnext with hnext | hnext
        · exact hstored next (List.mem_cons_of_mem _ hnext)
        · obtain ⟨e, he, htarget⟩ := mem_subtreesOf.mp hnext
          exact subtrees e (mem_sortByName.mp (mem_level.mp he).1) next.1 htarget
      have hnextApart : (queue ++ subtreesOf (level item.2 (sortByName entries))).Pairwise
          fun a b => Apart a.2 b.2 := by
        refine List.pairwise_append.mpr ⟨htail, subtreesOf_apart hsorted, fun a ha b hb => ?_⟩
        obtain ⟨e, he, -⟩ := mem_subtreesOf.mp hb
        have hb : b.2 = item.2 ++ [e.name] := (mem_level.mp he).2
        rw [hb]
        exact (apart_snoc_left (hhead a ha) e.name).symm
      refine List.pairwise_append.mpr ⟨?_, ih hnextStored hnextApart hrest, ?_⟩
      · exact (level_apart hsorted).imp fun hapart => hapart.2
      · intro a ha b hb hpre
        obtain ⟨-, hapath⟩ := mem_level.mp ha
        obtain ⟨next, hnext, path, hbpath, hat⟩ := (mem_walkFrom store hnextStored hrest).mp hb
        have hlen : 0 < path.length := List.length_pos_of_ne_nil (entryAt_ne_nil hat)
        rw [hapath, hbpath] at hpre
        have hpreLen := hpre.length_le
        simp only [List.length_append, List.length_singleton] at hpreLen
        have hnextPre : next.2 <+: item.2 :=
          prefix_snoc ((List.prefix_append next.2 path).trans hpre) (by omega)
        rcases List.mem_append.mp hnext with hnext | hnext
        · exact (hhead next hnext).2 hnextPre
        · obtain ⟨e, he, -⟩ := mem_subtreesOf.mp hnext
          have hsplit : next.2 = item.2 ++ [e.name] := (mem_level.mp he).2
          have hshort := hnextPre.length_le
          rw [hsplit, List.length_append, List.length_singleton] at hshort
          omega

/-- The directories of a tree, itself included. -/
inductive Counted (store : Store host) : Text → ℕ → Prop
  | mk {root : Text} {entries : List TreeEntry} (count : Text → ℕ)
      (read : treeEntries store root = .ok entries)
      (subtrees : ∀ e ∈ entries, ∀ sub, e.target = .tree sub → Counted store sub (count sub)) :
      Counted store root
        (1 + ((subtreesOf (level [] entries)).map fun item => count item.1).sum)

open Classical in
theorem StoredTree.counted {store : Store host} {root : Text} (h : StoredTree store root) :
    ∃ n, Counted store root n := by
  induction h with
  | mk read _ _ _ ih =>
    refine ⟨_, .mk (fun sub => if h : ∃ n, Counted store sub n then h.choose else 0) read ?_⟩
    intro e he sub hsub
    have hex := ih e he sub hsub
    rw [dif_pos hex]
    exact hex.choose_spec

theorem subtreesOf_level (path : List Text) (entries : List TreeEntry) (count : Text → ℕ) :
    (subtreesOf (level path entries)).map (fun item => count item.1) =
      (subtreesOf (level [] entries)).map fun item => count item.1 := by
  induction entries with
  | nil => rfl
  | cons e entries ih =>
    cases hdir : isDirectory e <;>
      simpa [level, subtreesOf, dirsOf, hdir] using ih

/-- A round for every directory below the queue is enough. -/
theorem walkFrom_ends (store : Store host) {queue : List (Text × List Text)} {counts : List ℕ}
    (h : List.Forall₂ (fun item n => Counted store item.1 n) queue counts) {rounds : ℕ}
    (hrounds : counts.sum ≤ rounds) : ∃ listed, walkFrom store rounds queue = some listed := by
  induction rounds generalizing queue counts with
  | zero =>
    cases h with
    | nil => exact ⟨[], rfl⟩
    | cons hhead _ =>
      obtain ⟨count, read, subtrees⟩ := hhead
      rw [List.sum_cons] at hrounds
      omega
  | succ rounds ih =>
    cases h with
    | nil => exact ⟨[], rfl⟩
    | @cons item n queue counts hhead htail =>
      obtain ⟨count, read, subtrees⟩ := hhead
      rename_i entries
      rw [List.sum_cons] at hrounds
      have hperm : ((subtreesOf (level [] (sortByName entries))).map fun item => count item.1).sum =
          ((subtreesOf (level [] entries)).map fun item => count item.1).sum := by
        refine List.Perm.sum_eq ?_
        exact ((((sortByName_perm entries).map _).filter _).map _).map _
      have hsubs : List.Forall₂ (fun item n => Counted store item.1 n)
          (subtreesOf (level item.2 (sortByName entries)))
          ((subtreesOf (level item.2 (sortByName entries))).map fun item => count item.1) := by
        refine List.forall₂_map_right_iff.mpr (List.forall₂_same.mpr fun next hnext => ?_)
        obtain ⟨e, he, htarget⟩ := mem_subtreesOf.mp hnext
        exact subtrees e (mem_sortByName.mp (mem_level.mp he).1) next.1 htarget
      obtain ⟨rest, hrest⟩ := ih (List.rel_append htail hsubs) (by
        rw [List.sum_append, subtreesOf_level, hperm]
        omega)
      refine ⟨level item.2 (sortByName entries) ++ rest, ?_⟩
      simp only [walkFrom, childrenOf_eq read, hrest, Option.map_some]

theorem walkFrom_mono (store : Store host) {rounds more : ℕ} (hle : rounds ≤ more)
    {queue : List (Text × List Text)} {listed : List Listed}
    (h : walkFrom store rounds queue = some listed) : walkFrom store more queue = some listed := by
  induction rounds generalizing queue listed more with
  | zero =>
    cases queue with
    | nil =>
      obtain rfl : [] = listed := by simpa [walkFrom] using h
      cases more <;> rfl
    | cons item queue => cases h
  | succ rounds ih =>
    cases queue with
    | nil =>
      obtain rfl : [] = listed := by simpa [walkFrom] using h
      cases more <;> rfl
    | cons item queue =>
      obtain ⟨more, rfl⟩ : ∃ k, more = k + 1 := ⟨more - 1, by omega⟩
      obtain ⟨rest, hrest, rfl⟩ := Option.map_eq_some_iff.mp h
      have hle' : rounds ≤ more := by omega
      simp only [walkFrom, ih hle' hrest, Option.map_some]

/-- What the manifest of a snapshot lists: every entry once, under its path. -/
structure Lists (store : Store host) (root : Text) (listed : List Listed) : Prop where
  mem : ∀ x, x ∈ listed ↔ entryAt store root x.1 = some x.2
  ordered : listed.Pairwise fun a b => ¬ b.1 <+: a.1

theorem flattenTree_lists {store : Store host} {root : Text} (h : PlainTree store root)
    (size : Text → ℕ) : ∃ listed, Lists store root listed ∧
      ∃ least, ∀ rounds, least ≤ rounds →
        flattenTree store size rounds root = .ok (manifestOf size root listed) := by
  obtain ⟨n, hn⟩ := h.stored.counted
  obtain ⟨listed, hwalk⟩ := walkFrom_ends store
    (List.Forall₂.cons (a := (root, ([] : List Text))) hn .nil) (le_of_eq List.sum_singleton)
  have hstored : ∀ item ∈ [(root, ([] : List Text))], StoredTree store item.1 := by
    intro item hitem
    obtain rfl := List.mem_singleton.mp hitem
    exact h.stored
  refine ⟨listed, ⟨fun x => ?_, ?_⟩, n, fun rounds hrounds => ?_⟩
  · rw [mem_walkFrom store hstored hwalk]
    simp
  · exact walkFrom_ordered store hstored (List.pairwise_singleton _ _) hwalk
  · have hready : ∀ item ∈ [(root, ([] : List Text))], Ready store item := by
      intro item hitem
      obtain rfl := List.mem_singleton.mp hitem
      exact ⟨h, fun s hs => (List.not_mem_nil hs).elim⟩
    exact flattenFrom_eq store size hready (walkFrom_mono store hrounds hwalk) ⟨root, [], []⟩

end Scarab.Storage
