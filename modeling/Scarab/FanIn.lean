import Scarab.TreeExclude
import Scarab.WorkspaceMerge

/-!
# Merging input snapshots

The report is folded over the manifests before any write, and the writes go manifest by
manifest. Both say of every path which snapshot was the last to have it.
-/
namespace Scarab.Storage

open Depot

variable {host : Host} (umask : ℕ)

/-- Apply the manifests in their order, each with the order its entries come in. -/
def materializeAll (getBlob : Text → Except StorageError Bytes) :
    List (FlatManifest × List FlatEntry) → Workspace → Except StorageError Workspace
  | [], ws => .ok ws
  | (manifest, order) :: inputs, ws =>
      match materializeFlat umask getBlob manifest order ws with
      | .error e => .error e
      | .ok ws => materializeAll getBlob inputs ws

/-- The service answers this manifest for a root, given rounds enough. -/
def Flattens (store : Store host) (size : Text → ℕ) (root : Text) (manifest : FlatManifest) :
    Prop :=
  ∃ least, ∀ rounds, least ≤ rounds → flattenTree store size rounds root = .ok manifest

section snapshots

variable (store : Store host) (roots : List Text)

/-- Snapshot `i` has a file or a symlink there, of this blob and mode. -/
def FileAt (i : ℕ) (path : List Text) (blob : Text) (mode : Option ℕ) : Prop :=
  ∃ root v, roots[i]? = some root ∧ viewAt store root path = some v ∧ v.kind = .file blob ∧
    v.mode = mode

def DirAt (i : ℕ) (path : List Text) : Prop :=
  ∃ root v, roots[i]? = some root ∧ viewAt store root path = some v ∧ v.kind = .directory

/-- Snapshot `j` is the last of the first `i` to have a file at the path. -/
def LastFileAt (i j : ℕ) (path : List Text) (blob : Text) (mode : Option ℕ) : Prop :=
  j < i ∧ FileAt store roots j path blob mode ∧
    ∀ k, j < k → k < i → ∀ blob mode, ¬ FileAt store roots k path blob mode

def kindOfMode (mode : Option ℕ) : FanInKind := if isSymlinkMode mode then .symlink else .file

/-- What a file or a symlink of a snapshot is on disk. -/
def diskNode (mode : Option ℕ) (data : Bytes) : FsNode :=
  if isSymlinkMode mode then .link data
  else .file data ((mode.map (· &&& 0o7777)).getD (Nat.ldiff 0o666 umask))

end snapshots

theorem exists_last {P : ℕ → Prop} {i : ℕ} (h : ∃ j, j < i ∧ P j) :
    ∃ j, j < i ∧ P j ∧ ∀ k, j < k → k < i → ¬ P k := by
  induction i with
  | zero =>
    obtain ⟨j, hj, -⟩ := h
    exact absurd hj (Nat.not_lt_zero j)
  | succ i ih =>
    by_cases hi : P i
    · exact ⟨i, Nat.lt_succ_self i, hi, fun k hik hki => by omega⟩
    · have hbelow : ∃ j, j < i ∧ P j := by
        obtain ⟨j, hj, hP⟩ := h
        rcases Nat.lt_succ_iff_lt_or_eq.mp hj with hlt | rfl
        · exact ⟨j, hlt, hP⟩
        · exact absurd hP hi
      obtain ⟨j, hj, hP, hbetween⟩ := ih hbelow
      refine ⟨j, by omega, hP, fun k hjk hki => ?_⟩
      rcases Nat.lt_succ_iff_lt_or_eq.mp hki with hlt | rfl
      · exact hbetween k hjk hlt
      · exact hi

section bridge

variable {store : Store host} {root : Text} {listed : List Listed}

theorem mem_filesOf_iff (hl : Lists store root listed) {path : List Text} {blob : Text}
    {mode : Option ℕ} :
    (∃ x ∈ filesOf listed, x.1 = path ∧ targetHex x.2.target = blob ∧ x.2.mode = mode) ↔
      ∃ v, viewAt store root path = some v ∧ v.kind = .file blob ∧ v.mode = mode := by
  constructor
  · rintro ⟨x, hx, rfl, rfl, rfl⟩
    obtain ⟨hmem, hfile⟩ := mem_filesOf.mp hx
    refine ⟨viewOf x.2, by rw [viewAt, (hl.mem x).mp hmem]; rfl, ?_, rfl⟩
    simp only [viewOf]
    rw [isDirectory_blob hfile]
    rfl
  · rintro ⟨v, hv, hkind, rfl⟩
    obtain ⟨e, he, rfl⟩ := Option.map_eq_some_iff.mp hv
    have htarget : e.target = .blob blob := by
      simp only [viewOf] at hkind
      cases htarget : e.target with
      | blob hex =>
        rw [htarget] at hkind
        rw [Kind.file.inj hkind]
      | tree hex =>
        rw [htarget] at hkind
        cases hkind
    refine ⟨(path, e), mem_filesOf.mpr ⟨(hl.mem (path, e)).mpr he, ?_⟩, rfl, ?_, rfl⟩
    · rw [isDirectory, htarget]
    · rw [htarget, targetHex]

theorem mem_dirsOf_iff (hl : Lists store root listed) {path : List Text} :
    path ∈ (dirsOf listed).map Prod.fst ↔
      ∃ v, viewAt store root path = some v ∧ v.kind = .directory := by
  constructor
  · intro hmem
    obtain ⟨x, hx, rfl⟩ := List.mem_map.mp hmem
    obtain ⟨hmem, hdir⟩ := mem_dirsOf.mp hx
    refine ⟨viewOf x.2, by rw [viewAt, (hl.mem x).mp hmem]; rfl, ?_⟩
    simp only [viewOf]
    rw [isDirectory_tree hdir]
    rfl
  · rintro ⟨v, hv, hkind⟩
    obtain ⟨e, he, rfl⟩ := Option.map_eq_some_iff.mp hv
    refine List.mem_map.mpr ⟨(path, e), mem_dirsOf.mpr ⟨(hl.mem (path, e)).mpr he, ?_⟩, rfl⟩
    simp only [viewOf] at hkind
    unfold isDirectory
    cases htarget : e.target with
    | blob hex =>
      rw [htarget] at hkind
      cases hkind
    | tree hex => rfl

end bridge

/-- Each manifest lists its snapshot. -/
structure Listing (store : Store host) (size : Text → ℕ) (roots : List Text)
    (manifests : List FlatManifest) : Prop where
  length : manifests.length = roots.length
  listed : ∀ (i : ℕ) (root : Text), roots[i]? = some root → PlainTree store root ∧
    ∃ listed, Lists store root listed ∧ manifests[i]? = some (manifestOf size root listed)

theorem Flattens.eq_manifestOf {store : Store host} {size : Text → ℕ} {root : Text}
    {manifest : FlatManifest} (h : Flattens store size root manifest)
    (hplain : PlainTree store root) :
    ∃ listed, Lists store root listed ∧ manifest = manifestOf size root listed := by
  obtain ⟨listed, hlists, n, hn⟩ := flattenTree_lists hplain size
  obtain ⟨m, hm⟩ := h
  have hboth := (hm (max n m) (le_max_right n m)).symm.trans (hn (max n m) (le_max_left n m))
  exact ⟨listed, hlists, Except.ok.inj hboth⟩

theorem listing_of_flattens {store : Store host} {size : Text → ℕ} {roots : List Text}
    {manifests : List FlatManifest} (hplain : ∀ root ∈ roots, PlainTree store root)
    (h : List.Forall₂ (Flattens store size) roots manifests) :
    Listing store size roots manifests where
  length := h.length_eq.symm
  listed := by
    intro i root hroot
    obtain ⟨hi, rfl⟩ := List.getElem?_eq_some_iff.mp hroot
    have hi' : i < manifests.length := h.length_eq ▸ hi
    have htree := hplain _ (List.getElem_mem hi)
    obtain ⟨listed, hlists, heq⟩ := (h.get hi hi').eq_manifestOf htree
    refine ⟨htree, listed, hlists, ?_⟩
    rw [List.getElem?_eq_getElem hi']
    exact congrArg some heq

theorem manifestOf_distinct {store : Store host} {root : Text} (htree : PlainTree store root)
    {listed : List Listed} (hl : Lists store root listed) (size : Text → ℕ) :
    Distinct (manifestOf size root listed) := by
  have hpaths : (manifestOf size root listed).dirs.map FlatDir.path ++
      (manifestOf size root listed).entries.map FlatEntry.path =
        (dirsOf listed ++ filesOf listed).map fun x => joinSlash x.1 := by
    simp only [manifestOf, List.map_map, List.map_append]
    rfl
  have hperm : (dirsOf listed ++ filesOf listed).Perm listed :=
    List.filter_append_perm _ listed
  rw [Distinct, hpaths, (hperm.map _).nodup_iff]
  have hnodup : listed.Nodup := List.Nodup.of_map Prod.fst hl.paths_nodup
  refine List.Nodup.map_on (fun x hx y hy heq => ?_) hnodup
  have hsame : x.1 = y.1 := joinSlash_injective (hl.clean htree hx) (hl.clean htree hy)
    (hl.ne_nil hx) (hl.ne_nil hy) heq
  exact List.inj_on_of_nodup_map hl.paths_nodup hx hy hsame

section listing

variable {store : Store host} {size : Text → ℕ} {roots : List Text}
  {manifests : List FlatManifest} (h : Listing store size roots manifests)
include h

theorem Listing.root_of {i : ℕ} {m : FlatManifest} (hm : manifests[i]? = some m) :
    ∃ root listed, roots[i]? = some root ∧ PlainTree store root ∧ Lists store root listed ∧
      m = manifestOf size root listed := by
  obtain ⟨hi, -⟩ := List.getElem?_eq_some_iff.mp hm
  have hlt : i < roots.length := h.length ▸ hi
  have hroot : roots[i]? = some roots[i] := List.getElem?_eq_getElem hlt
  obtain ⟨htree, listed, hl, hm'⟩ := h.listed i _ hroot
  exact ⟨_, listed, hroot, htree, hl, Option.some.inj (hm.symm.trans hm')⟩

theorem Listing.distinct {m : FlatManifest} (hm : m ∈ manifests) : Distinct m := by
  obtain ⟨i, hi⟩ := List.mem_iff_getElem?.mp hm
  obtain ⟨root, listed, -, htree, hl, rfl⟩ := h.root_of hi
  exact manifestOf_distinct htree hl size

/-- What a manifest has under a text is what its snapshot has at the path it spells. -/
theorem Listing.fileOf_some {i : ℕ} {text : Text} {entry : FlatEntry}
    (hentry : fileOf manifests i text = some entry) :
    ∃ path, Clean path ∧ path ≠ [] ∧ text = joinSlash path ∧
      FileAt store roots i path entry.blob entry.mode := by
  obtain ⟨m, hm, hfind⟩ := Option.bind_eq_some_iff.mp hentry
  obtain ⟨root, listed, hroot, htree, hl, rfl⟩ := h.root_of hm
  have hpath : entry.path = text := by simpa using List.find?_some hfind
  obtain ⟨x, hx, rfl⟩ := List.mem_map.mp (List.mem_of_find?_eq_some hfind)
  have hmem := (mem_filesOf.mp hx).1
  obtain ⟨v, hv, hkind, hmode⟩ := (mem_filesOf_iff hl).mp ⟨x, hx, rfl, rfl, rfl⟩
  exact ⟨x.1, hl.clean htree hmem, hl.ne_nil hmem, hpath.symm, root, v, hroot, hv, hkind, hmode⟩

theorem Listing.fileOf_of_fileAt {i : ℕ} {path : List Text} {blob : Text} {mode : Option ℕ}
    (hfile : FileAt store roots i path blob mode) :
    Clean path ∧ path ≠ [] ∧ ∃ entry, fileOf manifests i (joinSlash path) = some entry ∧
      entry.path = joinSlash path ∧ entry.blob = blob ∧ entry.mode = mode := by
  obtain ⟨root, v, hroot, hv, hkind, hmode⟩ := hfile
  obtain ⟨htree, listed, hl, hm⟩ := h.listed i root hroot
  obtain ⟨x, hx, rfl, hblob, hmode⟩ := (mem_filesOf_iff hl).mpr ⟨v, hv, hkind, hmode⟩
  have hmem := (mem_filesOf.mp hx).1
  refine ⟨hl.clean htree hmem, hl.ne_nil hmem, flatEntryOf size x, ?_, rfl, hblob, hmode⟩
  exact (fileOf_eq_some hm (manifestOf_distinct htree hl size)).mpr
    ⟨List.mem_map_of_mem hx, rfl⟩

theorem Listing.hasDir_iff {i : ℕ} {text : Text} : HasDir manifests i text ↔
    ∃ path, Clean path ∧ path ≠ [] ∧ text = joinSlash path ∧ DirAt store roots i path := by
  constructor
  · rintro ⟨m, hm, hmem⟩
    obtain ⟨root, listed, hroot, htree, hl, rfl⟩ := h.root_of hm
    obtain ⟨dir, hdir, rfl⟩ := List.mem_map.mp hmem
    obtain ⟨x, hx, rfl⟩ := List.mem_map.mp hdir
    have hin := (mem_dirsOf.mp hx).1
    obtain ⟨v, hv, hkind⟩ := (mem_dirsOf_iff hl).mp (List.mem_map_of_mem hx)
    exact ⟨x.1, hl.clean htree hin, hl.ne_nil hin, rfl, root, v, hroot, hv, hkind⟩
  · rintro ⟨path, -, -, rfl, root, v, hroot, hv, hkind⟩
    obtain ⟨htree, listed, hl, hm⟩ := h.listed i root hroot
    obtain ⟨x, hx, rfl⟩ := List.mem_map.mp ((mem_dirsOf_iff hl).mpr ⟨v, hv, hkind⟩)
    refine ⟨_, hm, List.mem_map.mpr ⟨flatDirOf x, List.mem_map_of_mem hx, rfl⟩⟩

theorem Listing.conflicting_iff : Conflicting manifests ↔
    ∃ path i j blob mode, DirAt store roots i path ∧ FileAt store roots j path blob mode := by
  constructor
  · rintro ⟨text, i, j, hdir, entry, hfile⟩
    obtain ⟨path, hclean, hne, rfl, hdirAt⟩ := h.hasDir_iff.mp hdir
    obtain ⟨path', hclean', hne', heq, hfileAt⟩ := h.fileOf_some hfile
    obtain rfl := joinSlash_injective hclean hclean' hne hne' heq
    exact ⟨path, i, j, _, _, hdirAt, hfileAt⟩
  · rintro ⟨path, i, j, blob, mode, hdir, hfile⟩
    obtain ⟨hclean, hne, entry, hentry, -⟩ := h.fileOf_of_fileAt hfile
    exact ⟨joinSlash path, i, j, h.hasDir_iff.mpr ⟨path, hclean, hne, rfl, hdir⟩, entry, hentry⟩

/-- The last file the fold remembers is the last file of the snapshots. -/
theorem Listing.lastFile_some {i j : ℕ} {path : List Text} {entry : FlatEntry}
    (hlast : lastFile manifests (joinSlash path) i = some (j, entry)) (hclean : Clean path)
    (hne : path ≠ []) : LastFileAt store roots i j path entry.blob entry.mode := by
  obtain ⟨hj, hfile, hbetween⟩ := Storage.lastFile_some hlast
  obtain ⟨path', hclean', hne', heq, hat⟩ := h.fileOf_some hfile
  obtain rfl := joinSlash_injective hclean hclean' hne hne' heq
  refine ⟨hj, hat, fun k hjk hki blob mode hk => ?_⟩
  obtain ⟨-, -, e, he, -⟩ := h.fileOf_of_fileAt hk
  rw [hbetween k hjk hki] at he
  cases he

theorem Listing.lastFile_of {i j : ℕ} {path : List Text} {blob : Text} {mode : Option ℕ}
    (hlast : LastFileAt store roots i j path blob mode) :
    ∃ entry, lastFile manifests (joinSlash path) i = some (j, entry) ∧ entry.blob = blob ∧
      entry.mode = mode := by
  obtain ⟨hj, hat, hbetween⟩ := hlast
  obtain ⟨hclean, hne, entry, hentry, -, hblob, hmode⟩ := h.fileOf_of_fileAt hat
  obtain ⟨⟨j', found⟩, hfound⟩ := exists_lastFile hj hentry
  obtain ⟨hj', hat', hbetween'⟩ := h.lastFile_some hfound hclean hne
  have hsame : j' = j := by
    rcases lt_trichotomy j j' with hlt | heq | hlt
    · exact absurd hat' (hbetween j' hlt hj' _ _)
    · exact heq.symm
    · exact absurd hat (hbetween' j hlt hj _ _)
  subst hsame
  obtain ⟨-, hfile, -⟩ := Storage.lastFile_some hfound
  obtain rfl : entry = found := Option.some.inj (hentry.symm.trans hfile)
  exact ⟨entry, hfound, hblob, hmode⟩

end listing

/-- Snapshot `winner` is the next after `loser` to have a file at the path, and a different
one. -/
def Replaces (store : Store host) (roots : List Text) (path : List Text) (winner loser : ℕ) :
    Prop :=
  ∃ blob mode blob' mode', FileAt store roots winner path blob mode ∧
    LastFileAt store roots winner loser path blob' mode' ∧
    ¬ (blob' = blob ∧ kindOfMode mode' = kindOfMode mode ∧ mode' = mode)

theorem mem_expectedFrom {manifests rest : List FlatManifest} {i : ℕ}
    (hrest : manifests.drop i = rest) {c : InputCollision} :
    c ∈ expectedFrom manifests i rest ↔ ∃ w m, i ≤ w ∧ manifests[w]? = some m ∧
      ∃ entry ∈ m.entries, expectedAt manifests w entry = some c := by
  induction rest generalizing i with
  | nil =>
    simp only [expectedFrom, List.not_mem_nil, false_iff]
    rintro ⟨w, m, hiw, hm, -⟩
    obtain ⟨hw, -⟩ := List.getElem?_eq_some_iff.mp hm
    have hlen := congrArg List.length hrest
    rw [List.length_drop, List.length_nil] at hlen
    omega
  | cons m rest ih =>
    have hm : manifests[i]? = some m := by
      have hhead := congrArg List.head? hrest
      rwa [List.head?_drop, List.head?_cons] at hhead
    have htail : manifests.drop (i + 1) = rest := by
      rw [← List.tail_drop, hrest, List.tail_cons]
    rw [expectedFrom, List.mem_append, List.mem_filterMap, ih htail]
    constructor
    · rintro (⟨entry, hentry, hc⟩ | ⟨w, m', hiw, hm', hc⟩)
      · exact ⟨i, m, le_rfl, hm, entry, hentry, hc⟩
      · exact ⟨w, m', by omega, hm', hc⟩
    · rintro ⟨w, m', hiw, hm', hc⟩
      rcases Nat.eq_or_lt_of_le hiw with rfl | hlt
      · obtain rfl : m = m' := Option.some.inj (hm.symm.trans hm')
        exact .inl hc
      · exact .inr ⟨w, m', hlt, hm', hc⟩

theorem expectedAt_eq_some {manifests : List FlatManifest} {i : ℕ} {entry : FlatEntry}
    {c : InputCollision} : expectedAt manifests i entry = some c ↔
      ∃ j earlier, lastFile manifests entry.path i = some (j, earlier) ∧
        ¬ (earlier.blob = entry.blob ∧ entryKind earlier = entryKind entry ∧
          earlier.mode = entry.mode) ∧ c = ⟨entry.path, i, j⟩ := by
  unfold expectedAt
  cases hlast : lastFile manifests entry.path i with
  | none => simp
  | some found =>
    obtain ⟨j, earlier⟩ := found
    simp only [Option.some.injEq, Prod.mk.injEq]
    split_ifs with hsame
    · constructor
      · exact fun h => by cases h
      · rintro ⟨_, _, ⟨rfl, rfl⟩, hnot, -⟩
        exact absurd hsame hnot
    · constructor
      · exact fun h => ⟨j, earlier, ⟨rfl, rfl⟩, hsame, (Option.some.inj h).symm⟩
      · rintro ⟨_, _, ⟨rfl, rfl⟩, -, rfl⟩
        rfl

/-- The winners come in order, and the paths of one winner as its manifest lists them. -/
def Reported (manifests : List FlatManifest) (a b : InputCollision) : Prop :=
  a.winner < b.winner ∨ a.winner = b.winner ∧ ∃ m, manifests[a.winner]? = some m ∧
    List.Sublist [a.path, b.path] (m.entries.map FlatEntry.path)

theorem expectedFrom_ordered {manifests rest : List FlatManifest} {i : ℕ}
    (hrest : manifests.drop i = rest) :
    (expectedFrom manifests i rest).Pairwise (Reported manifests) := by
  induction rest generalizing i with
  | nil => exact List.Pairwise.nil
  | cons m rest ih =>
    have hm : manifests[i]? = some m := by
      have hhead := congrArg List.head? hrest
      rwa [List.head?_drop, List.head?_cons] at hhead
    have htail : manifests.drop (i + 1) = rest := by
      rw [← List.tail_drop, hrest, List.tail_cons]
    refine List.pairwise_append.mpr ⟨?_, ih htail, ?_⟩
    · refine List.pairwise_filterMap.mpr (List.pairwise_iff_forall_sublist.mpr ?_)
      intro a b hsub c hc d hd
      obtain ⟨_, _, -, -, rfl⟩ := expectedAt_eq_some.mp hc
      obtain ⟨_, _, -, -, rfl⟩ := expectedAt_eq_some.mp hd
      exact .inr ⟨rfl, m, hm, hsub.map FlatEntry.path⟩
    · intro a ha b hb
      obtain ⟨entry, -, hentry⟩ := List.mem_filterMap.mp ha
      obtain ⟨_, _, -, -, rfl⟩ := expectedAt_eq_some.mp hentry
      obtain ⟨w, m', hiw, -, entry', -, hentry'⟩ := (mem_expectedFrom htail).mp hb
      obtain ⟨_, _, -, -, rfl⟩ := expectedAt_eq_some.mp hentry'
      exact .inl hiw

theorem Listing.report_iff {store : Store host} {size : Text → ℕ} {roots : List Text}
    {manifests : List FlatManifest} (h : Listing store size roots manifests)
    {c : InputCollision} : c ∈ expectedFrom manifests 0 manifests ↔
      ∃ path, c.path = joinSlash path ∧ Replaces store roots path c.winner c.loser := by
  rw [mem_expectedFrom List.drop_zero]
  constructor
  · rintro ⟨w, m, -, hm, entry, hentry, hc⟩
    obtain ⟨j, earlier, hlast, hdiff, rfl⟩ := expectedAt_eq_some.mp hc
    have hfile : fileOf manifests w entry.path = some entry :=
      (fileOf_eq_some hm (h.distinct (List.mem_of_getElem? hm))).mpr ⟨hentry, rfl⟩
    obtain ⟨path, hclean, hne, hpath, hat⟩ := h.fileOf_some hfile
    rw [hpath] at hlast
    exact ⟨path, hpath, _, _, _, _, hat, h.lastFile_some hlast hclean hne, hdiff⟩
  · rintro ⟨path, hpath, blob, mode, blob', mode', hat, hlast, hdiff⟩
    obtain ⟨hclean, hne, entry, hentry, hepath, rfl, rfl⟩ := h.fileOf_of_fileAt hat
    obtain ⟨m, hm, -⟩ := Option.bind_eq_some_iff.mp hentry
    obtain ⟨hmem, -⟩ := (fileOf_eq_some hm (h.distinct (List.mem_of_getElem? hm))).mp hentry
    obtain ⟨earlier, hfound, rfl, rfl⟩ := h.lastFile_of hlast
    refine ⟨c.winner, m, Nat.zero_le _, hm, entry, hmem, expectedAt_eq_some.mpr ?_⟩
    refine ⟨c.loser, earlier, by rw [hepath, hfound], hdiff, ?_⟩
    rw [hepath, ← hpath]

theorem Reported.ne {manifests : List FlatManifest} (hdistinct : ∀ m ∈ manifests, Distinct m)
    {a b : InputCollision} (h : Reported manifests a b) : a ≠ b := by
  rintro rfl
  rcases h with hlt | ⟨-, m, hm, hsub⟩
  · exact lt_irrefl _ hlt
  · have hnodup : (m.entries.map FlatEntry.path).Nodup :=
      (List.nodup_append.mp (hdistinct m (List.mem_of_getElem? hm))).2.1
    exact List.nodup_iff_sublist.mp hnodup a.path hsub

/-- What the first `i` snapshots leave of an empty workspace. -/
structure Merged (store : Store host) (roots : List Text) (content : Text → Bytes) (i : ℕ)
    (ws : Workspace) : Prop where
  root : Open ws []
  dir : ∀ j path, j < i → DirAt store roots j path → ∃ mode, ws.nodes path = some (.dir mode)
  file : ∀ j path blob mode, LastFileAt store roots i j path blob mode →
    ws.nodes path = some (diskNode umask mode (content blob))
  absent : ∀ path, path ≠ [] → (∀ j, j < i → ¬ DirAt store roots j path ∧
    ∀ blob mode, ¬ FileAt store roots j path blob mode) → ws.nodes path = none

/-- No name of the snapshots has a NUL, and every link has a text that the system takes. -/
structure Makeable (store : Store host) (roots : List Text) (content : Text → Bytes) : Prop where
  named : ∀ i path, (DirAt store roots i path ∨ ∃ blob mode, FileAt store roots i path blob mode) →
    Workspace.spelled path = true
  linked : ∀ i path blob mode, FileAt store roots i path blob mode →
    isSymlinkMode mode = true → Workspace.linkText (content blob) = true

theorem diskNode_ne_dir (mode : Option ℕ) (data : Bytes) (bits : ℕ) :
    diskNode umask mode data ≠ .dir bits := by
  unfold diskNode
  split <;> nofun

theorem exists_lastFileAt {store : Store host} {roots : List Text} {i j : ℕ} {path : List Text}
    {blob : Text} {mode : Option ℕ} (hj : j < i) (h : FileAt store roots j path blob mode) :
    ∃ l blob mode, LastFileAt store roots i l path blob mode := by
  obtain ⟨l, hl, ⟨b, m, hat⟩, hbetween⟩ :=
    exists_last (P := fun k => ∃ blob mode, FileAt store roots k path blob mode)
      ⟨j, hj, blob, mode, h⟩
  exact ⟨l, b, m, hl, hat, fun k hlk hki b' m' hk => hbetween k hlk hki ⟨b', m', hk⟩⟩

section merge

variable {store : Store host} {size : Text → ℕ} {roots : List Text}
  {manifests : List FlatManifest} (h : Listing store size roots manifests)
  (humask : OwnerKept umask) {getBlob : Text → Except StorageError Bytes} {content : Text → Bytes}
  (hblobs : ∀ i path blob mode, FileAt store roots i path blob mode →
    getBlob blob = .ok (content blob))
  (hmake : Makeable store roots content)
  (hfits : ∀ path i j blob mode, DirAt store roots i path → ¬ FileAt store roots j path blob mode)
include h humask hblobs hmake hfits

/-- One more snapshot. -/
theorem Merged.step {i : ℕ} {ws : Workspace} (hmerged : Merged umask store roots content i ws)
    {m : FlatManifest} (hm : manifests[i]? = some m) {order : List FlatEntry}
    (horder : order.Perm m.entries) :
    ∃ ws', materializeFlat umask getBlob m order ws = .ok ws' ∧
      Merged umask store roots content (i + 1) ws' := by
  obtain ⟨root, listed, hroot, htree, hl, rfl⟩ := h.root_of hm
  have hdirAt : ∀ path, path ∈ (dirsOf listed).map Prod.fst ↔ DirAt store roots i path := by
    intro path
    rw [mem_dirsOf_iff hl]
    constructor
    · rintro ⟨v, hv, hkind⟩
      exact ⟨root, v, hroot, hv, hkind⟩
    · rintro ⟨root', v, hroot', hv, hkind⟩
      obtain rfl := Option.some.inj (hroot.symm.trans hroot')
      exact ⟨v, hv, hkind⟩
  have hfileAt : ∀ path blob mode, (∃ x ∈ filesOf listed, x.1 = path ∧
      targetHex x.2.target = blob ∧ x.2.mode = mode) ↔ FileAt store roots i path blob mode := by
    intro path blob mode
    rw [mem_filesOf_iff hl]
    constructor
    · rintro ⟨v, hv, hkind, hmode⟩
      exact ⟨root, v, hroot, hv, hkind, hmode⟩
    · rintro ⟨root', v, hroot', hv, hkind, hmode⟩
      obtain rfl := Option.some.inj (hroot.symm.trans hroot')
      exact ⟨v, hv, hkind, hmode⟩
  have hfileOf : ∀ x ∈ filesOf listed,
      FileAt store roots i x.1 (targetHex x.2.target) x.2.mode :=
    fun x hx => (hfileAt _ _ _).mp ⟨x, hx, rfl, rfl, rfl⟩
  have hdirOf : ∀ x ∈ dirsOf listed, DirAt store roots i x.1 :=
    fun x hx => (hdirAt _).mp (List.mem_map_of_mem hx)
  have hdirs : ∀ x ∈ dirsOf listed, ∀ node, ws.nodes x.1 = some node →
      ∃ mode, node = .dir mode := by
    intro x hx node hnode
    by_cases hbefore : ∃ j, j < i ∧ DirAt store roots j x.1
    · obtain ⟨j, hj, hdir⟩ := hbefore
      obtain ⟨mode, hat⟩ := hmerged.dir j x.1 hj hdir
      exact ⟨mode, Option.some.inj (hnode.symm.trans hat)⟩
    · have habsent := hmerged.absent x.1 (hl.ne_nil (mem_dirsOf.mp hx).1) fun j hj =>
        ⟨fun hdir => hbefore ⟨j, hj, hdir⟩, fun blob mode => hfits x.1 i j blob mode (hdirOf x hx)⟩
      rw [habsent] at hnode
      cases hnode
  have hfiles : ∀ x ∈ filesOf listed, ∀ mode, ws.nodes x.1 ≠ some (.dir mode) := by
    intro x hx bits hnode
    by_cases hbefore : ∃ j blob mode, j < i ∧ FileAt store roots j x.1 blob mode
    · obtain ⟨j, blob, mode, hj, hfile⟩ := hbefore
      obtain ⟨l, b, md, hlast⟩ := exists_lastFileAt hj hfile
      rw [hmerged.file l x.1 b md hlast] at hnode
      exact diskNode_ne_dir umask md (content b) bits (Option.some.inj hnode)
    · have habsent := hmerged.absent x.1 (hl.ne_nil (mem_filesOf.mp hx).1) fun j hj =>
        ⟨fun hdir => hfits x.1 j i _ _ hdir (hfileOf x hx),
          fun blob mode hfile => hbefore ⟨j, blob, mode, hj, hfile⟩⟩
      rw [habsent] at hnode
      cases hnode
  have hcreate : Creatable listed content := by
    refine ⟨fun x hx => hmake.named i x.1 ?_, fun x hx => hmake.linked i x.1 _ _ (hfileOf x hx)⟩
    cases hkind : isDirectory x.2 with
    | true => exact .inl (hdirOf x (mem_dirsOf.mpr ⟨hx, hkind⟩))
    | false => exact .inr ⟨_, _, hfileOf x (mem_filesOf.mpr ⟨hx, hkind⟩)⟩
  obtain ⟨ws', hrun, hroot', hmade, hwritten, hothers⟩ := materializeFlat_merges umask htree hl
    humask size (fun x hx => hblobs i x.1 _ _ (hfileOf x hx)) hcreate horder hmerged.root hdirs
    hfiles
  have hunlisted : ∀ path, ¬ DirAt store roots i path →
      (∀ blob mode, ¬ FileAt store roots i path blob mode) → path ∉ listed.map Prod.fst := by
    intro path hnodir hnofile hmem
    obtain ⟨x, hx, rfl⟩ := List.mem_map.mp hmem
    cases hkind : isDirectory x.2 with
    | true => exact hnodir (hdirOf x (mem_dirsOf.mpr ⟨hx, hkind⟩))
    | false => exact hnofile _ _ (hfileOf x (mem_filesOf.mpr ⟨hx, hkind⟩))
  have hne : ∀ j path, DirAt store roots j path ∨
      (∃ blob mode, FileAt store roots j path blob mode) → path ≠ [] := by
    rintro j path (⟨r, v, -, hv, -⟩ | ⟨blob, mode, r, v, -, hv, -⟩) rfl <;> cases hv
  refine ⟨ws', hrun, hroot', ?_, ?_, ?_⟩
  · intro j path hj hdir
    by_cases hhere : DirAt store roots i path
    · obtain ⟨x, hx, rfl⟩ := List.mem_map.mp ((hdirAt path).mpr hhere)
      exact hmade x hx
    · have hlt : j < i := by
        rcases Nat.lt_succ_iff_lt_or_eq.mp hj with hlt | rfl
        · exact hlt
        · exact absurd hdir hhere
      obtain ⟨mode, hnode⟩ := hmerged.dir j path hlt hdir
      refine ⟨mode, ?_⟩
      rw [hothers path (hne j path (.inl hdir))
        (hunlisted path hhere fun blob mode => hfits path j i blob mode hdir), hnode]
  · intro j path blob mode hlast
    obtain ⟨hj, hat, hbetween⟩ := hlast
    rcases Nat.lt_succ_iff_lt_or_eq.mp hj with hlt | rfl
    · have hnofile : ∀ blob mode, ¬ FileAt store roots i path blob mode :=
        hbetween i hlt (Nat.lt_succ_self i)
      rw [hothers path (hne j path (.inr ⟨blob, mode, hat⟩))
        (hunlisted path (fun hdir => hfits path i j blob mode hdir hat) hnofile)]
      exact hmerged.file j path blob mode
        ⟨hlt, hat, fun k hjk hki => hbetween k hjk (Nat.lt_succ_of_lt hki)⟩
    · obtain ⟨x, hx, rfl, rfl, rfl⟩ := (hfileAt path blob mode).mpr hat
      exact hwritten x hx
  · intro path hpath hnone
    obtain ⟨hnodir, hnofile⟩ := hnone i (Nat.lt_succ_self i)
    rw [hothers path hpath (hunlisted path hnodir hnofile)]
    exact hmerged.absent path hpath fun j hj => hnone j (Nat.lt_succ_of_lt hj)

theorem Merged.run {i : ℕ} {ws : Workspace} (hmerged : Merged umask store roots content i ws)
    {rest : List FlatManifest} (hrest : manifests.drop i = rest) {orders : List (List FlatEntry)}
    (horders : List.Forall₂ (fun m order => order.Perm m.entries) rest orders) :
    ∃ ws', materializeAll umask getBlob (rest.zip orders) ws = .ok ws' ∧
      Merged umask store roots content (i + rest.length) ws' := by
  induction horders generalizing i ws with
  | nil => exact ⟨ws, rfl, hmerged⟩
  | @cons m order rest orders horder _ ih =>
    have hm : manifests[i]? = some m := by
      have hhead := congrArg List.head? hrest
      rwa [List.head?_drop, List.head?_cons] at hhead
    have htail : manifests.drop (i + 1) = rest := by
      rw [← List.tail_drop, hrest, List.tail_cons]
    obtain ⟨ws₁, hrun, hmerged₁⟩ := hmerged.step umask h humask hblobs hmake hfits hm
      horder
    obtain ⟨ws', hrest', hmerged'⟩ := ih hmerged₁ htail
    refine ⟨ws', ?_, ?_⟩
    · simp only [List.zip_cons_cons, materializeAll, hrun, hrest']
    · rwa [List.length_cons, Nat.add_comm rest.length 1, ← Nat.add_assoc]

end merge

/-- An empty directory open to its owner. -/
def Fresh (ws : Workspace) : Prop := Open ws [] ∧ ∀ path, path ≠ [] → ws.nodes path = none

theorem Fresh.merged {ws : Workspace} (h : Fresh ws) (store : Store host) (roots : List Text)
    (content : Text → Bytes) : Merged umask store roots content 0 ws where
  root := h.1
  dir := fun j _ hj => absurd hj (Nat.not_lt_zero j)
  file := fun j _ _ _ hlast => absurd hlast.1 (Nat.not_lt_zero j)
  absent := fun path hne _ => h.2 path hne

section refused

variable {getBlob : Text → Except StorageError Bytes}

/-- The system takes no name with a NUL and no such link. -/
theorem writeEntry_refused {ws : Workspace} {entry : FlatEntry} {data : Bytes} {path : List Text}
    (hjoin : safeJoin entry.path = .ok path)
    (hodd : Workspace.spelled path = false ∨
      isSymlinkMode entry.mode = true ∧ Workspace.linkText data = false) :
    ∃ e, writeEntry umask ws entry data = .error e := by
  simp only [writeEntry, hjoin, bind, Except.bind]
  cases ws.createDirAll umask path.dropLast with
  | error e => exact ⟨e, rfl⟩
  | ok ws₁ =>
    cases hunlink : unlinkFirst ws₁ path with
    | error e => exact ⟨e, by simp only [hunlink]⟩
    | ok ws₂ =>
      simp only [hunlink]
      rcases hodd with hspelled | ⟨hlink, htext⟩
      · have hreach : ∀ ws : Workspace, ws.reachable path = false := by
          intro ws
          rw [Workspace.reachable, hspelled, Bool.false_and]
        split_ifs
        · exact ⟨.backend, by simp [Workspace.symlink, hreach]⟩
        · exact ⟨.backend, by simp [writeFile, Workspace.writeData, hreach, bind, Except.bind]⟩
      · exact ⟨.backend, by simp [hlink, Workspace.symlink, htext]⟩

theorem foldlM_refused {α β ε : Type} {step : β → α → Except ε β} {x : α}
    (hstep : ∀ b, ∃ e, step b x = .error e) {xs : List α} (hx : x ∈ xs) (b : β) :
    ∃ e, xs.foldlM step b = .error e := by
  induction xs generalizing b with
  | nil => cases hx
  | cons y xs ih =>
    rw [List.foldlM_cons]
    cases hy : step b y with
    | error e => exact ⟨e, rfl⟩
    | ok b' =>
      rcases List.mem_cons.mp hx with rfl | hx
      · obtain ⟨e, he⟩ := hstep b
        rw [hy] at he
        cases he
      · exact ih hx b'

theorem materializeFlat_refused {manifest : FlatManifest} {order : List FlatEntry}
    {entry : FlatEntry} (hentry : entry ∈ order) {data : Bytes}
    (hblob : getBlob entry.blob = .ok data) {path : List Text}
    (hjoin : safeJoin entry.path = .ok path)
    (hodd : Workspace.spelled path = false ∨
      isSymlinkMode entry.mode = true ∧ Workspace.linkText data = false) (ws ws' : Workspace) :
    materializeFlat umask getBlob manifest order ws ≠ .ok ws' := by
  intro hrun
  simp only [materializeFlat, bind, Except.bind] at hrun
  split at hrun
  · cases hrun
  · split at hrun
    · cases hrun
    · next made _ =>
      have hstep : ∀ ws, ∃ e, fetchEntry umask getBlob ws entry = .error e := by
        intro ws
        simp only [fetchEntry, hblob, bind, Except.bind]
        exact writeEntry_refused umask hjoin hodd
      obtain ⟨e, he⟩ := foldlM_refused hstep hentry made.1
      rw [he] at hrun
      cases hrun

end refused

/-- Fan-in refuses exactly the snapshots that disagree on what is a directory. Of the rest it
reports exactly the files that replace different ones, and those the system can make it merges
with the last file at every path. -/
theorem fan_in_exact (humask : OwnerKept umask) {store : Store host} {size : Text → ℕ}
    {roots : List Text} (hplain : ∀ root ∈ roots, PlainTree store root)
    {manifests : List FlatManifest}
    (hflat : List.Forall₂ (Flattens store size) roots manifests)
    {getBlob : Text → Except StorageError Bytes} {content : Text → Bytes}
    (hblobs : ∀ i path blob mode, FileAt store roots i path blob mode →
      getBlob blob = .ok (content blob)) :
    ((∃ conflict, foldManifests manifests = .error conflict) ↔
      ∃ path i j blob mode, DirAt store roots i path ∧ FileAt store roots j path blob mode) ∧
    ((¬ ∃ conflict, foldManifests manifests = .error conflict) →
      (∃ report, foldManifests manifests = .ok report ∧ report.Nodup ∧
        report.Pairwise (Reported manifests) ∧
        ∀ c, c ∈ report ↔
          ∃ path, c.path = joinSlash path ∧ Replaces store roots path c.winner c.loser) ∧
      (Makeable store roots content → ∀ orders, List.Forall₂ (fun m order => List.Perm order m.entries) manifests orders →
        ∀ ws, Fresh ws → ∃ ws',
          materializeAll umask getBlob (manifests.zip orders) ws = .ok ws' ∧
          (∀ path, path ≠ [] → ((∃ mode, ws'.nodes path = some (.dir mode)) ↔
            ∃ i, DirAt store roots i path)) ∧
          (∀ i path blob mode, LastFileAt store roots roots.length i path blob mode →
            ws'.nodes path = some (diskNode umask mode (content blob))) ∧
          ∀ path, path ≠ [] → (∀ i, ¬ DirAt store roots i path ∧
            ∀ blob mode, ¬ FileAt store roots i path blob mode) → ws'.nodes path = none)) := by
  have h := listing_of_flattens hplain hflat
  obtain ⟨herror, hok⟩ := foldManifests_exact (fun m hm => h.distinct hm)
  refine ⟨herror.trans h.conflicting_iff, fun hnone => ?_⟩
  rw [herror] at hnone
  have hfits : ∀ path i j blob mode, DirAt store roots i path →
      ¬ FileAt store roots j path blob mode := fun path i j blob mode hdir hfile =>
    hnone (h.conflicting_iff.mpr ⟨path, i, j, blob, mode, hdir, hfile⟩)
  have hordered : (expectedFrom manifests 0 manifests).Pairwise (Reported manifests) :=
    expectedFrom_ordered List.drop_zero
  refine ⟨⟨_, hok hnone, ?_, hordered, fun c => h.report_iff⟩, ?_⟩
  · exact hordered.imp fun hab => hab.ne fun m hm => h.distinct hm
  · intro hmake orders horders ws hfresh
    obtain ⟨ws', hrun, hmerged⟩ := (hfresh.merged umask store roots content).run umask h humask
      hblobs hmake hfits List.drop_zero horders
    rw [Nat.zero_add, h.length] at hmerged
    have hdirBound : ∀ i path, DirAt store roots i path → i < roots.length := by
      rintro i path ⟨root, v, hroot, -⟩
      exact (List.getElem?_eq_some_iff.mp hroot).1
    have hfileBound : ∀ i path blob mode, FileAt store roots i path blob mode →
        i < roots.length := by
      rintro i path blob mode ⟨root, v, hroot, -⟩
      exact (List.getElem?_eq_some_iff.mp hroot).1
    refine ⟨ws', hrun, fun path hpath => ⟨?_, ?_⟩, hmerged.file, fun path hpath habsent =>
      hmerged.absent path hpath fun j _ => habsent j⟩
    · rintro ⟨bits, hnode⟩
      by_contra hnodir
      push Not at hnodir
      by_cases hfile : ∃ j blob mode, FileAt store roots j path blob mode
      · obtain ⟨j, blob, mode, hat⟩ := hfile
        obtain ⟨l, b, m, hlast⟩ := exists_lastFileAt (hfileBound j path blob mode hat) hat
        rw [hmerged.file l path b m hlast] at hnode
        exact diskNode_ne_dir umask m (content b) bits (Option.some.inj hnode)
      · push Not at hfile
        rw [hmerged.absent path hpath fun j _ => ⟨hnodir j, hfile j⟩] at hnode
        cases hnode
    · rintro ⟨i, hdir⟩
      exact hmerged.dir i path (hdirBound i path hdir) hdir

def execEntries : List TreeEntry := [⟨['f'], .blob emptyBlobHex, some 493, some 8⟩]

def execHex : Text :=
  addressText 0xe01c71e823f01170240f0d9bf6c04f72f3ab5f9aff953fb3a0072f78e2b6ca0f

def sharedHost : Host := treesHost [(innerEntries, innerHex), (execEntries, execHex)] []

theorem sharedHost_faithful : Faithful sharedHost :=
  tableHost_faithful (by decide +kernel) (by decide +kernel) (by decide +kernel)
    (by decide +kernel)

def innerStore : Store sharedHost := (putTree innerEntries (emptyStore sharedHost)).2

def sharedStore : Store sharedHost := (putTree execEntries innerStore).2

theorem shared_addresses :
    treeHash sharedHost innerEntries = innerHex ∧ treeHash sharedHost execEntries = execHex := by
  decide +kernel

/-- A directory with one file in it. -/
theorem oneFile_entryAt {store : Store host} {root : Text} {e : TreeEntry} {hex : Text}
    (read : treeEntries store root = .ok [e]) (htarget : e.target = .blob hex)
    (path : List Text) : entryAt store root path = if path = [e.name] then some e else none := by
  cases path with
  | nil => simp [entryAt]
  | cons name rest =>
    rw [entryAt_of_findNamed read]
    by_cases hname : e.name = name
    · subst hname
      cases rest with
      | nil => simp [findNamed, entryFrom]
      | cons next more => simp [findNamed, entryFrom, htarget]
    · simp [findNamed, hname, Ne.symm hname]

theorem shared_reads : treeEntries sharedStore innerHex = .ok innerEntries ∧
    treeEntries sharedStore execHex = .ok execEntries := by
  have hf := sharedHost_faithful
  have hinner := treeEntries_putTree hf innerEntries (emptyStore sharedHost)
  have hexec := treeEntries_putTree hf execEntries innerStore
  rw [putTree_fst, shared_addresses.1] at hinner
  rw [putTree_fst, shared_addresses.2] at hexec
  exact ⟨treeEntries_of_extends (extends_putTree hf execEntries innerStore) hinner, hexec⟩

theorem oneFile_plain {store : Store host} {root : Text} {e : TreeEntry} {hex : Text}
    (read : treeEntries store root = .ok [e]) (address : root = treeHash host [e])
    (htarget : e.target = .blob hex) (hname : Clean [e.name]) : PlainTree store root where
  stored := by
    refine .mk read address (List.nodup_singleton _) fun x hx sub hsub => ?_
    obtain rfl := List.mem_singleton.mp hx
    rw [htarget] at hsub
    cases hsub
  plain := by
    intro path hpath
    rw [oneFile_entryAt read htarget] at hpath
    split_ifs at hpath with heq
    · rwa [heq]
    · exact absurd rfl hpath

theorem shared_plain : ∀ root ∈ [innerHex, execHex], PlainTree sharedStore root := by
  have hclean : Clean [['f']] := by
    intro s hs
    obtain rfl := List.mem_singleton.mp hs
    decide
  intro root hroot
  rcases List.mem_cons.mp hroot with rfl | hroot
  · exact oneFile_plain shared_reads.1 shared_addresses.1.symm rfl hclean
  · obtain rfl := List.mem_singleton.mp hroot
    exact oneFile_plain shared_reads.2 shared_addresses.2.symm rfl hclean

theorem shared_views {i : ℕ} {root : Text} {path : List Text} {v : View}
    (hroot : [innerHex, execHex][i]? = some root) (hv : viewAt sharedStore root path = some v) :
    path = [['f']] ∧ (i = 0 ∧ v = ⟨.file emptyBlobHex, some 420, some 7⟩ ∨
      i = 1 ∧ v = ⟨.file emptyBlobHex, some 493, some 8⟩) := by
  have hcases : i = 0 ∧ root = innerHex ∨ i = 1 ∧ root = execHex := by
    rcases i with - | - | i
    · exact .inl ⟨rfl, (Option.some.inj hroot).symm⟩
    · exact .inr ⟨rfl, (Option.some.inj hroot).symm⟩
    · simp at hroot
  rcases hcases with ⟨rfl, rfl⟩ | ⟨rfl, rfl⟩
  · rw [viewAt, oneFile_entryAt shared_reads.1 rfl] at hv
    split_ifs at hv with hpath
    · exact ⟨hpath, .inl ⟨rfl, (Option.some.inj hv).symm⟩⟩
    · cases hv
  · rw [viewAt, oneFile_entryAt shared_reads.2 rfl] at hv
    split_ifs at hv with hpath
    · exact ⟨hpath, .inr ⟨rfl, (Option.some.inj hv).symm⟩⟩
    · cases hv

theorem shared_files :
    FileAt sharedStore [innerHex, execHex] 0 [['f']] emptyBlobHex (some 420) ∧
      FileAt sharedStore [innerHex, execHex] 1 [['f']] emptyBlobHex (some 493) := by
  refine ⟨⟨innerHex, ⟨.file emptyBlobHex, some 420, some 7⟩, rfl, ?_, rfl, rfl⟩,
    ⟨execHex, ⟨.file emptyBlobHex, some 493, some 8⟩, rfl, ?_, rfl, rfl⟩⟩
  · rw [viewAt, oneFile_entryAt shared_reads.1 rfl, if_pos rfl]
    rfl
  · rw [viewAt, oneFile_entryAt shared_reads.2 rfl, if_pos rfl]
    rfl

def oddHex : List Text :=
  [addressText 0x013aeee17c89807845eadb6ad391bd04e85ac2472d7da7655e157d3ba6ce6f8d,
    addressText 0x5ecd48f235ab5a81e67f2e0ad149762f1969e63faf7147a1d6fb2db8b20184bd,
    addressText 0x519a93921dc1d4f958fa91297dae133c65daba76aa2055b6325325bf45af3d2a]

def nulBlobHex : Text :=
  addressText 0x6e340b9cffb37a989ca544e6bb780a2c78901d3fb33738768511a30617afa01d

def nulName : TreeEntry := ⟨['\x00'], .blob emptyBlobHex, some 420, none⟩

def emptyLink : TreeEntry := ⟨['l'], .blob emptyBlobHex, some modeSymlink, none⟩

def nulLink : TreeEntry := ⟨['l'], .blob nulBlobHex, some modeSymlink, none⟩

/-- A file whose name is a NUL, a link with no text and one whose text is a NUL. -/
def oddEntries : List TreeEntry := [nulName, emptyLink, nulLink]

def oddHost : Host := treesHost ((oddEntries.map fun e => [e]).zip oddHex) []

def oddBlob (hash : Text) : Except StorageError Bytes :=
  .ok (if hash = nulBlobHex then [0] else [])

theorem oddHost_faithful : Faithful oddHost :=
  tableHost_faithful (by decide +kernel) (by decide +kernel) (by decide +kernel)
    (by decide +kernel)

/-- A tree with this entry alone is flattened and folded, and cannot be materialised. -/
def Unmakeable (e : TreeEntry) : Prop :=
  ∃ root, ∃ store : Store oddHost, treeEntries store root = .ok [e] ∧
    PlainTree store root ∧ ∃ manifest, Flattens store (fun _ => 0) root manifest ∧
      (¬ ∃ conflict, foldManifests [manifest, manifest] = .error conflict) ∧
      ∀ orders, List.Forall₂ (fun m order => List.Perm order m.entries) [manifest, manifest]
        orders → ∀ ws ws',
          materializeAll 0o22 oddBlob ([manifest, manifest].zip orders) ws ≠ .ok ws'

theorem oddEntry_unmakeable {e : TreeEntry} (he : e ∈ oddEntries) : Unmakeable e := by
  have hf := oddHost_faithful
  obtain ⟨hex, htarget, hclean, hodd⟩ : ∃ hex, e.target = .blob hex ∧ Clean [e.name] ∧
      (Workspace.spelled [e.name] = false ∨ isSymlinkMode e.mode = true ∧
        Workspace.linkText (if hex = nulBlobHex then [0] else []) = false) := by
    have hname : ∀ name : Text, name ≠ [] ∧ name ≠ ['.'] ∧ name ≠ ['.', '.'] ∧ '/' ∉ name →
        Clean [name] := by
      intro name h s hs
      obtain rfl := List.mem_singleton.mp hs
      exact h
    rcases List.mem_cons.mp he with rfl | he
    · exact ⟨_, rfl, hname _ (by decide), .inl (by decide)⟩
    · rcases List.mem_cons.mp he with rfl | he
      · exact ⟨_, rfl, hname _ (by decide), .inr (by decide +kernel)⟩
      · obtain rfl := List.mem_singleton.mp he
        exact ⟨_, rfl, hname _ (by decide), .inr (by decide +kernel)⟩
  obtain ⟨root, hroot⟩ : ∃ root, root = (putTree [e] (emptyStore oddHost)).1 := ⟨_, rfl⟩
  have hread : treeEntries (putTree [e] (emptyStore oddHost)).2 root = .ok [e] := by
    rw [hroot]
    exact treeEntries_putTree hf [e] (emptyStore oddHost)
  have hplain : PlainTree (putTree [e] (emptyStore oddHost)).2 root :=
    oneFile_plain hread (by rw [hroot, putTree_fst]) htarget hclean
  obtain ⟨listed, hl, hflat⟩ := flattenTree_lists hplain fun _ => 0
  have hview : ∀ (i : ℕ) path v root', [root, root][i]? = some root' →
      viewAt (putTree [e] (emptyStore oddHost)).2 root' path = some v → v.kind = .file hex := by
    intro i path v root' hroot' hv
    obtain rfl : root = root' := by
      have hmem := List.mem_of_getElem? hroot'
      simp only [List.mem_cons, List.not_mem_nil, or_false, or_self] at hmem
      exact hmem.symm
    rw [viewAt, oneFile_entryAt hread htarget] at hv
    split_ifs at hv with hpath
    · obtain rfl := Option.some.inj hv
      rw [viewOf, htarget]
      rfl
    · cases hv
  refine ⟨root, _, hread, hplain, _, hflat, ?_, ?_⟩
  · have hplains : ∀ r ∈ [root, root], PlainTree (putTree [e] (emptyStore oddHost)).2 r := by
      intro r hr
      rw [List.mem_cons, List.mem_singleton, or_self] at hr
      rw [hr]
      exact hplain
    have h := listing_of_flattens hplains (.cons hflat (.cons hflat .nil))
    rw [(foldManifests_exact fun m hm => h.distinct hm).1, h.conflicting_iff]
    rintro ⟨path, i, j, blob, mode, ⟨root', v, hroot', hv, hkind⟩, -⟩
    rw [hview i path v root' hroot' hv] at hkind
    cases hkind
  · rintro orders horders ws ws' hrun
    obtain ⟨order, rest, horder, -, rfl⟩ := List.forall₂_cons_left_iff.mp horders
    simp only [List.zip_cons_cons, materializeAll] at hrun
    split at hrun
    · cases hrun
    · next made hmade =>
      have hx : ([e.name], e) ∈ filesOf listed := by
        refine mem_filesOf.mpr ⟨(hl.mem _).mpr ?_, by rw [isDirectory, htarget]⟩
        rw [oneFile_entryAt hread htarget, if_pos rfl]
      have hentry := horder.mem_iff.mpr (List.mem_map_of_mem (f := flatEntryOf fun _ => 0) hx)
      have hblob : oddBlob (flatEntryOf (fun _ => 0) ([e.name], e)).blob =
          .ok (if hex = nulBlobHex then [0] else []) := by
        simp only [flatEntryOf, htarget, targetHex, oddBlob]
      exact materializeFlat_refused 0o22 hentry hblob (safeJoin_joinSlash hclean (by simp)) hodd ws
        made hmade

/-- Trees the fold has no conflict in and no workspace can be made of. -/
theorem fan_in_unmakeable : Unmakeable nulName ∧ Unmakeable emptyLink ∧ Unmakeable nulLink :=
  ⟨oddEntry_unmakeable (List.mem_cons_self ..),
    oddEntry_unmakeable (List.mem_cons_of_mem _ List.mem_cons_self),
    oddEntry_unmakeable (List.mem_cons_of_mem _ (List.mem_cons_of_mem _ List.mem_cons_self))⟩

def newWorkspace : Workspace where
  nodes path := if path = [] then some (.dir 0o755) else none
  mtimes _ := none

theorem newWorkspace_fresh : Fresh newWorkspace :=
  ⟨⟨0o755, rfl, by decide +kernel⟩, fun _ hpath => if_neg hpath⟩

/-- The second snapshot made the file executable, and that is what the workspace gets. -/
theorem fan_in_chmod : ∃ manifests,
    List.Forall₂ (Flattens sharedStore fun _ => 0) [innerHex, execHex] manifests ∧
    (∃ report, foldManifests manifests = .ok report ∧ ⟨['f'], 1, 0⟩ ∈ report) ∧
    ∃ ws', materializeAll 0o22 (fun _ => .ok []) (manifests.zip (manifests.map (·.entries)))
        newWorkspace = .ok ws' ∧ ws'.nodes [['f']] = some (.file [] 0o755) := by
  obtain ⟨inner, -, hinner⟩ := flattenTree_lists (shared_plain innerHex (by simp)) fun _ => 0
  obtain ⟨exec, -, hexec⟩ := flattenTree_lists (shared_plain execHex (by simp)) fun _ => 0
  have hflat : List.Forall₂ (Flattens sharedStore fun _ => 0) [innerHex, execHex]
      [manifestOf (fun _ => 0) innerHex inner, manifestOf (fun _ => 0) execHex exec] :=
    .cons hinner (.cons hexec .nil)
  let nothing : Text → Bytes := fun _ => []
  have hblobs : ∀ i path blob mode,
      FileAt sharedStore [innerHex, execHex] i path blob mode →
        (Except.ok (nothing blob) : Except StorageError Bytes) = .ok (nothing blob) :=
    fun _ _ _ _ _ => rfl
  have humask : OwnerKept 0o22 := by
    show ownerHas (Nat.ldiff 0o777 0o22) 0o700 = true
    decide +kernel
  obtain ⟨herror, hrest⟩ := fan_in_exact 0o22 humask shared_plain hflat hblobs
  have hnone : ¬ ∃ conflict, foldManifests
      [manifestOf (fun _ => 0) innerHex inner, manifestOf (fun _ => 0) execHex exec] =
        .error conflict := by
    rw [herror]
    rintro ⟨path, i, j, blob, mode, ⟨root, v, hroot, hv, hkind⟩, -⟩
    rcases shared_views hroot hv with ⟨-, ⟨-, rfl⟩ | ⟨-, rfl⟩⟩ <;> cases hkind
  have hmake : Makeable sharedStore [innerHex, execHex] nothing := by
    constructor
    · rintro i path (⟨root, v, hroot, hv, -⟩ | ⟨blob, mode, root, v, hroot, hv, -⟩)
      · rw [(shared_views hroot hv).1]
        decide
      · rw [(shared_views hroot hv).1]
        decide
    · rintro i path blob mode ⟨root, v, hroot, hv, -, rfl⟩ hlink
      rcases shared_views hroot hv with ⟨-, ⟨-, rfl⟩ | ⟨-, rfl⟩⟩ <;> cases hlink
  obtain ⟨⟨report, hreport, -, -, hmem⟩, hmerge⟩ := hrest hnone
  obtain ⟨ws', hrun, -, hlast, -⟩ := hmerge hmake _
    (.cons (List.Perm.refl _) (.cons (List.Perm.refl _) .nil)) newWorkspace newWorkspace_fresh
  refine ⟨_, hflat, ⟨report, hreport, (hmem _).mpr ⟨[['f']], rfl, ?_⟩⟩, ws', hrun, ?_⟩
  · refine ⟨emptyBlobHex, some 493, emptyBlobHex, some 420, shared_files.2,
      ⟨Nat.zero_lt_one, shared_files.1, ?_⟩, by simp⟩
    intro k (h0 : 0 < k) (h1 : k < 1)
    omega
  · refine hlast 1 [['f']] emptyBlobHex (some 493) ⟨Nat.one_lt_two, shared_files.2, ?_⟩
    intro k (h1 : 1 < k) (h2 : k < 2)
    omega

end Scarab.Storage
