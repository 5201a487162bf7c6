import Scarab.TreeStore

/-!
# The report of a fan-in

Before any write the manifests of all inputs are folded, in their order, into one map of what
was last seen at each path. A directory against a file is refused, and a file that replaces a
different one is reported.
-/
namespace Scarab.Storage

open Depot

inductive FanInKind where
  | file
  | symlink
  | dir
  deriving DecidableEq, Repr

structure InputCollision where
  path : Text
  winner : ℕ
  loser : ℕ
  deriving DecidableEq, Repr

structure InputTypeConflict where
  path : Text
  earlierRoot : ℕ
  earlierKind : FanInKind
  laterRoot : ℕ
  laterKind : FanInKind
  deriving DecidableEq, Repr

structure Seen where
  root : ℕ
  kind : FanInKind
  blob : Option Text
  mode : Option ℕ
  deriving DecidableEq, Repr

def isSymlinkMode : Option ℕ → Bool
  | some m => m &&& 0o170000 = modeSymlink
  | none => false

def entryKind (entry : FlatEntry) : FanInKind :=
  if isSymlinkMode entry.mode then .symlink else .file

def foldDir (i : ℕ) (seen : SortedMap Text Seen) (dir : FlatDir) :
    Except InputTypeConflict (SortedMap Text Seen) :=
  match seen.get dir.path with
  | none => .ok (seen.insert dir.path ⟨i, .dir, none, dir.mode⟩)
  | some prev =>
      if prev.kind = .dir then .ok (seen.insert dir.path ⟨i, prev.kind, prev.blob, dir.mode⟩)
      else .error ⟨dir.path, prev.root, prev.kind, i, .dir⟩

def foldEntry (i : ℕ) (acc : SortedMap Text Seen × List InputCollision) (entry : FlatEntry) :
    Except InputTypeConflict (SortedMap Text Seen × List InputCollision) :=
  let now : Seen := ⟨i, entryKind entry, some entry.blob, entry.mode⟩
  match acc.1.get entry.path with
  | none => .ok (acc.1.insert entry.path now, acc.2)
  | some prev =>
      if prev.kind = .dir then .error ⟨entry.path, prev.root, prev.kind, i, entryKind entry⟩
      else if prev.blob = now.blob ∧ prev.kind = now.kind ∧ prev.mode = now.mode then
        .ok (acc.1.insert entry.path now, acc.2)
      else .ok (acc.1.insert entry.path now, acc.2 ++ [⟨entry.path, i, prev.root⟩])

def foldManifest (i : ℕ) (manifest : FlatManifest)
    (acc : SortedMap Text Seen × List InputCollision) :
    Except InputTypeConflict (SortedMap Text Seen × List InputCollision) :=
  match manifest.dirs.foldlM (foldDir i) acc.1 with
  | .error conflict => .error conflict
  | .ok seen => manifest.entries.foldlM (foldEntry i) (seen, acc.2)

def foldFrom : ℕ → List FlatManifest → SortedMap Text Seen × List InputCollision →
    Except InputTypeConflict (List InputCollision)
  | _, [], acc => .ok acc.2
  | i, manifest :: manifests, acc =>
      match foldManifest i manifest acc with
      | .error conflict => .error conflict
      | .ok acc => foldFrom (i + 1) manifests acc

def foldManifests (manifests : List FlatManifest) :
    Except InputTypeConflict (List InputCollision) := foldFrom 0 manifests (∅, [])

theorem entryKind_ne_dir (entry : FlatEntry) : entryKind entry ≠ .dir := by
  unfold entryKind
  split <;> nofun

theorem foldDir_ok {i : ℕ} {seen : SortedMap Text Seen} {dir : FlatDir}
    (h : ∀ s, seen.get dir.path = some s → s.kind = .dir) :
    ∃ s : Seen, s.kind = .dir ∧ foldDir i seen dir = .ok (seen.insert dir.path s) := by
  cases hget : seen.get dir.path with
  | none => exact ⟨⟨i, .dir, none, dir.mode⟩, rfl, by rw [foldDir, hget]⟩
  | some prev =>
    have hkind := h prev hget
    exact ⟨⟨i, prev.kind, prev.blob, dir.mode⟩, hkind, by simp only [foldDir, hget, if_pos hkind]⟩

theorem foldDirs_ok {i : ℕ} {dirs : List FlatDir} {seen : SortedMap Text Seen}
    (h : ∀ dir ∈ dirs, ∀ s, seen.get dir.path = some s → s.kind = .dir) :
    ∃ seen', dirs.foldlM (foldDir i) seen = .ok seen' ∧
      (∀ dir ∈ dirs, ∃ s, seen'.get dir.path = some s ∧ s.kind = .dir) ∧
      ∀ path, path ∉ dirs.map FlatDir.path → seen'.get path = seen.get path := by
  induction dirs generalizing seen with
  | nil => exact ⟨seen, rfl, fun _ hd => (List.not_mem_nil hd).elim, fun _ _ => rfl⟩
  | cons dir dirs ih =>
    obtain ⟨s, hs, hstep⟩ := foldDir_ok (i := i) (h dir List.mem_cons_self)
    have hnext : ∀ d ∈ dirs, ∀ x, (seen.insert dir.path s).get d.path = some x →
        x.kind = .dir := by
      intro d hd x hx
      rw [SortedMap.get_insert] at hx
      split_ifs at hx with hpath
      · rw [← Option.some.inj hx]
        exact hs
      · exact h d (List.mem_cons_of_mem _ hd) x hx
    obtain ⟨seen', hrun, hin, hout⟩ := ih hnext
    refine ⟨seen', ?_, ?_, ?_⟩
    · rw [List.foldlM_cons, hstep]
      exact hrun
    · intro d hd
      by_cases hmem : ∃ x ∈ dirs, x.path = d.path
      · obtain ⟨x, hx, hpath⟩ := hmem
        rw [← hpath]
        exact hin x hx
      · have hnot : d.path ∉ dirs.map FlatDir.path := by simpa using hmem
        rcases List.mem_cons.mp hd with rfl | hd
        · refine ⟨s, ?_, hs⟩
          rw [hout _ hnot, SortedMap.get_insert, if_pos rfl]
        · exact absurd ⟨d, hd, rfl⟩ hmem
    · intro path hpath
      rw [List.map_cons, List.mem_cons, not_or] at hpath
      rw [hout path hpath.2, SortedMap.get_insert, if_neg hpath.1]

theorem foldDirs_error {i : ℕ} {dirs : List FlatDir} {seen : SortedMap Text Seen}
    (h : ∃ dir ∈ dirs, ∃ s, seen.get dir.path = some s ∧ s.kind ≠ .dir) :
    ∃ conflict, dirs.foldlM (foldDir i) seen = .error conflict := by
  induction dirs generalizing seen with
  | nil =>
    obtain ⟨dir, hdir, -⟩ := h
    cases hdir
  | cons dir dirs ih =>
    by_cases hhere : ∀ s, seen.get dir.path = some s → s.kind = .dir
    · obtain ⟨s, hs, hstep⟩ := foldDir_ok (i := i) hhere
      have hnext : ∃ d ∈ dirs, ∃ x, (seen.insert dir.path s).get d.path = some x ∧
          x.kind ≠ .dir := by
        obtain ⟨d, hd, x, hx, hkind⟩ := h
        have hpath : d.path ≠ dir.path := fun heq => hkind (hhere x (heq ▸ hx))
        rcases List.mem_cons.mp hd with rfl | hd
        · exact absurd rfl hpath
        · exact ⟨d, hd, x, by rw [SortedMap.get_insert, if_neg hpath, hx], hkind⟩
      obtain ⟨conflict, hrun⟩ := ih hnext
      refine ⟨conflict, ?_⟩
      rw [List.foldlM_cons, hstep]
      exact hrun
    · push Not at hhere
      obtain ⟨s, hget, hkind⟩ := hhere
      refine ⟨⟨dir.path, s.root, s.kind, i, .dir⟩, ?_⟩
      rw [List.foldlM_cons]
      simp only [foldDir, hget, if_neg hkind]
      rfl

/-- What one entry adds to the report. -/
def collisionAt (i : ℕ) (seen : SortedMap Text Seen) (entry : FlatEntry) : Option InputCollision :=
  match seen.get entry.path with
  | none => none
  | some prev =>
      if prev.blob = some entry.blob ∧ prev.kind = entryKind entry ∧ prev.mode = entry.mode then
        none
      else some ⟨entry.path, i, prev.root⟩

theorem foldEntry_ok {i : ℕ} {seen : SortedMap Text Seen} {report : List InputCollision}
    {entry : FlatEntry} (h : ∀ s, seen.get entry.path = some s → s.kind ≠ .dir) :
    foldEntry i (seen, report) entry =
      .ok (seen.insert entry.path ⟨i, entryKind entry, some entry.blob, entry.mode⟩,
        report ++ (collisionAt i seen entry).toList) := by
  cases hget : seen.get entry.path with
  | none => simp [foldEntry, collisionAt, hget]
  | some prev =>
    simp only [foldEntry, collisionAt, hget, if_neg (h prev hget)]
    split_ifs <;> simp

theorem foldEntries_ok {i : ℕ} {entries : List FlatEntry}
    (hnodup : (entries.map FlatEntry.path).Nodup) {seen : SortedMap Text Seen}
    {report : List InputCollision}
    (h : ∀ entry ∈ entries, ∀ s, seen.get entry.path = some s → s.kind ≠ .dir) :
    ∃ seen', entries.foldlM (foldEntry i) (seen, report) =
        .ok (seen', report ++ entries.filterMap (collisionAt i seen)) ∧
      (∀ entry ∈ entries, seen'.get entry.path =
        some ⟨i, entryKind entry, some entry.blob, entry.mode⟩) ∧
      ∀ path, path ∉ entries.map FlatEntry.path → seen'.get path = seen.get path := by
  induction entries generalizing seen report with
  | nil =>
    exact ⟨seen, by simp [pure, Except.pure], fun _ he => (List.not_mem_nil he).elim,
      fun _ _ => rfl⟩
  | cons entry entries ih =>
    rw [List.map_cons, List.nodup_cons] at hnodup
    obtain ⟨hnot, hnodup⟩ := hnodup
    have hother : ∀ e ∈ entries, e.path ≠ entry.path := fun e he heq =>
      hnot (heq ▸ List.mem_map_of_mem he)
    have hget : ∀ e ∈ entries, (seen.insert entry.path
        ⟨i, entryKind entry, some entry.blob, entry.mode⟩).get e.path = seen.get e.path := by
      intro e he
      rw [SortedMap.get_insert, if_neg (hother e he)]
    have hnext : ∀ e ∈ entries, ∀ s, (seen.insert entry.path
        ⟨i, entryKind entry, some entry.blob, entry.mode⟩).get e.path = some s →
          s.kind ≠ .dir := by
      intro e he s hs
      rw [hget e he] at hs
      exact h e (List.mem_cons_of_mem _ he) s hs
    obtain ⟨seen', hrun, hin, hout⟩ :=
      @ih hnodup _ (report ++ (collisionAt i seen entry).toList) hnext
    have hsame : entries.filterMap (collisionAt i (seen.insert entry.path
        ⟨i, entryKind entry, some entry.blob, entry.mode⟩)) =
          entries.filterMap (collisionAt i seen) :=
      List.filterMap_congr fun e he => by simp only [collisionAt, hget e he]
    refine ⟨seen', ?_, ?_, ?_⟩
    · rw [List.foldlM_cons, foldEntry_ok (h entry List.mem_cons_self)]
      refine hrun.trans ?_
      rw [hsame, List.append_assoc, List.filterMap_cons]
      cases collisionAt i seen entry <;> rfl
    · intro e he
      rcases List.mem_cons.mp he with rfl | he
      · rw [hout _ hnot, SortedMap.get_insert, if_pos rfl]
      · exact hin e he
    · intro path hpath
      rw [List.map_cons, List.mem_cons, not_or] at hpath
      rw [hout path hpath.2, SortedMap.get_insert, if_neg hpath.1]

theorem foldEntries_error {i : ℕ} {entries : List FlatEntry} {seen : SortedMap Text Seen}
    {report : List InputCollision}
    (h : ∃ entry ∈ entries, ∃ s, seen.get entry.path = some s ∧ s.kind = .dir) :
    ∃ conflict, entries.foldlM (foldEntry i) (seen, report) = .error conflict := by
  induction entries generalizing seen report with
  | nil =>
    obtain ⟨entry, hentry, -⟩ := h
    cases hentry
  | cons entry entries ih =>
    by_cases hhere : ∀ s, seen.get entry.path = some s → s.kind ≠ .dir
    · have hnext : ∃ e ∈ entries, ∃ s, (seen.insert entry.path
          ⟨i, entryKind entry, some entry.blob, entry.mode⟩).get e.path = some s ∧
            s.kind = .dir := by
        obtain ⟨e, he, s, hs, hkind⟩ := h
        have hpath : e.path ≠ entry.path := fun heq => hhere s (heq ▸ hs) hkind
        rcases List.mem_cons.mp he with rfl | he
        · exact absurd rfl hpath
        · exact ⟨e, he, s, by rw [SortedMap.get_insert, if_neg hpath, hs], hkind⟩
      obtain ⟨conflict, hrun⟩ := ih hnext
      refine ⟨conflict, ?_⟩
      rw [List.foldlM_cons, foldEntry_ok hhere]
      exact hrun
    · push Not at hhere
      obtain ⟨s, hget, hkind⟩ := hhere
      refine ⟨⟨entry.path, s.root, s.kind, i, entryKind entry⟩, ?_⟩
      rw [List.foldlM_cons]
      simp only [foldEntry, hget, if_pos hkind]
      rfl

section inputs

variable (manifests : List FlatManifest)

def fileOf (i : ℕ) (path : Text) : Option FlatEntry :=
  (manifests[i]?).bind fun m => m.entries.find? (·.path = path)

def HasDir (i : ℕ) (path : Text) : Prop :=
  ∃ m, manifests[i]? = some m ∧ path ∈ m.dirs.map FlatDir.path

/-- The last of the first `i` inputs that has a file at a path. -/
def lastFile (path : Text) : ℕ → Option (ℕ × FlatEntry)
  | 0 => none
  | i + 1 =>
      match fileOf manifests i path with
      | some entry => some (i, entry)
      | none => lastFile path i

/-- The record of an entry that replaces a different one. -/
def expectedAt (i : ℕ) (entry : FlatEntry) : Option InputCollision :=
  match lastFile manifests entry.path i with
  | none => none
  | some (j, earlier) =>
      if earlier.blob = entry.blob ∧ entryKind earlier = entryKind entry ∧
          earlier.mode = entry.mode then none
      else some ⟨entry.path, i, j⟩

/-- Every replacement, input by input and in the order of the replacing manifest. -/
def expectedFrom : ℕ → List FlatManifest → List InputCollision
  | _, [] => []
  | i, m :: rest => m.entries.filterMap (expectedAt manifests i) ++ expectedFrom (i + 1) rest

/-- Some path is a directory in one input and a file or a symlink in another. -/
def Conflicting : Prop :=
  ∃ path i j, HasDir manifests i path ∧ ∃ entry, fileOf manifests j path = some entry

/-- What the fold remembers of the first `i` inputs. -/
structure Knows (i : ℕ) (seen : SortedMap Text Seen) : Prop where
  file : ∀ path j entry, lastFile manifests path i = some (j, entry) →
    seen.get path = some ⟨j, entryKind entry, some entry.blob, entry.mode⟩
  dir : ∀ path j, j < i → HasDir manifests j path →
    ∃ s, seen.get path = some s ∧ s.kind = .dir
  absent : ∀ path, lastFile manifests path i = none →
    (∀ j, j < i → ¬ HasDir manifests j path) → seen.get path = none

/-- A manifest lists no path twice. -/
def Distinct (m : FlatManifest) : Prop :=
  (m.dirs.map FlatDir.path ++ m.entries.map FlatEntry.path).Nodup

end inputs

variable {manifests : List FlatManifest}

theorem lastFile_some {path : Text} {i j : ℕ} {entry : FlatEntry}
    (h : lastFile manifests path i = some (j, entry)) :
    j < i ∧ fileOf manifests j path = some entry ∧
      ∀ k, j < k → k < i → fileOf manifests k path = none := by
  induction i with
  | zero => cases h
  | succ i ih =>
    simp only [lastFile] at h
    split at h
    · next found hfound =>
      obtain ⟨rfl, rfl⟩ := Prod.mk.inj (Option.some.inj h)
      exact ⟨Nat.lt_succ_self i, hfound, fun k hik hki => by omega⟩
    · next hnone =>
      obtain ⟨hlt, hfile, hbetween⟩ := ih h
      refine ⟨by omega, hfile, fun k hjk hki => ?_⟩
      rcases Nat.lt_succ_iff_lt_or_eq.mp hki with hlt | rfl
      · exact hbetween k hjk hlt
      · exact hnone

theorem lastFile_none {path : Text} {i : ℕ} (h : lastFile manifests path i = none) :
    ∀ j, j < i → fileOf manifests j path = none := by
  induction i with
  | zero => exact fun j hj => absurd hj (Nat.not_lt_zero j)
  | succ i ih =>
    simp only [lastFile] at h
    split at h
    · cases h
    · next hnone =>
      intro j hj
      rcases Nat.lt_succ_iff_lt_or_eq.mp hj with hlt | rfl
      · exact ih h j hlt
      · exact hnone

theorem exists_lastFile {path : Text} {i j : ℕ} {entry : FlatEntry} (hj : j < i)
    (h : fileOf manifests j path = some entry) :
    ∃ found, lastFile manifests path i = some found := by
  cases hlast : lastFile manifests path i with
  | none =>
    rw [lastFile_none hlast j hj] at h
    cases h
  | some found => exact ⟨found, rfl⟩

theorem fileOf_eq_some {i : ℕ} {m : FlatManifest} (hm : manifests[i]? = some m)
    (hdistinct : Distinct m) {entry : FlatEntry} {path : Text} :
    fileOf manifests i path = some entry ↔ entry ∈ m.entries ∧ entry.path = path := by
  have hnodup : (m.entries.map FlatEntry.path).Nodup := (List.nodup_append.mp hdistinct).2.1
  rw [fileOf, hm, Option.bind_some]
  constructor
  · intro h
    exact ⟨List.mem_of_find?_eq_some h, by simpa using List.find?_some h⟩
  · rintro ⟨hmem, rfl⟩
    cases hfind : m.entries.find? (·.path = entry.path) with
    | none => simpa using List.find?_eq_none.mp hfind entry hmem
    | some found =>
      have hpath : found.path = entry.path := by simpa using List.find?_some hfind
      rw [List.inj_on_of_nodup_map hnodup (List.mem_of_find?_eq_some hfind) hmem hpath]

theorem kind_of_file {i : ℕ} {seen : SortedMap Text Seen} (hknows : Knows manifests i seen)
    {path : Text} (hdir : ∀ j, j < i → ¬ HasDir manifests j path) {s : Seen}
    (hs : seen.get path = some s) : s.kind ≠ .dir := by
  cases hlast : lastFile manifests path i with
  | none =>
    rw [hknows.absent path hlast hdir] at hs
    cases hs
  | some found =>
    obtain ⟨j, entry⟩ := found
    rw [hknows.file path j entry hlast] at hs
    rw [← Option.some.inj hs]
    exact entryKind_ne_dir entry

theorem kind_of_dir {i : ℕ} {seen : SortedMap Text Seen} (hknows : Knows manifests i seen)
    {path : Text} (hfile : ∀ j, j < i → fileOf manifests j path = none) {s : Seen}
    (hs : seen.get path = some s) : s.kind = .dir := by
  by_cases hhas : ∃ j, j < i ∧ HasDir manifests j path
  · obtain ⟨j, hj, hhas⟩ := hhas
    obtain ⟨s', hs', hkind⟩ := hknows.dir path j hj hhas
    rw [hs] at hs'
    exact Option.some.inj hs' ▸ hkind
  · push Not at hhas
    cases hlast : lastFile manifests path i with
    | none =>
      rw [hknows.absent path hlast hhas] at hs
      cases hs
    | some found =>
      obtain ⟨j, entry⟩ := found
      obtain ⟨hj, hat, -⟩ := lastFile_some hlast
      rw [hfile j hj] at hat
      cases hat

theorem collisionAt_eq {i : ℕ} {seen seen' : SortedMap Text Seen}
    (hknows : Knows manifests i seen) {entry : FlatEntry}
    (hdir : ∀ j, j < i → ¬ HasDir manifests j entry.path)
    (hsame : seen'.get entry.path = seen.get entry.path) :
    collisionAt i seen' entry = expectedAt manifests i entry := by
  cases hlast : lastFile manifests entry.path i with
  | none => simp only [collisionAt, expectedAt, hsame, hlast, hknows.absent _ hlast hdir]
  | some found =>
    obtain ⟨j, earlier⟩ := found
    simp only [collisionAt, expectedAt, hsame, hlast, hknows.file _ j earlier hlast,
      Option.some.injEq]

section step

variable {i : ℕ} {m : FlatManifest} {seen : SortedMap Text Seen}
  (hknows : Knows manifests i seen) (report : List InputCollision)
include hknows

/-- A manifest that fits the inputs before it is folded into what is known of them. -/
theorem foldManifest_fits (hm : manifests[i]? = some m) (hdistinct : Distinct m)
    (hdirs : ∀ path ∈ m.dirs.map FlatDir.path, ∀ j, j < i → fileOf manifests j path = none)
    (hfiles : ∀ path ∈ m.entries.map FlatEntry.path, ∀ j, j < i → ¬ HasDir manifests j path) :
    ∃ seen', foldManifest i m (seen, report) =
        .ok (seen', report ++ m.entries.filterMap (expectedAt manifests i)) ∧
      Knows manifests (i + 1) seen' := by
  obtain ⟨-, hnodup, hapart⟩ := List.nodup_append.mp hdistinct
  obtain ⟨seen₁, hrun₁, hin₁, hout₁⟩ := foldDirs_ok (i := i) fun dir hdir s hs =>
    kind_of_dir hknows (hdirs dir.path (List.mem_map_of_mem hdir)) hs
  have hkept : ∀ entry ∈ m.entries, seen₁.get entry.path = seen.get entry.path :=
    fun entry hentry => hout₁ _ fun hdir =>
      hapart _ hdir _ (List.mem_map_of_mem hentry) rfl
  have hpath : ∀ entry ∈ m.entries, ∀ j, j < i → ¬ HasDir manifests j entry.path :=
    fun entry hentry => hfiles _ (List.mem_map_of_mem hentry)
  obtain ⟨seen₂, hrun₂, hin₂, hout₂⟩ := @foldEntries_ok i m.entries hnodup seen₁ report
    fun entry hentry s hs => kind_of_file hknows (hpath entry hentry) (hkept entry hentry ▸ hs)
  have hreport : m.entries.filterMap (collisionAt i seen₁) =
      m.entries.filterMap (expectedAt manifests i) :=
    List.filterMap_congr fun entry hentry =>
      collisionAt_eq hknows (hpath entry hentry) (hkept entry hentry)
  refine ⟨seen₂, by simp only [foldManifest, hrun₁, hrun₂, hreport], ?_, ?_, ?_⟩
  · intro path j entry hlast
    simp only [lastFile] at hlast
    split at hlast
    · next found hfound =>
      obtain ⟨rfl, rfl⟩ := Prod.mk.inj (Option.some.inj hlast)
      obtain ⟨hmem, rfl⟩ := (fileOf_eq_some hm hdistinct).mp hfound
      exact hin₂ _ hmem
    · next hnone =>
      obtain ⟨hj, hat, -⟩ := lastFile_some hlast
      have hnotFile : path ∉ m.entries.map FlatEntry.path := by
        intro hmem
        obtain ⟨e, he, hepath⟩ := List.mem_map.mp hmem
        rw [(fileOf_eq_some hm hdistinct).mpr ⟨he, hepath⟩] at hnone
        cases hnone
      have hnotDir : path ∉ m.dirs.map FlatDir.path := by
        intro hmem
        rw [hdirs path hmem j hj] at hat
        cases hat
      rw [hout₂ path hnotFile, hout₁ path hnotDir, hknows.file path j entry hlast]
  · intro path j hj hhas
    by_cases hdir : path ∈ m.dirs.map FlatDir.path
    · obtain ⟨dir, hmem, rfl⟩ := List.mem_map.mp hdir
      obtain ⟨s, hs, hkind⟩ := hin₁ dir hmem
      refine ⟨s, ?_, hkind⟩
      rw [hout₂ _ fun hfile => hapart _ hdir _ hfile rfl, hs]
    · have hlt : j < i := by
        rcases Nat.lt_succ_iff_lt_or_eq.mp hj with hlt | rfl
        · exact hlt
        · obtain ⟨m', hm', hmem⟩ := hhas
          obtain rfl : m = m' := Option.some.inj (hm.symm.trans hm')
          exact absurd hmem hdir
      obtain ⟨s, hs, hkind⟩ := hknows.dir path j hlt hhas
      refine ⟨s, ?_, hkind⟩
      rw [hout₂ path fun hfile => hfiles path hfile j hlt hhas, hout₁ path hdir, hs]
  · intro path hlast hdir
    simp only [lastFile] at hlast
    split at hlast
    · cases hlast
    · next hnone =>
      have hnotFile : path ∉ m.entries.map FlatEntry.path := by
        intro hmem
        obtain ⟨e, he, hepath⟩ := List.mem_map.mp hmem
        rw [(fileOf_eq_some hm hdistinct).mpr ⟨he, hepath⟩] at hnone
        cases hnone
      have hnotDir : path ∉ m.dirs.map FlatDir.path :=
        fun hmem => hdir i (Nat.lt_succ_self i) ⟨m, hm, hmem⟩
      rw [hout₂ path hnotFile, hout₁ path hnotDir]
      exact hknows.absent path hlast fun j hj => hdir j (Nat.lt_succ_of_lt hj)

theorem foldManifest_dir {path : Text} (hpath : path ∈ m.dirs.map FlatDir.path) {j : ℕ}
    (hj : j < i) {entry : FlatEntry} (hfile : fileOf manifests j path = some entry) :
    ∃ conflict, foldManifest i m (seen, report) = .error conflict := by
  obtain ⟨dir, hdir, rfl⟩ := List.mem_map.mp hpath
  obtain ⟨⟨k, last⟩, hlast⟩ := exists_lastFile hj hfile
  obtain ⟨conflict, hrun⟩ := foldDirs_error (i := i)
    ⟨dir, hdir, _, hknows.file _ k last hlast, entryKind_ne_dir last⟩
  exact ⟨conflict, by simp only [foldManifest, hrun]⟩

theorem foldManifest_file (hdistinct : Distinct m) {path : Text} (hpath : path ∈ m.entries.map FlatEntry.path) {j : ℕ}
    (hj : j < i) (hdir : HasDir manifests j path) :
    ∃ conflict, foldManifest i m (seen, report) = .error conflict := by
  obtain ⟨entry, hentry, rfl⟩ := List.mem_map.mp hpath
  obtain ⟨-, -, hapart⟩ := List.nodup_append.mp hdistinct
  obtain ⟨s, hs, hkind⟩ := hknows.dir _ j hj hdir
  cases hrun : m.dirs.foldlM (foldDir i) seen with
  | error conflict => exact ⟨conflict, by simp only [foldManifest, hrun]⟩
  | ok seen₁ =>
    have hall : ∀ dir ∈ m.dirs, ∀ s, seen.get dir.path = some s → s.kind = .dir := by
      by_contra hnot
      push Not at hnot
      obtain ⟨conflict, herror⟩ := foldDirs_error (i := i) hnot
      rw [hrun] at herror
      cases herror
    obtain ⟨seen', hrun', -, hout⟩ := foldDirs_ok (i := i) hall
    obtain rfl : seen₁ = seen' := Except.ok.inj (hrun.symm.trans hrun')
    have hsame : seen₁.get entry.path = some s := by
      rw [hout _ fun hmem => hapart _ hmem _ hpath rfl, hs]
    obtain ⟨conflict, herror⟩ :=
      @foldEntries_error i m.entries seen₁ report ⟨entry, hentry, s, hsame, hkind⟩
    exact ⟨conflict, by simp only [foldManifest, hrun, herror]⟩

end step

/-- No conflict among the first `i` inputs. -/
def Fits (manifests : List FlatManifest) (i : ℕ) : Prop :=
  ∀ path j k, j < i → k < i → HasDir manifests j path → fileOf manifests k path = none

theorem foldFrom_cases (hdistinct : ∀ m ∈ manifests, Distinct m) {rest : List FlatManifest}
    {i : ℕ} (hrest : manifests.drop i = rest) {seen : SortedMap Text Seen}
    (hknows : Knows manifests i seen) (hfits : Fits manifests i) (report : List InputCollision) :
    (Fits manifests (i + rest.length) ∧
      foldFrom i rest (seen, report) = .ok (report ++ expectedFrom manifests i rest)) ∨
    (¬ Fits manifests (i + rest.length) ∧
      ∃ conflict, foldFrom i rest (seen, report) = .error conflict) := by
  induction rest generalizing i seen report with
  | nil => exact .inl ⟨hfits, by simp [foldFrom, expectedFrom]⟩
  | cons m rest ih =>
    have hm : manifests[i]? = some m := by
      have hhead := congrArg List.head? hrest
      rwa [List.head?_drop, List.head?_cons] at hhead
    have hmem : m ∈ manifests := List.mem_of_getElem? hm
    have htail : manifests.drop (i + 1) = rest := by
      rw [← List.tail_drop, hrest, List.tail_cons]
    have hlen : i + (m :: rest).length = i + 1 + rest.length := by
      rw [List.length_cons]
      omega
    rw [hlen]
    by_cases hdirs : ∀ path ∈ m.dirs.map FlatDir.path, ∀ j, j < i → fileOf manifests j path = none
    · by_cases hfiles : ∀ path ∈ m.entries.map FlatEntry.path, ∀ j, j < i →
          ¬ HasDir manifests j path
      · obtain ⟨seen', hrun, hknows'⟩ :=
          foldManifest_fits hknows report hm (hdistinct m hmem) hdirs hfiles
        have hfits' : Fits manifests (i + 1) := by
          intro path j k hj hk hdir
          cases hfile : fileOf manifests k path with
          | none => rfl
          | some entry =>
            exfalso
            rcases Nat.lt_succ_iff_lt_or_eq.mp hk with hk | rfl
            · rcases Nat.lt_succ_iff_lt_or_eq.mp hj with hj | rfl
              · simp [hfits path j k hj hk hdir] at hfile
              · obtain ⟨m', hm', hpath⟩ := hdir
                obtain rfl : m = m' := Option.some.inj (hm.symm.trans hm')
                simp [hdirs path hpath k hk] at hfile
            · obtain ⟨hentry, rfl⟩ := (fileOf_eq_some hm (hdistinct m hmem)).mp hfile
              have hpath : entry.path ∈ m.entries.map FlatEntry.path :=
                List.mem_map_of_mem hentry
              rcases Nat.lt_succ_iff_lt_or_eq.mp hj with hj | rfl
              · exact hfiles _ hpath j hj hdir
              · obtain ⟨m', hm', hdirPath⟩ := hdir
                obtain rfl : m = m' := Option.some.inj (hm.symm.trans hm')
                exact (List.nodup_append.mp (hdistinct m hmem)).2.2 _ hdirPath _ hpath rfl
        rcases ih htail hknows' hfits' (report ++ m.entries.filterMap (expectedAt manifests i)) with
          ⟨hend, hrest'⟩ | ⟨hend, conflict, hrest'⟩
        · refine .inl ⟨hend, ?_⟩
          simp only [foldFrom, hrun, hrest', expectedFrom, List.append_assoc]
        · exact .inr ⟨hend, conflict, by simp only [foldFrom, hrun, hrest']⟩
      · push Not at hfiles
        obtain ⟨path, hpath, j, hj, hdir⟩ := hfiles
        obtain ⟨conflict, hrun⟩ :=
          foldManifest_file hknows report (hdistinct m hmem) hpath hj hdir
        refine .inr ⟨fun hall => ?_, conflict, by simp only [foldFrom, hrun]⟩
        obtain ⟨entry, hentry, hepath⟩ := List.mem_map.mp hpath
        have hnone := hall path j i (by omega) (by omega) hdir
        rw [(fileOf_eq_some hm (hdistinct m hmem)).mpr ⟨hentry, hepath⟩] at hnone
        cases hnone
    · push Not at hdirs
      obtain ⟨path, hpath, j, hj, hfile⟩ := hdirs
      obtain ⟨entry, hentry⟩ := Option.ne_none_iff_exists'.mp hfile
      obtain ⟨conflict, hrun⟩ :=
        foldManifest_dir hknows report hpath hj hentry
      refine .inr ⟨fun hall => hfile ?_, conflict, by simp only [foldFrom, hrun]⟩
      exact hall path i j (by omega) (by omega) ⟨m, hm, hpath⟩

theorem conflicting_iff : Conflicting manifests ↔ ¬ Fits manifests manifests.length := by
  constructor
  · rintro ⟨path, i, j, hdir, entry, hfile⟩ hfits
    obtain ⟨m, hm, -⟩ := id hdir
    obtain ⟨hi, -⟩ := List.getElem?_eq_some_iff.mp hm
    have hj : j < manifests.length := by
      by_contra hge
      rw [fileOf, List.getElem?_eq_none (by omega)] at hfile
      cases hfile
    rw [hfits path i j hi hj hdir] at hfile
    cases hfile
  · intro hfits
    simp only [Fits, not_forall] at hfits
    obtain ⟨path, i, j, -, -, hdir, hfile⟩ := hfits
    exact ⟨path, i, j, hdir, Option.ne_none_iff_exists'.mp hfile⟩

/-- The fold refuses exactly the inputs that conflict, and reports every replacement in the
rest. -/
theorem foldManifests_exact (hdistinct : ∀ m ∈ manifests, Distinct m) :
    ((∃ conflict, foldManifests manifests = .error conflict) ↔ Conflicting manifests) ∧
      (¬ Conflicting manifests →
        foldManifests manifests = .ok (expectedFrom manifests 0 manifests)) := by
  have hknows : Knows manifests 0 ∅ :=
    ⟨fun _ _ _ h => (by cases h), fun _ j hj => absurd hj (Nat.not_lt_zero j), fun _ _ _ => rfl⟩
  have hfits : Fits manifests 0 := fun _ j _ hj => absurd hj (Nat.not_lt_zero j)
  have hcases := foldFrom_cases hdistinct (List.drop_zero) hknows hfits []
  rw [Nat.zero_add, List.nil_append] at hcases
  rw [conflicting_iff, not_not]
  rcases hcases with ⟨hend, hrun⟩ | ⟨hend, conflict, hrun⟩
  · refine ⟨⟨fun ⟨conflict, herror⟩ => ?_, fun hnot => absurd hend hnot⟩, fun _ => hrun⟩
    rw [foldManifests, hrun] at herror
    cases herror
  · exact ⟨⟨fun _ => hend, fun _ => ⟨conflict, hrun⟩⟩, fun hall => absurd hall hend⟩

end Scarab.Storage
