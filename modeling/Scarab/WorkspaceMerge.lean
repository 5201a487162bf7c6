import Scarab.SnapshotManifests
import Scarab.WorkspaceFiles

/-!
# Applying manifests in order

One manifest is applied in three passes: its directories are made and opened, its entries
written, and its directories closed again from the deepest up. Applied one after the other, the
manifests of inputs that do not conflict leave the last file at every path.
-/
namespace Scarab.Storage

open Depot

variable {host : Host} (umask : ℕ)

theorem safeJoin_joinSlash {path : List Text} (hclean : Clean path) (hne : path ≠ []) :
    safeJoin (joinSlash path) = .ok path := by
  have hdots : ['.', '.'] ∉ path := fun hmem => (hclean _ hmem).2.2.1 rfl
  simp only [safeJoin, splitOn_joinSlash hclean hne, hclean.filter_eq]
  rw [if_neg (by simp [hdots, hne])]

/-- The directories made so far are open, and the rest is as it was. -/
structure Prepared (before : Workspace) (made : List (List Text)) (ws : Workspace) : Prop where
  root : Open ws []
  opened : ∀ p ∈ made, Open ws p
  others : ∀ p, p ∉ made → ws.nodes p = before.nodes p

/-- New directories come out open to their owner. -/
def OwnerKept (umask : ℕ) : Prop := ownerHas (Nat.ldiff 0o777 umask) 0o700 = true

theorem open_of_masked {mode : ℕ} (h : ownerHas (mode &&& 0o7777) 0o700 = true) :
    ownerHas mode 0o700 = true := by
  simp only [ownerHas, decide_eq_true_eq] at h ⊢
  rw [Nat.and_assoc] at h
  exact h

theorem ownerHas_widened (mode : ℕ) : ownerHas (mode ||| 0o700) 0o700 = true := by
  simp only [ownerHas, decide_eq_true_eq]
  refine Nat.eq_of_testBit_eq fun i => ?_
  rw [Nat.testBit_and, Nat.testBit_or]
  cases mode.testBit i <;> simp

theorem Prepared.opened_by {before ws ws' : Workspace} {made : List (List Text)}
    (h : Prepared before made ws) {path : List Text} {mode : ℕ} (hmode : ownerHas mode 0o700 = true)
    (hnodes : ∀ p, ws'.nodes p = if p = path then some (.dir mode) else ws.nodes p) :
    Prepared before (made ++ [path]) ws' := by
  have hopen : ∀ p, p = path ∨ Open ws p → Open ws' p := by
    intro p hp
    by_cases heq : p = path
    · exact ⟨mode, by rw [hnodes, if_pos heq], hmode⟩
    · obtain ⟨m, hm, hown⟩ := hp.resolve_left heq
      exact ⟨m, by rw [hnodes, if_neg heq, hm], hown⟩
  refine ⟨hopen [] (.inr h.root), fun p hp => hopen p ?_, fun p hp => ?_⟩
  · rcases List.mem_append.mp hp with hp | hp
    · exact .inr (h.opened p hp)
    · exact .inl (List.mem_singleton.mp hp)
  · rw [List.mem_append, List.mem_singleton, not_or] at hp
    rw [hnodes, if_neg hp.2, h.others p hp.1]

theorem materializeDir_opens (humask : OwnerKept umask) {before ws : Workspace}
    {made : List (List Text)} (h : Prepared before made ws) {dir : FlatDir} {path : List Text}
    (hjoin : safeJoin dir.path = .ok path) (hne : path ≠ [])
    (hspelled : Workspace.spelled path = true)
    (hparents : ∀ p, p <+: path → p ≠ path → p = [] ∨ p ∈ made)
    (hnode : ∀ node, ws.nodes path = some node → ∃ mode, node = .dir mode)
    (deferred : List Deferred) :
    ∃ ws' d, materializeDir umask (ws, deferred) dir = .ok (ws', deferred ++ [d]) ∧ d.1 = path ∧
      Prepared before (made ++ [path]) ws' := by
  have hpassed : Passed ws path := by
    refine ⟨hspelled, fun p hp hproper => ?_⟩
    rcases hparents p hp hproper with rfl | hmem
    · exact h.root
    · exact h.opened p hmem
  cases hat : ws.nodes path with
  | none =>
    have hstat : ws.statMode path = none := by
      simp only [Workspace.statMode, reachable_of_passed hpassed, hat, ↓reduceIte]
    have hrun := createDirAll_new umask hne hpassed hat
    refine ⟨_, (path, dir.mode.map (· &&& 0o7777), dir.mtimeMs), ?_, rfl,
      h.opened_by humask (set_nodes ws path _)⟩
    simp only [materializeDir, hjoin, bind, Except.bind, hstat, hrun]
  | some node =>
    obtain ⟨mode, rfl⟩ := hnode node hat
    have hstat : ws.statMode path = some (mode &&& 0o7777) := by
      simp only [Workspace.statMode, reachable_of_passed hpassed, hat, ↓reduceIte]
    have hrun := createDirAll_present umask hpassed hat
    by_cases howner : mode &&& 0o7777 &&& 0o700 = 0o700
    · refine ⟨ws, (path, dir.mode.map (· &&& 0o7777), dir.mtimeMs), ?_, rfl, ?_⟩
      · simp only [materializeDir, hjoin, bind, Except.bind, hstat, hrun, if_pos howner]
      · refine h.opened_by (open_of_masked (by simpa [ownerHas] using howner)) fun p => ?_
        split_ifs with hp
        · rw [hp, hat]
        · rfl
    · obtain ⟨ws', hset, hnodes⟩ := setPermissions_dir hpassed hat (mode &&& 0o7777 ||| 0o700)
      refine ⟨ws', (path, dir.mode.map (· &&& 0o7777) <|> some (mode &&& 0o7777), dir.mtimeMs), ?_,
        rfl, h.opened_by (ownerHas_widened _) hnodes⟩
      simp only [materializeDir, hjoin, bind, Except.bind, hstat, hrun, if_neg howner, hset]

theorem materializeDirs_open (humask : OwnerKept umask) {dirs : List Listed}
    (hclean : ∀ x ∈ dirs, Clean x.1 ∧ x.1 ≠ [] ∧ Workspace.spelled x.1 = true)
    (hordered : dirs.Pairwise fun a b => ¬ b.1 <+: a.1) {before ws : Workspace} {made : List (List Text)} (h : Prepared before made ws)
    (hparents : ∀ x ∈ dirs, ∀ p, p <+: x.1 → p ≠ x.1 →
      p = [] ∨ p ∈ made ++ dirs.map Prod.fst)
    (hnew : ∀ x ∈ dirs, x.1 ∉ made)
    (hnode : ∀ x ∈ dirs, ∀ node, before.nodes x.1 = some node → ∃ mode, node = .dir mode)
    (deferred : List Deferred) :
    ∃ ws' more, (dirs.map flatDirOf).foldlM (materializeDir umask) (ws, deferred) =
        .ok (ws', deferred ++ more) ∧ more.map Prod.fst = dirs.map Prod.fst ∧
      Prepared before (made ++ dirs.map Prod.fst) ws' := by
  induction dirs generalizing ws made deferred with
  | nil => exact ⟨ws, [], by simp [pure, Except.pure], rfl, by simpa using h⟩
  | cons x dirs ih =>
    obtain ⟨hhead, hordered⟩ := List.pairwise_cons.mp hordered
    obtain ⟨hx, hxne, hxspelled⟩ := hclean x List.mem_cons_self
    have hup : ∀ p, p <+: x.1 → p ≠ x.1 → p = [] ∨ p ∈ made := by
      intro p hp hproper
      refine (hparents x List.mem_cons_self p hp hproper).imp_right fun hmem => ?_
      rcases List.mem_append.mp hmem with hmem | hmem
      · exact hmem
      · obtain ⟨y, hy, rfl⟩ := List.mem_map.mp hmem
        rcases List.mem_cons.mp hy with rfl | hy
        · exact absurd rfl hproper
        · exact absurd hp (hhead y hy)
    have hsame := h.others x.1 (hnew x List.mem_cons_self)
    have hjoin : safeJoin (flatDirOf x).path = .ok x.1 := safeJoin_joinSlash hx hxne
    obtain ⟨ws₁, d, hstep, hd, hmade⟩ := materializeDir_opens umask humask h hjoin hxne
      hxspelled hup
      (fun node hat => hnode x List.mem_cons_self node (hsame ▸ hat)) deferred
    have hlater : ∀ y ∈ dirs, y.1 ∉ made ++ [x.1] := by
      intro y hy hmem
      rcases List.mem_append.mp hmem with hmem | hmem
      · exact hnew y (List.mem_cons_of_mem _ hy) hmem
      · rw [List.mem_singleton] at hmem
        exact hhead y hy (hmem ▸ List.prefix_refl x.1)
    obtain ⟨ws', more, hrun, hmore, hdone⟩ := ih
      (fun y hy => hclean y (List.mem_cons_of_mem _ hy)) hordered hmade
      (fun y hy p hp hproper => by
        simpa using hparents y (List.mem_cons_of_mem _ hy) p hp hproper)
      hlater (fun y hy => hnode y (List.mem_cons_of_mem _ hy)) (deferred ++ [d])
    refine ⟨ws', d :: more, ?_, by rw [List.map_cons, List.map_cons, hd, hmore], ?_⟩
    · rw [List.map_cons, List.foldlM_cons, hstep]
      refine hrun.trans ?_
      rw [List.append_assoc, List.singleton_append]
    · simpa using hdone

def targetOf (entry : FlatEntry) : List Text := entry.path.splitOn '/'

/-- An entry that can be written where it belongs. -/
structure Writable (ws : Workspace) (entry : FlatEntry) : Prop where
  join : safeJoin entry.path = .ok (targetOf entry)
  ne_nil : targetOf entry ≠ []
  passed : Passed ws (targetOf entry)
  noDir : ∀ mode, ws.nodes (targetOf entry) ≠ some (.dir mode)

theorem Writable.of_written {ws ws' : Workspace} {entry written : FlatEntry}
    (h : Writable ws entry) (hw : Writable ws written) (hne : targetOf entry ≠ targetOf written)
    {node : FsNode} (hnodes : ∀ p, ws'.nodes p =
      if p = targetOf written then some node else ws.nodes p) : Writable ws' entry where
  join := h.join
  ne_nil := h.ne_nil
  passed := by
    refine passed_congr (fun p hp hproper => ?_) h.passed
    rw [hnodes, if_neg]
    rintro rfl
    obtain ⟨mode, hdir, -⟩ := h.passed.opened _ hp hproper
    exact hw.noDir mode hdir
  noDir := by
    intro mode
    rw [hnodes, if_neg hne]
    exact h.noDir mode

/-- The entries of one manifest go in whatever order they come. -/
theorem writeEntries_replace {getBlob : Text → Except StorageError Bytes}
    {content : Text → Bytes} {order : List FlatEntry} {ws : Workspace}
    (hblobs : ∀ entry ∈ order, getBlob entry.blob = .ok (content entry.blob))
    (htexts : ∀ entry ∈ order, isSymlinkMode entry.mode = true →
      Workspace.linkText (content entry.blob) = true)
    (hnodup : (order.map targetOf).Nodup) (h : ∀ entry ∈ order, Writable ws entry) :
    ∃ ws', order.foldlM (fetchEntry umask getBlob) ws = .ok ws' ∧
      (∀ entry ∈ order, ws'.nodes (targetOf entry) =
        some (nodeOf umask entry (content entry.blob))) ∧
      ∀ p, p ∉ order.map targetOf → ws'.nodes p = ws.nodes p := by
  induction order generalizing ws with
  | nil => exact ⟨ws, rfl, fun _ he => (List.not_mem_nil he).elim, fun _ _ => rfl⟩
  | cons entry order ih =>
    rw [List.map_cons, List.nodup_cons] at hnodup
    obtain ⟨hnot, hnodup⟩ := hnodup
    have hentry := h entry List.mem_cons_self
    obtain ⟨ws₁, hrun, hnodes⟩ := writeEntry_replaces umask hentry.join hentry.ne_nil
      hentry.passed hentry.noDir (htexts entry List.mem_cons_self)
    have hother : ∀ e ∈ order, targetOf e ≠ targetOf entry := fun e he heq =>
      hnot (heq ▸ List.mem_map_of_mem he)
    obtain ⟨ws', hrest, hin, hout⟩ := ih (fun e he => hblobs e (List.mem_cons_of_mem _ he))
      (fun e he => htexts e (List.mem_cons_of_mem _ he)) hnodup
      fun e he => (h e (List.mem_cons_of_mem _ he)).of_written hentry (hother e he) hnodes
    refine ⟨ws', ?_, ?_, ?_⟩
    · rw [List.foldlM_cons]
      simp only [fetchEntry, hblobs entry List.mem_cons_self, bind, Except.bind, hrun]
      exact hrest
    · intro e he
      rcases List.mem_cons.mp he with rfl | he
      · rw [hout _ hnot, hnodes, if_pos rfl]
      · exact hin e he
    · intro p hp
      rw [List.map_cons, List.mem_cons, not_or] at hp
      rw [hout p hp.2, hnodes, if_neg hp.1]

theorem sortDeferred_perm (deferred : List Deferred) : (sortDeferred deferred).Perm deferred :=
  List.perm_insertionSort _ _

theorem le_of_isPrefix {path path' : List Text} (h : path <+: path') : path ≤ path' := by
  obtain ⟨rest, rfl⟩ := h
  cases rest with
  | nil => rw [List.append_nil]
  | cons next rest =>
    have hlt : List.Lex (· < ·) (path ++ []) (path ++ next :: rest) :=
      List.Lex.append_left _ List.Lex.nil path
    rw [List.append_nil] at hlt
    exact le_of_lt hlt

/-- No directory comes before one below it. -/
theorem sortDeferred_deepest {deferred : List Deferred} (hnodup : (deferred.map Prod.fst).Nodup) :
    (sortDeferred deferred).Pairwise fun a b => ¬ a.1 <+: b.1 := by
  have : Std.Total fun a b : Deferred => b.1 ≤ a.1 := ⟨fun a b => le_total b.1 a.1⟩
  have : IsTrans Deferred fun a b => b.1 ≤ a.1 := ⟨fun _ _ _ hab hbc => hbc.trans hab⟩
  have hsorted : (sortDeferred deferred).Pairwise fun a b => b.1 ≤ a.1 :=
    List.pairwise_insertionSort _ deferred
  have hdistinct : (sortDeferred deferred).Pairwise fun a b => a.1 ≠ b.1 := by
    refine List.pairwise_map.mp ?_
    exact ((sortDeferred_perm deferred).map _).nodup_iff.mpr hnodup
  refine (hsorted.and hdistinct).imp fun hab hpre => ?_
  exact hab.2 (le_antisymm (le_of_isPrefix hpre) hab.1)

theorem applyDeferred_keeps {deferred : List Deferred}
    (hdeepest : deferred.Pairwise fun a b => ¬ a.1 <+: b.1) {ws : Workspace}
    (h : ∀ d ∈ deferred, Passed ws d.1 ∧ Open ws d.1) :
    ∃ ws', deferred.foldlM (fun ws d => applyMetadata ws d.1 d.2.1 d.2.2) ws = .ok ws' ∧
      (∀ d ∈ deferred, ∃ mode, ws'.nodes d.1 = some (.dir mode)) ∧
      ∀ p, p ∉ deferred.map Prod.fst → ws'.nodes p = ws.nodes p := by
  induction deferred generalizing ws with
  | nil => exact ⟨ws, rfl, fun _ hd => (List.not_mem_nil hd).elim, fun _ _ => rfl⟩
  | cons d deferred ih =>
    obtain ⟨hhead, hdeepest⟩ := List.pairwise_cons.mp hdeepest
    obtain ⟨hpassed, hopen⟩ := h d List.mem_cons_self
    obtain ⟨ws₁, left, hrun, hnodes⟩ := applyMetadata_open hpassed hopen d.2.1 d.2.2
    have hkept : ∀ e ∈ deferred, ∀ p, p <+: e.1 → ws₁.nodes p = ws.nodes p := by
      intro e he p hp
      rw [hnodes, if_neg]
      rintro rfl
      exact hhead e he hp
    have hnext : ∀ e ∈ deferred, Passed ws₁ e.1 ∧ Open ws₁ e.1 := by
      intro e he
      obtain ⟨hpass, mode, hat, hmode⟩ := h e (List.mem_cons_of_mem _ he)
      refine ⟨passed_congr (fun p hp _ => hkept e he p hp) hpass, mode, ?_, hmode⟩
      rw [hkept e he e.1 (List.prefix_refl e.1), hat]
    obtain ⟨ws', hrest, hin, hout⟩ := ih hdeepest hnext
    refine ⟨ws', ?_, ?_, ?_⟩
    · rw [List.foldlM_cons, hrun]
      exact hrest
    · intro e he
      rcases List.mem_cons.mp he with rfl | he
      · have hnot : e.1 ∉ deferred.map Prod.fst := by
          intro hmem
          obtain ⟨x, hx, heq⟩ := List.mem_map.mp hmem
          exact hhead x hx (heq ▸ List.prefix_refl _)
        exact ⟨left, by rw [hout _ hnot, hnodes, if_pos rfl]⟩
      · exact hin e he
    · intro p hp
      rw [List.map_cons, List.mem_cons, not_or] at hp
      rw [hout p hp.2, hnodes, if_neg hp.1]

section snapshot

variable {store : Store host} {root : Text} {listed : List Listed}

theorem Lists.ne_nil (h : Lists store root listed) {x : Listed} (hx : x ∈ listed) : x.1 ≠ [] :=
  entryAt_ne_nil ((h.mem x).mp hx)

theorem Lists.clean (htree : PlainTree store root) (h : Lists store root listed) {x : Listed}
    (hx : x ∈ listed) : Clean x.1 :=
  htree.plain x.1 (by rw [(h.mem x).mp hx]; exact Option.some_ne_none _)

theorem Lists.parent (h : Lists store root listed) {x : Listed} (hx : x ∈ listed) {p : List Text}
    (hp : p <+: x.1) (hproper : p ≠ x.1) : p = [] ∨ p ∈ (dirsOf listed).map Prod.fst := by
  by_cases hnil : p = []
  · exact .inl hnil
  · right
    obtain ⟨rest, hrest⟩ := hp
    have hne : rest ≠ [] := fun heq => hproper (by rw [← hrest, heq, List.append_nil])
    have hat := (h.mem x).mp hx
    rw [← hrest, entryAt_append store root hnil] at hat
    obtain ⟨e, he, hbelow⟩ := Option.bind_eq_some_iff.mp hat
    obtain ⟨next, more, rfl⟩ := List.exists_cons_of_ne_nil hne
    have hdir : isDirectory e = true := by
      unfold isDirectory
      cases htarget : e.target with
      | blob hex => simp [entryFrom, htarget] at hbelow
      | tree sub => rfl
    exact List.mem_map.mpr ⟨(p, e), mem_dirsOf.mpr ⟨(h.mem (p, e)).mpr he, hdir⟩, rfl⟩

theorem Lists.paths_nodup (h : Lists store root listed) : (listed.map Prod.fst).Nodup := by
  refine List.pairwise_map.mpr (h.ordered.imp ?_)
  intro a b hpre heq
  exact hpre (heq ▸ List.prefix_refl a.1)

theorem Lists.kind_unique (h : Lists store root listed) {x y : Listed} (hx : x ∈ dirsOf listed)
    (hy : y ∈ filesOf listed) : x.1 ≠ y.1 := by
  intro heq
  obtain ⟨hx, hdir⟩ := mem_dirsOf.mp hx
  obtain ⟨hy, hfile⟩ := mem_filesOf.mp hy
  have hsame : x = y := List.inj_on_of_nodup_map h.paths_nodup hx hy heq
  rw [hsame, hfile] at hdir
  cases hdir

theorem targetOf_flatEntryOf (size : Text → ℕ) {x : Listed} (hclean : Clean x.1) (hne : x.1 ≠ []) :
    targetOf (flatEntryOf size x) = x.1 := splitOn_joinSlash hclean hne

/-- What the system can make: paths without a NUL, and links with a text it takes. -/
structure Creatable (listed : List Listed) (content : Text → Bytes) : Prop where
  spelled : ∀ x ∈ listed, Workspace.spelled x.1 = true
  texts : ∀ x ∈ filesOf listed, isSymlinkMode x.2.mode = true →
    Workspace.linkText (content (targetHex x.2.target)) = true

theorem Lists.files_nodup (hl : Lists store root listed) :
    ((filesOf listed).map Prod.fst).Nodup :=
  hl.paths_nodup.sublist (List.filter_sublist.map _)

theorem Lists.dirs_nodup (hl : Lists store root listed) :
    ((dirsOf listed).map Prod.fst).Nodup :=
  hl.paths_nodup.sublist (List.filter_sublist.map _)

/-- No file is where a directory is, or at the root. -/
theorem Lists.file_not_dir (hl : Lists store root listed) {x : Listed} (hx : x ∈ filesOf listed) :
    x.1 ≠ [] ∧ x.1 ∉ (dirsOf listed).map Prod.fst := by
  refine ⟨hl.ne_nil (mem_filesOf.mp hx).1, fun hmem => ?_⟩
  obtain ⟨y, hy, heq⟩ := List.mem_map.mp hmem
  exact hl.kind_unique hy hx heq

variable (htree : PlainTree store root) (hl : Lists store root listed)
include htree hl

theorem targets_of_files (size : Text → ℕ) :
    ((filesOf listed).map (flatEntryOf size)).map targetOf = (filesOf listed).map Prod.fst := by
  rw [List.map_map]
  refine List.map_congr_left fun x hx => ?_
  have hmem := (mem_filesOf.mp hx).1
  exact targetOf_flatEntryOf size (hl.clean htree hmem) (hl.ne_nil hmem)

/-- The entries of the manifest, and where they are written. -/
theorem mem_order (size : Text → ℕ) {order : List FlatEntry}
    (horder : order.Perm (manifestOf size root listed).entries) {entry : FlatEntry} :
    entry ∈ order ↔ ∃ x ∈ filesOf listed, flatEntryOf size x = entry ∧ targetOf entry = x.1 := by
  rw [horder.mem_iff]
  constructor
  · intro hmem
    obtain ⟨x, hx, rfl⟩ := List.mem_map.mp hmem
    have hin := (mem_filesOf.mp hx).1
    exact ⟨x, hx, rfl, targetOf_flatEntryOf size (hl.clean htree hin) (hl.ne_nil hin)⟩
  · rintro ⟨x, hx, rfl, -⟩
    exact List.mem_map_of_mem hx

/-- Once the directories are made, every file can be written. -/
theorem writable_of_prepared {content : Text → Bytes} (hcreate : Creatable listed content)
    {ws ws₁ : Workspace} (hmade : Prepared ws ((dirsOf listed).map Prod.fst) ws₁) {x : Listed}
    (hx : x ∈ filesOf listed) (hfile : ∀ mode, ws.nodes x.1 ≠ some (.dir mode))
    (size : Text → ℕ) : Writable ws₁ (flatEntryOf size x) := by
  have hmem := (mem_filesOf.mp hx).1
  have hclean := hl.clean htree hmem
  have hne := hl.ne_nil hmem
  have htarget := targetOf_flatEntryOf size hclean hne
  refine ⟨?_, ?_, ?_, fun mode => ?_⟩
  · rw [htarget]
    exact safeJoin_joinSlash hclean hne
  · rwa [htarget]
  · rw [htarget]
    refine ⟨hcreate.spelled x hmem, fun p hp hproper => ?_⟩
    rcases hl.parent hmem hp hproper with rfl | hdir
    · exact hmade.root
    · exact hmade.opened p hdir
  · rw [htarget, hmade.others x.1 (hl.file_not_dir hx).2]
    exact hfile mode

/-- The first two passes: the directories are there and open, the files are replaced, and the
rest is left alone. -/
theorem merge_writes (humask : OwnerKept umask) (size : Text → ℕ)
    {getBlob : Text → Except StorageError Bytes} {content : Text → Bytes}
    (hblobs : ∀ x ∈ filesOf listed,
      getBlob (targetHex x.2.target) = .ok (content (targetHex x.2.target)))
    (hcreate : Creatable listed content)
    {order : List FlatEntry} (horder : order.Perm (manifestOf size root listed).entries)
    {ws : Workspace} (hroot : Open ws [])
    (hdirs : ∀ x ∈ dirsOf listed, ∀ node, ws.nodes x.1 = some node → ∃ mode, node = .dir mode)
    (hfiles : ∀ x ∈ filesOf listed, ∀ mode, ws.nodes x.1 ≠ some (.dir mode)) :
    ∃ ws₁ deferred ws₂,
      ((dirsOf listed).map flatDirOf).foldlM (materializeDir umask) (ws, []) =
        .ok (ws₁, deferred) ∧
      deferred.map Prod.fst = (dirsOf listed).map Prod.fst ∧
      order.foldlM (fetchEntry umask getBlob) ws₁ = .ok ws₂ ∧
      (∀ p, p = [] ∨ p ∈ (dirsOf listed).map Prod.fst → Open ws₂ p) ∧
      (∀ x ∈ filesOf listed, ws₂.nodes x.1 =
        some (nodeOf umask (flatEntryOf size x) (content (targetHex x.2.target)))) ∧
      ∀ p, p ≠ [] → p ∉ listed.map Prod.fst → ws₂.nodes p = ws.nodes p := by
  have hstart : Prepared ws [] ws :=
    ⟨hroot, fun p hp => (List.not_mem_nil hp).elim, fun _ _ => rfl⟩
  obtain ⟨ws₁, deferred, hmake, hdeferred, hmade⟩ := materializeDirs_open umask humask
    (fun x hx => ⟨hl.clean htree (mem_dirsOf.mp hx).1, hl.ne_nil (mem_dirsOf.mp hx).1,
      hcreate.spelled x (mem_dirsOf.mp hx).1⟩)
    (hl.ordered.filter _) hstart
    (fun x hx p hp hproper => hl.parent (mem_dirsOf.mp hx).1 hp hproper)
    (fun x _ => List.not_mem_nil) hdirs []
  rw [List.nil_append] at hmake hmade
  have hmem := fun entry => @mem_order _ _ _ _ htree hl size _ horder entry
  have htargets : (order.map targetOf).Perm ((filesOf listed).map Prod.fst) := by
    rw [← targets_of_files htree hl size]
    exact horder.map targetOf
  obtain ⟨ws₂, hwrite, hwritten, hunwritten⟩ := writeEntries_replace umask
    (fun entry hentry => by
      obtain ⟨x, hx, rfl, -⟩ := (hmem entry).mp hentry
      exact hblobs x hx)
    (fun entry hentry => by
      obtain ⟨x, hx, rfl, -⟩ := (hmem entry).mp hentry
      exact hcreate.texts x hx)
    (htargets.nodup_iff.mpr hl.files_nodup)
    (fun entry hentry => by
      obtain ⟨x, hx, rfl, -⟩ := (hmem entry).mp hentry
      exact writable_of_prepared htree hl hcreate hmade hx (hfiles x hx) size)
  have hkept : ∀ p, p ∉ (filesOf listed).map Prod.fst → ws₂.nodes p = ws₁.nodes p :=
    fun p hp => hunwritten p fun hin => hp (htargets.mem_iff.mp hin)
  refine ⟨ws₁, deferred, ws₂, hmake, hdeferred, hwrite, fun p hp => ?_, fun x hx => ?_,
    fun p hne hp => ?_⟩
  · have hnotFile : p ∉ (filesOf listed).map Prod.fst := by
      intro hfile
      obtain ⟨x, hx, rfl⟩ := List.mem_map.mp hfile
      exact hp.elim (hl.file_not_dir hx).1 (hl.file_not_dir hx).2
    obtain ⟨mode, hnode, hmode⟩ : Open ws₁ p :=
      hp.elim (fun h => h ▸ hmade.root) (hmade.opened p)
    exact ⟨mode, by rw [hkept p hnotFile, hnode], hmode⟩
  · have hin := (mem_filesOf.mp hx).1
    have htarget := targetOf_flatEntryOf size (hl.clean htree hin) (hl.ne_nil hin)
    have hnode := hwritten _ ((hmem _).mpr ⟨x, hx, rfl, htarget⟩)
    rw [htarget] at hnode
    exact hnode
  · have hnotDir : p ∉ (dirsOf listed).map Prod.fst := fun hin =>
      hp ((List.filter_sublist.map Prod.fst).subset hin)
    have hnotFile : p ∉ (filesOf listed).map Prod.fst := fun hin =>
      hp ((List.filter_sublist.map Prod.fst).subset hin)
    rw [hkept p hnotFile, hmade.others p hnotDir]

/-- Onto a workspace it does not conflict with, a manifest brings its directories and replaces
its files, and leaves the rest alone. -/
theorem materializeFlat_merges (humask : OwnerKept umask) (size : Text → ℕ)
    {getBlob : Text → Except StorageError Bytes} {content : Text → Bytes}
    (hblobs : ∀ x ∈ filesOf listed,
      getBlob (targetHex x.2.target) = .ok (content (targetHex x.2.target)))
    (hcreate : Creatable listed content)
    {order : List FlatEntry} (horder : order.Perm (manifestOf size root listed).entries)
    {ws : Workspace} (hroot : Open ws [])
    (hdirs : ∀ x ∈ dirsOf listed, ∀ node, ws.nodes x.1 = some node → ∃ mode, node = .dir mode)
    (hfiles : ∀ x ∈ filesOf listed, ∀ mode, ws.nodes x.1 ≠ some (.dir mode)) :
    ∃ ws', materializeFlat umask getBlob (manifestOf size root listed) order ws = .ok ws' ∧
      Open ws' [] ∧
      (∀ x ∈ dirsOf listed, ∃ mode, ws'.nodes x.1 = some (.dir mode)) ∧
      (∀ x ∈ filesOf listed, ws'.nodes x.1 =
        some (nodeOf umask (flatEntryOf size x) (content (targetHex x.2.target)))) ∧
      ∀ p, p ≠ [] → p ∉ listed.map Prod.fst → ws'.nodes p = ws.nodes p := by
  obtain ⟨rootMode, hrootNode, -⟩ := id hroot
  have hcreated : ws.createDirAll umask [] = .ok ws :=
    createDirAll_present umask (passed_nil ws) hrootNode
  obtain ⟨ws₁, deferred, ws₂, hmake, hdeferred, hwrite, hopen, hwritten, hothers⟩ :=
    merge_writes umask htree hl humask size hblobs hcreate horder hroot hdirs hfiles
  have hpaths : ∀ d ∈ sortDeferred deferred, d.1 ∈ (dirsOf listed).map Prod.fst := by
    intro d hd
    rw [← hdeferred]
    exact List.mem_map_of_mem ((sortDeferred_perm deferred).mem_iff.mp hd)
  have hready : ∀ d ∈ sortDeferred deferred, Passed ws₂ d.1 ∧ Open ws₂ d.1 := by
    intro d hd
    have hmem := hpaths d hd
    obtain ⟨x, hx, heq⟩ := List.mem_map.mp hmem
    have hin := (mem_dirsOf.mp hx).1
    refine ⟨⟨heq ▸ hcreate.spelled x hin, fun p hp hproper => hopen p ?_⟩, hopen d.1 (.inr hmem)⟩
    rw [← heq] at hp hproper
    exact hl.parent hin hp hproper
  obtain ⟨ws₃, hclose, hclosed, hrest⟩ :=
    applyDeferred_keeps (sortDeferred_deepest (hdeferred ▸ hl.dirs_nodup)) hready
  have hdone : ∀ p, p ∉ (dirsOf listed).map Prod.fst → ws₃.nodes p = ws₂.nodes p := by
    intro p hp
    refine hrest p fun hmem => hp ?_
    obtain ⟨d, hd, rfl⟩ := List.mem_map.mp hmem
    exact hpaths d hd
  have hnilNotDir : ([] : List Text) ∉ (dirsOf listed).map Prod.fst := by
    intro hmem
    obtain ⟨x, hx, heq⟩ := List.mem_map.mp hmem
    exact hl.ne_nil (mem_dirsOf.mp hx).1 heq
  refine ⟨ws₃, ?_, ?_, fun x hx => ?_, fun x hx => ?_, fun p hne hp => ?_⟩
  · simp only [materializeFlat, hcreated, bind, Except.bind, manifestOf, hmake, hwrite, hclose]
  · obtain ⟨mode, hnode, hmode⟩ := hopen [] (.inl rfl)
    exact ⟨mode, by rw [hdone [] hnilNotDir, hnode], hmode⟩
  · have hmem : x.1 ∈ deferred.map Prod.fst := by
      rw [hdeferred]
      exact List.mem_map_of_mem hx
    obtain ⟨d, hd, heq⟩ := List.mem_map.mp hmem
    rw [← heq]
    exact hclosed d ((sortDeferred_perm deferred).mem_iff.mpr hd)
  · rw [hdone x.1 (hl.file_not_dir hx).2, hwritten x hx]
  · have hnotDir : p ∉ (dirsOf listed).map Prod.fst := fun hmem =>
      hp ((List.filter_sublist.map Prod.fst).subset hmem)
    rw [hdone p hnotDir, hothers p hne hp]

end snapshot

end Scarab.Storage
