import Scarab.FanIn

/-!
# Restoring a snapshot into an empty workspace

In an empty directory every directory of a manifest is new and every file is written once, so
what the manifest leaves is known to the last mode and mtime.
-/
namespace Scarab.Storage

open Depot

variable {host : Host} (umask : ℕ)

/-- The mode of a directory nobody has set. -/
def newDirMode : ℕ := Nat.ldiff 0o777 umask

/-- What an entry of a tree is on disk. -/
def restoredNode (content : Text → Bytes) (e : TreeEntry) : FsNode :=
  match e.target with
  | .blob hex => diskNode umask e.mode (content hex)
  | .tree _ => .dir ((e.mode.map (· &&& 0o7777)).getD (newDirMode umask))

/-- The mtime that is restored for an entry: links keep their own. -/
def restoredMtime (e : TreeEntry) : Option ℤ :=
  if isDirectory e = false ∧ isSymlinkMode e.mode = true then none else e.mtimeMs

def deferredOf (x : Listed) : Deferred := (x.1, x.2.mode.map (· &&& 0o7777), x.2.mtimeMs)

theorem materializeDir_new {ws : Workspace} {dir : FlatDir} {path : List Text}
    (hjoin : safeJoin dir.path = .ok path) (hne : path ≠ []) (hpassed : Passed ws path)
    (hat : ws.nodes path = none) (deferred : List Deferred) :
    materializeDir umask (ws, deferred) dir =
      .ok (ws.set path (some (.dir (newDirMode umask))),
        deferred ++ [(path, dir.mode.map (· &&& 0o7777), dir.mtimeMs)]) := by
  have hstat : ws.statMode path = none := by
    simp only [Workspace.statMode, reachable_of_passed hpassed, hat, ↓reduceIte]
  have hrun := createDirAll_new umask hne hpassed hat
  simp only [materializeDir, hjoin, bind, Except.bind, hstat, hrun, newDirMode]

local instance pathLawful : LawfulBEq (List Text) := inferInstance

/-- The directories made so far have the mode of new ones, and the rest is as it was. -/
def Made (before : Workspace) (made : List (List Text)) (ws : Workspace) : Prop :=
  ∀ p, ws.nodes p = if p ∈ made then some (.dir (newDirMode umask)) else before.nodes p

theorem Made.open {umask : ℕ} (humask : OwnerKept umask) {before ws : Workspace}
    {made : List (List Text)} (h : Made umask before made ws) {p : List Text}
    (hp : p ∈ made ∨ Open before p) : Open ws p := by
  by_cases hmem : p ∈ made
  · exact ⟨newDirMode umask, by rw [h p, if_pos hmem], humask⟩
  · obtain ⟨mode, hnode, hmode⟩ := hp.resolve_left hmem
    exact ⟨mode, by rw [h p, if_neg hmem, hnode], hmode⟩

theorem Made.passed {umask : ℕ} (humask : OwnerKept umask) {before ws : Workspace}
    {made : List (List Text)} (h : Made umask before made ws) (hroot : Open before [])
    {path : List Text} (hspelled : Workspace.spelled path = true)
    (hparents : ∀ p, p <+: path → p ≠ path → p = [] ∨ p ∈ made) :
    Passed ws path := by
  refine ⟨hspelled, fun p hp hproper => ?_⟩
  rcases hparents p hp hproper with rfl | hmem
  · exact h.open humask (.inr hroot)
  · exact h.open humask (.inl hmem)

theorem materializeDirs_new (humask : OwnerKept umask) {dirs : List Listed}
    (hclean : ∀ x ∈ dirs, Clean x.1 ∧ x.1 ≠ [] ∧ Workspace.spelled x.1 = true)
    (hordered : dirs.Pairwise fun a b => ¬ b.1 <+: a.1) {before ws : Workspace} (hroot : Open before []) {made : List (List Text)}
    (h : Made umask before made ws)
    (hparents : ∀ x ∈ dirs, ∀ p, p <+: x.1 → p ≠ x.1 → p = [] ∨ p ∈ made ++ dirs.map Prod.fst)
    (hnew : ∀ x ∈ dirs, x.1 ∉ made) (hnone : ∀ x ∈ dirs, before.nodes x.1 = none)
    (deferred : List Deferred) :
    ∃ ws', (dirs.map flatDirOf).foldlM (materializeDir umask) (ws, deferred) =
        .ok (ws', deferred ++ dirs.map deferredOf) ∧
      Made umask before (made ++ dirs.map Prod.fst) ws' := by
  induction dirs generalizing ws made deferred with
  | nil => exact ⟨ws, by simp [pure, Except.pure], by simpa using h⟩
  | cons x dirs ih =>
    obtain ⟨hhead, hordered⟩ := List.pairwise_cons.mp hordered
    obtain ⟨hx, hxne, hxspelled⟩ := hclean x List.mem_cons_self
    have hup : ∀ p, p <+: x.1 → p ≠ x.1 → p = [] ∨ p ∈ made := by
      intro p hp hproper
      refine (hparents x List.mem_cons_self p hp hproper).imp_right fun hmem => ?_
      rcases List.mem_append.mp hmem with hmem | hmem
      · exact hmem
      · obtain ⟨y, hy, rfl⟩ := List.mem_map.mp hmem
        rcases List.mem_cons.mp hy with rfl | hy
        · exact absurd rfl hproper
        · exact absurd hp (hhead y hy)
    have hat : ws.nodes x.1 = none := by
      rw [h x.1, if_neg (hnew x List.mem_cons_self), hnone x List.mem_cons_self]
    have hstep := @materializeDir_new umask _ (flatDirOf x) _ (safeJoin_joinSlash hx hxne) hxne
      (h.passed humask hroot hxspelled hup) hat deferred
    have hmade : Made umask before (made ++ [x.1])
        (ws.set x.1 (some (.dir (newDirMode umask)))) := by
      intro p
      rw [set_nodes, h p]
      by_cases hp : p = x.1
      · simp [hp]
      · simp [hp]
    have hlater : ∀ y ∈ dirs, y.1 ∉ made ++ [x.1] := by
      intro y hy hmem
      rcases List.mem_append.mp hmem with hmem | hmem
      · exact hnew y (List.mem_cons_of_mem _ hy) hmem
      · rw [List.mem_singleton] at hmem
        exact hhead y hy (hmem ▸ List.prefix_refl x.1)
    obtain ⟨ws', hrun, hdone⟩ := ih (fun y hy => hclean y (List.mem_cons_of_mem _ hy)) hordered
      hmade (fun y hy p hp hproper => by
        simpa using hparents y (List.mem_cons_of_mem _ hy) p hp hproper)
      hlater (fun y hy => hnone y (List.mem_cons_of_mem _ hy)) (deferred ++ [deferredOf x])
    refine ⟨ws', ?_, ?_⟩
    · rw [List.map_cons, List.foldlM_cons, hstep]
      refine hrun.trans ?_
      rw [List.append_assoc, List.singleton_append, List.map_cons]
    · simpa using hdone

/-- One path is written, and its mtime is set last. -/
structure Wrote (ws ws' : Workspace) (path : List Text) (node : FsNode) (mtimeMs : Option ℤ) :
    Prop where
  nodes : ∀ p, ws'.nodes p = if p = path then some node else ws.nodes p
  mtime : ∀ ms, mtimeMs = some ms → ws'.mtimes path = some ms
  mtimes : ∀ p, p ≠ path → p ≠ path.dropLast → ws'.mtimes p = ws.mtimes p

section writing

variable {umask} {ws ws₁ : Workspace} {path : List Text}

theorem wrote_set (ws : Workspace) (path : List Text) (node : FsNode) :
    Wrote ws (ws.set path (some node)) path node none where
  nodes := set_nodes ws path (some node)
  mtime := fun _ hms => by cases hms
  mtimes := by
    intro p hp hparent
    simp [Workspace.set, hp, hparent]

theorem Wrote.setTimes {node : FsNode} {mtimeMs : Option ℤ} (h : Wrote ws ws₁ path node mtimeMs)
    (ms : ℤ) : Wrote ws (ws₁.setTimes path ms) path node (some ms) where
  nodes := h.nodes
  mtime := by
    intro ms' hms
    obtain rfl := Option.some.inj hms
    simp [Workspace.setTimes]
  mtimes := by
    intro p hp hparent
    rw [← h.mtimes p hp hparent]
    exact Function.update_of_ne hp _ _

theorem Wrote.passed {node : FsNode} {mtimeMs : Option ℤ} (h : Wrote ws ws₁ path node mtimeMs)
    (hpassed : Passed ws path) : Passed ws₁ path :=
  passed_congr (fun p _ hp => by rw [h.nodes, if_neg hp]) hpassed

theorem Wrote.setPermissions {data : Bytes} {old : ℕ} {mtimeMs : Option ℤ}
    (h : Wrote ws ws₁ path (.file data old) mtimeMs) (hpassed : Passed ws path) (bits : ℕ) :
    ∃ ws₂, ws₁.setPermissions path bits = .ok ws₂ ∧
      Wrote ws ws₂ path (.file data bits) mtimeMs := by
  have hfile : ws₁.nodes path = some (.file data old) := by rw [h.nodes, if_pos rfl]
  refine ⟨⟨Function.update ws₁.nodes path (some (.file data bits)), ws₁.mtimes⟩, ?_, ?_, h.mtime,
    h.mtimes⟩
  · simp only [Workspace.setPermissions, reachable_of_passed (h.passed hpassed), hfile, ↓reduceIte]
  · intro p
    refine (Function.update_apply ws₁.nodes path _ p).trans ?_
    split_ifs with hp
    · rfl
    · rw [h.nodes, if_neg hp]

theorem writeFile_wrote (hne : path ≠ []) (hpassed : Passed ws path) (hnode : ws.nodes path = none)
    (data : Bytes) (mode : Option ℕ) (mtimeMs : Option ℤ) :
    ∃ ws', writeFile umask ws path data mode mtimeMs = .ok ws' ∧
      Wrote ws ws' path (.file data (mode.getD (Nat.ldiff 0o666 umask))) mtimeMs := by
  have hwrite : ws.writeData umask path data =
      .ok (ws.set path (some (.file data (Nat.ldiff 0o666 umask)))) := by
    simp only [Workspace.writeData, reachable_of_passed hpassed, hnode,
      writable_of_passed hne hpassed, ↓reduceIte]
  have hset := wrote_set ws path (.file data (Nat.ldiff 0o666 umask))
  cases mtimeMs with
  | none =>
    cases mode with
    | none => exact ⟨_, by simp only [writeFile, hwrite, bind, Except.bind], hset⟩
    | some bits =>
      obtain ⟨ws', hrun, hwrote⟩ := hset.setPermissions hpassed bits
      exact ⟨ws', by simp only [writeFile, hwrite, bind, Except.bind, hrun], hwrote⟩
  | some ms =>
    have htimed := hset.setTimes ms
    cases mode with
    | none => exact ⟨_, by simp only [writeFile, hwrite, bind, Except.bind], htimed⟩
    | some bits =>
      obtain ⟨ws', hrun, hwrote⟩ := htimed.setPermissions hpassed bits
      exact ⟨ws', by simp only [writeFile, hwrite, bind, Except.bind, hrun], hwrote⟩

/-- The mtime an entry is written with. -/
def writtenMtime (entry : FlatEntry) : Option ℤ :=
  if isSymlinkMode entry.mode = true then none else entry.mtimeMs

theorem writeEntry_wrote {entry : FlatEntry} (hentry : Writable ws entry)
    (hat : ws.nodes (targetOf entry) = none) {data : Bytes}
    (htext : isSymlinkMode entry.mode = true → Workspace.linkText data = true) :
    ∃ ws', writeEntry umask ws entry data = .ok ws' ∧
      Wrote ws ws' (targetOf entry) (nodeOf umask entry data) (writtenMtime entry) := by
  obtain ⟨hjoin, hne, hpassed, -⟩ := hentry
  obtain ⟨mode, hparent, -⟩ := hpassed.opened _ (List.dropLast_prefix _) (dropLast_ne hne)
  have hmade : ws.createDirAll umask (targetOf entry).dropLast = .ok ws :=
    createDirAll_present umask (hpassed.of_prefix (List.dropLast_prefix _)) hparent
  have hunlink : unlinkFirst ws (targetOf entry) = .ok ws := by simp [unlinkFirst, hat]
  have hrun : writeEntry umask ws entry data =
      if isSymlinkMode entry.mode then ws.symlink data (targetOf entry)
      else writeFile umask ws (targetOf entry) data (entry.mode.map (· &&& 0o7777))
        entry.mtimeMs := by
    simp only [writeEntry, hjoin, bind, Except.bind, hmade, hunlink]
  by_cases hlink : isSymlinkMode entry.mode = true
  · refine ⟨ws.set (targetOf entry) (some (.link data)), ?_, ?_⟩
    · rw [hrun, if_pos hlink, Workspace.symlink,
        if_pos ⟨htext hlink, reachable_of_passed hpassed, writable_of_passed hne hpassed, hat⟩]
    · rw [nodeOf, if_pos hlink, writtenMtime, if_pos hlink]
      exact wrote_set ws _ _
  · obtain ⟨ws', hwrite, hwrote⟩ := @writeFile_wrote umask _ _ hne hpassed hat data
      (entry.mode.map (· &&& 0o7777)) entry.mtimeMs
    refine ⟨ws', by rw [hrun, if_neg hlink, hwrite], ?_⟩
    rwa [nodeOf, if_neg hlink, writtenMtime, if_neg hlink]

end writing

/-- Every entry keeps its mtime while the others are written. -/
theorem writeEntries_wrote {getBlob : Text → Except StorageError Bytes} {content : Text → Bytes}
    {order : List FlatEntry} {ws : Workspace}
    (hblobs : ∀ entry ∈ order, getBlob entry.blob = .ok (content entry.blob))
    (htexts : ∀ entry ∈ order, isSymlinkMode entry.mode = true →
      Workspace.linkText (content entry.blob) = true)
    (hnodup : (order.map targetOf).Nodup)
    (h : ∀ entry ∈ order, Writable ws entry ∧ ws.nodes (targetOf entry) = none) :
    ∃ ws', order.foldlM (fetchEntry umask getBlob) ws = .ok ws' ∧
      (∀ entry ∈ order, ws'.nodes (targetOf entry) =
        some (nodeOf umask entry (content entry.blob))) ∧
      (∀ entry ∈ order, ∀ ms, writtenMtime entry = some ms →
        ws'.mtimes (targetOf entry) = some ms) ∧
      ∀ p, p ∉ order.map targetOf → ws'.nodes p = ws.nodes p ∧
        ((∀ mode, ws.nodes p ≠ some (.dir mode)) → ws'.mtimes p = ws.mtimes p) := by
  induction order generalizing ws with
  | nil => exact ⟨ws, rfl, by simp, by simp, fun _ _ => ⟨rfl, fun _ => rfl⟩⟩
  | cons entry order ih =>
    rw [List.map_cons, List.nodup_cons] at hnodup
    obtain ⟨hnot, hnodup⟩ := hnodup
    obtain ⟨hentry, hat⟩ := h entry List.mem_cons_self
    obtain ⟨ws₁, hrun, hwrote⟩ := @writeEntry_wrote umask _ _ hentry hat _
      (htexts entry List.mem_cons_self)
    have hother : ∀ e ∈ order, targetOf e ≠ targetOf entry := fun e he heq =>
      hnot (heq ▸ List.mem_map_of_mem he)
    obtain ⟨ws', hrest, hin, htimes, hout⟩ := ih
      (fun e he => hblobs e (List.mem_cons_of_mem _ he))
      (fun e he => htexts e (List.mem_cons_of_mem _ he)) hnodup fun e he => by
        obtain ⟨hwritable, hnone⟩ := h e (List.mem_cons_of_mem _ he)
        refine ⟨hwritable.of_written hentry (hother e he) hwrote.nodes, ?_⟩
        rw [hwrote.nodes, if_neg (hother e he), hnone]
    have hhere : ws₁.nodes (targetOf entry) = some (nodeOf umask entry (content entry.blob)) := by
      rw [hwrote.nodes, if_pos rfl]
    have hnotDir : ∀ mode, ws₁.nodes (targetOf entry) ≠ some (.dir mode) := by
      intro mode hdir
      rw [hhere] at hdir
      have hnode := Option.some.inj hdir
      unfold nodeOf at hnode
      split_ifs at hnode
    refine ⟨ws', ?_, ?_, ?_, ?_⟩
    · rw [List.foldlM_cons]
      simp only [fetchEntry, hblobs entry List.mem_cons_self, bind, Except.bind, hrun]
      exact hrest
    · intro e he
      rcases List.mem_cons.mp he with rfl | he
      · rw [(hout _ hnot).1, hhere]
      · exact hin e he
    · intro e he ms hms
      rcases List.mem_cons.mp he with rfl | he
      · rw [(hout _ hnot).2 hnotDir]
        exact hwrote.mtime ms hms
      · exact htimes e he ms hms
    · intro p hp
      rw [List.map_cons, List.mem_cons, not_or] at hp
      obtain ⟨hnodes, hmtimes⟩ := hout p hp.2
      have hsame : ws₁.nodes p = ws.nodes p := by rw [hwrote.nodes, if_neg hp.1]
      refine ⟨hnodes.trans hsame, fun hdir => ?_⟩
      have hparent : p ≠ (targetOf entry).dropLast := by
        rintro rfl
        obtain ⟨mode, hopen, -⟩ := hentry.passed.opened _ (List.dropLast_prefix _)
          (dropLast_ne hentry.ne_nil)
        exact hdir mode hopen
      rw [hmtimes (fun mode => hsame ▸ hdir mode), hwrote.mtimes p hp.1 hparent]

theorem applyMetadata_sets {ws : Workspace} {path : List Text} (h : Passed ws path) {bits : ℕ}
    (hnode : ws.nodes path = some (.dir bits)) (hbits : ownerHas bits 0o700 = true)
    (mode : Option ℕ) (mtimeMs : Option ℤ) :
    ∃ ws', applyMetadata ws path mode mtimeMs = .ok ws' ∧
      (∀ p, ws'.nodes p = if p = path then some (.dir (mode.getD bits)) else ws.nodes p) ∧
      (∀ ms, mtimeMs = some ms → ws'.mtimes path = some ms) ∧
      ∀ p, p ≠ path → ws'.mtimes p = ws.mtimes p := by
  have hread : ws.openRead path = .ok () := by
    have hmode : ownerHas bits 0o400 = true := ownerHas_of_all hbits rfl
    simp only [Workspace.openRead, reachable_of_passed h, hnode, ↓reduceIte, hmode]
  obtain ⟨ws₁, hstart, hnodes, hset, hkept⟩ : ∃ ws₁ : Workspace,
      applyMetadata ws path mode mtimeMs = applyMetadata ws₁ path mode none ∧
      ws₁.nodes = ws.nodes ∧ (∀ ms, mtimeMs = some ms → ws₁.mtimes path = some ms) ∧
      ∀ p, p ≠ path → ws₁.mtimes p = ws.mtimes p := by
    cases mtimeMs with
    | none => exact ⟨ws, rfl, rfl, fun _ hms => (by cases hms), fun _ _ => rfl⟩
    | some ms =>
      refine ⟨ws.setTimes path ms, ?_, rfl, fun ms' hms => ?_, fun p hp => ?_⟩
      · simp only [applyMetadata, hread, bind, Except.bind]
      · obtain rfl := Option.some.inj hms
        simp [Workspace.setTimes]
      · exact Function.update_of_ne hp _ _
  rw [hstart]
  cases mode with
  | none =>
    refine ⟨ws₁, rfl, fun p => ?_, hset, hkept⟩
    rw [hnodes]
    split_ifs with hp
    · rw [hp, hnode]
      rfl
    · rfl
  | some b =>
    have hreach : ws₁.reachable path = true :=
      reachable_of_passed (passed_congr (fun p _ _ => by rw [hnodes]) h)
    refine ⟨⟨Function.update ws₁.nodes path (some (.dir b)), ws₁.mtimes⟩, ?_, fun p => ?_, hset,
      hkept⟩
    · simp only [applyMetadata, bind, Except.bind, Workspace.setPermissions, hreach, hnodes, hnode,
        ↓reduceIte]
    · refine (Function.update_apply ws₁.nodes path _ p).trans ?_
      rw [hnodes]
      rfl

/-- From the deepest up, every directory gets its mode and mtime and keeps them. -/
theorem applyDeferred_sets {deferred : List Deferred}
    (hdeepest : deferred.Pairwise fun a b => ¬ a.1 <+: b.1) {ws : Workspace} {bits : ℕ}
    (hbits : ownerHas bits 0o700 = true)
    (h : ∀ d ∈ deferred, Passed ws d.1 ∧ ws.nodes d.1 = some (.dir bits)) :
    ∃ ws', deferred.foldlM (fun ws d => applyMetadata ws d.1 d.2.1 d.2.2) ws = .ok ws' ∧
      (∀ d ∈ deferred, ws'.nodes d.1 = some (.dir (d.2.1.getD bits)) ∧
        ∀ ms, d.2.2 = some ms → ws'.mtimes d.1 = some ms) ∧
      ∀ p, p ∉ deferred.map Prod.fst →
        ws'.nodes p = ws.nodes p ∧ ws'.mtimes p = ws.mtimes p := by
  induction deferred generalizing ws with
  | nil => exact ⟨ws, rfl, fun _ hd => (List.not_mem_nil hd).elim, fun _ _ => ⟨rfl, rfl⟩⟩
  | cons d deferred ih =>
    obtain ⟨hhead, hdeepest⟩ := List.pairwise_cons.mp hdeepest
    obtain ⟨hpassed, hnode⟩ := h d List.mem_cons_self
    obtain ⟨ws₁, hrun, hnodes, hset, hkept⟩ :=
      applyMetadata_sets hpassed hnode hbits d.2.1 d.2.2
    have habove : ∀ e ∈ deferred, ∀ p, p <+: e.1 → ws₁.nodes p = ws.nodes p := by
      intro e he p hp
      rw [hnodes, if_neg]
      rintro rfl
      exact hhead e he hp
    obtain ⟨ws', hrest, hin, hout⟩ := ih hdeepest fun e he => by
      obtain ⟨hpass, hdir⟩ := h e (List.mem_cons_of_mem _ he)
      refine ⟨passed_congr (fun p hp _ => habove e he p hp) hpass, ?_⟩
      rw [habove e he e.1 (List.prefix_refl e.1), hdir]
    refine ⟨ws', ?_, ?_, ?_⟩
    · rw [List.foldlM_cons, hrun]
      exact hrest
    · intro e he
      rcases List.mem_cons.mp he with rfl | he
      · have hnot : e.1 ∉ deferred.map Prod.fst := by
          intro hmem
          obtain ⟨x, hx, heq⟩ := List.mem_map.mp hmem
          exact hhead x hx (heq ▸ List.prefix_refl _)
        obtain ⟨hsame, htime⟩ := hout _ hnot
        refine ⟨by rw [hsame, hnodes, if_pos rfl], fun ms hms => ?_⟩
        rw [htime, hset ms hms]
      · exact hin e he
    · intro p hp
      rw [List.map_cons, List.mem_cons, not_or] at hp
      obtain ⟨hsame, htime⟩ := hout p hp.2
      rw [hsame, htime, hnodes, if_neg hp.1, hkept p hp.1]
      exact ⟨rfl, rfl⟩

section snapshot

variable {store : Store host} {root : Text} {listed : List Listed}
  (htree : PlainTree store root) (hl : Lists store root listed)
include htree hl

/-- The first two passes: every directory is there with the mode of a new one, and every file as
it is to stay. -/
theorem materialize_writes (humask : OwnerKept umask) (size : Text → ℕ)
    {getBlob : Text → Except StorageError Bytes} {content : Text → Bytes}
    (hblobs : ∀ x ∈ filesOf listed,
      getBlob (targetHex x.2.target) = .ok (content (targetHex x.2.target)))
    (hcreate : Creatable listed content)
    {order : List FlatEntry} (horder : order.Perm (manifestOf size root listed).entries)
    {ws : Workspace} (hfresh : Fresh ws) : ∃ ws₁ ws₂,
      ((dirsOf listed).map flatDirOf).foldlM (materializeDir umask) (ws, []) =
        .ok (ws₁, (dirsOf listed).map deferredOf) ∧
      order.foldlM (fetchEntry umask getBlob) ws₁ = .ok ws₂ ∧
      Open ws₂ [] ∧
      (∀ p ∈ (dirsOf listed).map Prod.fst, ws₂.nodes p = some (.dir (newDirMode umask))) ∧
      (∀ x ∈ filesOf listed, ws₂.nodes x.1 = some (restoredNode umask content x.2) ∧
        ∀ ms, restoredMtime x.2 = some ms → ws₂.mtimes x.1 = some ms) ∧
      ∀ p, p ≠ [] → p ∉ listed.map Prod.fst → ws₂.nodes p = none := by
  obtain ⟨hroot, hempty⟩ := hfresh
  have hstart : Made umask ws [] ws := fun p => by rw [if_neg List.not_mem_nil]
  obtain ⟨ws₁, hmake, hmade⟩ := materializeDirs_new umask humask
    (fun x hx => ⟨hl.clean htree (mem_dirsOf.mp hx).1, hl.ne_nil (mem_dirsOf.mp hx).1,
      hcreate.spelled x (mem_dirsOf.mp hx).1⟩)
    (hl.ordered.filter _) hroot hstart
    (fun x hx p hp hproper => hl.parent (mem_dirsOf.mp hx).1 hp hproper)
    (fun x _ => List.not_mem_nil) (fun x hx => hempty x.1 (hl.ne_nil (mem_dirsOf.mp hx).1)) []
  rw [List.nil_append] at hmake hmade
  have hmem := fun entry => @mem_order _ _ _ _ htree hl size _ horder entry
  have hready : ∀ entry ∈ order, Writable ws₁ entry ∧ ws₁.nodes (targetOf entry) = none := by
    intro entry hentry
    obtain ⟨x, hx, rfl, htarget⟩ := (hmem entry).mp hentry
    have hin := (mem_filesOf.mp hx).1
    obtain ⟨hne, hnotDir⟩ := hl.file_not_dir hx
    have hnone : ws₁.nodes x.1 = none := by rw [hmade x.1, if_neg hnotDir, hempty x.1 hne]
    refine ⟨⟨?_, ?_, ?_, ?_⟩, ?_⟩
    · rw [htarget]
      exact safeJoin_joinSlash (hl.clean htree hin) hne
    · rwa [htarget]
    · rw [htarget]
      exact hmade.passed humask hroot (hcreate.spelled x hin) fun p hp hproper =>
        hl.parent hin hp hproper
    · intro mode
      rw [htarget, hnone]
      simp
    · rw [htarget, hnone]
  have htargets : (order.map targetOf).Perm ((filesOf listed).map Prod.fst) := by
    rw [← targets_of_files htree hl size]
    exact horder.map targetOf
  obtain ⟨ws₂, hwrite, hin, htimes, hout⟩ := writeEntries_wrote umask
    (fun entry hentry => by
      obtain ⟨x, hx, rfl, -⟩ := (hmem entry).mp hentry
      exact hblobs x hx)
    (fun entry hentry => by
      obtain ⟨x, hx, rfl, -⟩ := (hmem entry).mp hentry
      exact hcreate.texts x hx)
    (htargets.nodup_iff.mpr hl.files_nodup) hready
  have hkept : ∀ p, p ∉ (filesOf listed).map Prod.fst → ws₂.nodes p = ws₁.nodes p :=
    fun p hp => (hout p fun hmem' => hp (htargets.mem_iff.mp hmem')).1
  have hnilNotFile : ([] : List Text) ∉ (filesOf listed).map Prod.fst := by
    intro hnil
    obtain ⟨x, hx, heq⟩ := List.mem_map.mp hnil
    exact (hl.file_not_dir hx).1 heq
  refine ⟨ws₁, ws₂, hmake, hwrite, ?_, ?_, ?_, ?_⟩
  · obtain ⟨mode, hnode, hmode⟩ := hmade.open humask (.inr hroot)
    exact ⟨mode, by rw [hkept [] hnilNotFile, hnode], hmode⟩
  · intro p hp
    rw [hkept p, hmade p, if_pos hp]
    intro hfile
    obtain ⟨x, hx, rfl⟩ := List.mem_map.mp hfile
    exact (hl.file_not_dir hx).2 hp
  · intro x hx
    have hfile := (mem_filesOf.mp hx).2
    have htarget := targetOf_flatEntryOf size (hl.clean htree (mem_filesOf.mp hx).1)
      (hl.file_not_dir hx).1
    have hentry := (hmem _).mpr ⟨x, hx, rfl, htarget⟩
    have hnode := hin _ hentry
    rw [htarget] at hnode
    refine ⟨?_, fun ms hms => ?_⟩
    · rw [hnode, restoredNode, isDirectory_blob hfile]
      rfl
    · have htime := htimes _ hentry ms
      rw [htarget] at htime
      refine htime ?_
      simp only [restoredMtime, hfile, true_and] at hms
      exact hms
  · intro p hne hp
    have hnotDir : p ∉ (dirsOf listed).map Prod.fst := fun hmem' =>
      hp ((List.filter_sublist.map Prod.fst).subset hmem')
    have hnotFile : p ∉ (filesOf listed).map Prod.fst := fun hmem' =>
      hp ((List.filter_sublist.map Prod.fst).subset hmem')
    rw [hkept p hnotFile, hmade p, if_neg hnotDir, hempty p hne]

/-- An empty workspace gets exactly the entries of the snapshot, with their modes and mtimes. -/
theorem materializeFlat_restores (humask : OwnerKept umask) (size : Text → ℕ)
    {getBlob : Text → Except StorageError Bytes} {content : Text → Bytes}
    (hblobs : ∀ x ∈ filesOf listed,
      getBlob (targetHex x.2.target) = .ok (content (targetHex x.2.target)))
    (hcreate : Creatable listed content)
    {order : List FlatEntry} (horder : order.Perm (manifestOf size root listed).entries)
    {ws : Workspace} (hfresh : Fresh ws) :
    ∃ ws', materializeFlat umask getBlob (manifestOf size root listed) order ws = .ok ws' ∧
      (∀ p, p ≠ [] → ws'.nodes p = (entryAt store root p).map (restoredNode umask content)) ∧
      ∀ p e ms, entryAt store root p = some e → restoredMtime e = some ms →
        ws'.mtimes p = some ms := by
  obtain ⟨ws₁, ws₂, hmake, hwrite, hopen, hdirs, hfiles, hnone⟩ :=
    materialize_writes umask htree hl humask size hblobs hcreate horder hfresh
  obtain ⟨rootMode, hrootNode, -⟩ := hfresh.1
  have hcreated : ws.createDirAll umask [] = .ok ws :=
    createDirAll_present umask (passed_nil ws) hrootNode
  have hpaths : ((dirsOf listed).map deferredOf).map Prod.fst = (dirsOf listed).map Prod.fst := by
    rw [List.map_map]
    rfl
  have hdeferred : ∀ d ∈ sortDeferred ((dirsOf listed).map deferredOf),
      ∃ x ∈ dirsOf listed, deferredOf x = d := fun d hd =>
    List.mem_map.mp ((sortDeferred_perm _).mem_iff.mp hd)
  have hready : ∀ d ∈ sortDeferred ((dirsOf listed).map deferredOf),
      Passed ws₂ d.1 ∧ ws₂.nodes d.1 = some (.dir (newDirMode umask)) := by
    intro d hd
    obtain ⟨x, hx, rfl⟩ := hdeferred d hd
    refine ⟨⟨hcreate.spelled x (mem_dirsOf.mp hx).1, fun p hp hproper => ?_⟩,
      hdirs x.1 (List.mem_map_of_mem hx)⟩
    rcases hl.parent (mem_dirsOf.mp hx).1 hp hproper with rfl | hmem
    · exact hopen
    · exact ⟨newDirMode umask, hdirs p hmem, humask⟩
  obtain ⟨ws₃, hclose, hclosed, hrest⟩ := applyDeferred_sets
    (sortDeferred_deepest (hpaths ▸ hl.dirs_nodup)) humask hready
  have hdir : ∀ x ∈ dirsOf listed, ws₃.nodes x.1 = some (restoredNode umask content x.2) ∧
      ∀ ms, restoredMtime x.2 = some ms → ws₃.mtimes x.1 = some ms := by
    intro x hx
    have hin := (sortDeferred_perm _).mem_iff.mpr (List.mem_map_of_mem (f := deferredOf) hx)
    obtain ⟨hnode, htime⟩ := hclosed _ hin
    have hisDir := (mem_dirsOf.mp hx).2
    refine ⟨hnode.trans ?_, fun ms hms => htime ms ?_⟩
    · rw [restoredNode, isDirectory_tree hisDir]
      rfl
    · rw [restoredMtime, hisDir, if_neg (by simp)] at hms
      exact hms
  have hother : ∀ p, p ∉ (dirsOf listed).map Prod.fst →
      ws₃.nodes p = ws₂.nodes p ∧ ws₃.mtimes p = ws₂.mtimes p := by
    intro p hp
    refine hrest p fun hmem => hp ?_
    rw [← hpaths]
    exact ((sortDeferred_perm _).map Prod.fst).mem_iff.mp hmem
  have hentry : ∀ p e, entryAt store root p = some e →
      ws₃.nodes p = some (restoredNode umask content e) ∧
        ∀ ms, restoredMtime e = some ms → ws₃.mtimes p = some ms := by
    intro p e he
    have hmem := (hl.mem (p, e)).mpr he
    cases hkind : isDirectory e with
    | true => exact hdir (p, e) (mem_dirsOf.mpr ⟨hmem, hkind⟩)
    | false =>
      have hx : (p, e) ∈ filesOf listed := mem_filesOf.mpr ⟨hmem, hkind⟩
      obtain ⟨hsame, htime⟩ := hother p (hl.file_not_dir hx).2
      rw [hsame, htime]
      exact hfiles (p, e) hx
  refine ⟨ws₃, ?_, fun p hne => ?_, fun p e ms he hms => (hentry p e he).2 ms hms⟩
  · simp only [materializeFlat, hcreated, bind, Except.bind, manifestOf, hmake, hwrite, hclose]
  · cases he : entryAt store root p with
    | some e => exact (hentry p e he).1
    | none =>
      have habsent : p ∉ listed.map Prod.fst := by
        intro hmem
        obtain ⟨x, hx, rfl⟩ := List.mem_map.mp hmem
        rw [(hl.mem x).mp hx] at he
        cases he
      have hnotDir : p ∉ (dirsOf listed).map Prod.fst := fun hmem =>
        habsent ((List.filter_sublist.map Prod.fst).subset hmem)
      rw [(hother p hnotDir).1, hnone p hne habsent]
      rfl

end snapshot

end Scarab.Storage
