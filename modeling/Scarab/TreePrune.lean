import Scarab.TreeStore

/-!
# Restricting a tree to declared paths

The selection is grouped by first segment, a whole entry covering every deeper selection of
it, and the trees on the way are rebuilt bottom-up.
-/
namespace Scarab.Storage

open Depot

inductive PruneError where
  | missingPath (path : Text)
  | unsafePath (path : Text)
  | storage (e : StorageError)
  deriving DecidableEq, Repr

def joinSlash (segments : List Text) : Text := ['/'].intercalate segments

/-- The segments of a path without the empty ones and the `.`s, where it is safe. -/
def segmentsOf (path : Text) : Option (List Text) :=
  let parts := path.splitOn '/'
  let segments := parts.filter fun s => s ≠ [] ∧ s ≠ ['.']
  if ['.', '.'] ∈ parts ∨ path.head? = some '/' ∨ segments = [] then none else some segments

/-- The names selected at one level, each with the selections below it, or `none` for all of
it. -/
abbrev Wanted := List (Text × Option (List Text))

def addRest (rest : List Text) (slot : Option (List Text)) : Option (List Text) :=
  if rest = [] then none else slot.map (· ++ [joinSlash rest])

def addWanted (head : Text) (rest : List Text) : Wanted → Wanted
  | [] => [(head, addRest rest (some []))]
  | (name, slot) :: wanted =>
      if name = head then (name, addRest rest slot) :: wanted
      else (name, slot) :: addWanted head rest wanted

def groupPaths : List Text → Wanted → Except PruneError Wanted
  | [], wanted => .ok wanted
  | path :: paths, wanted =>
      match segmentsOf path with
      | none | some [] => .error (.unsafePath path)
      | some (head :: rest) => groupPaths paths (addWanted head rest wanted)

/-- A missing path is reported as the author wrote it, from the top. -/
def reroot (name : Text) : PruneError → PruneError
  | .missingPath path => .missingPath (name ++ '/' :: path)
  | e => e

variable {host : Host}

section keeping

variable (prune : List Text → Text → Store host → Except PruneError (Text × Store host))
  (entries : List TreeEntry)

def keepOne (name : Text) (slot : Option (List Text)) (store : Store host) :
    Except PruneError (TreeEntry × Store host) :=
  match findNamed name entries with
  | none => .error (.missingPath name)
  | some entry =>
      match entry.target, slot with
      | _, none => .ok (entry, store)
      | .tree sub, some deeper =>
          match prune deeper sub store with
          | .error e => .error (reroot name e)
          | .ok (pruned, store) => .ok (⟨name, .tree pruned, entry.mode, entry.mtimeMs⟩, store)
      | .blob _, some deeper =>
          .error (.missingPath (name ++ '/' :: [','].intercalate deeper))

def keepAll : Wanted → Store host → Except PruneError (List TreeEntry × Store host)
  | [], store => .ok ([], store)
  | (name, slot) :: wanted, store =>
      match keepOne prune entries name slot store with
      | .error e => .error e
      | .ok (entry, store) =>
          match keepAll wanted store with
          | .error e => .error e
          | .ok (kept, store) => .ok (entry :: kept, store)

end keeping

def pruneWithin : ℕ → List Text → Text → Store host → Except PruneError (Text × Store host)
  | 0, _, _, _ => .error (.storage .exhausted)
  | fuel + 1, paths, root, store =>
      match groupPaths paths [] with
      | .error e => .error e
      | .ok wanted =>
          match treeEntries store root with
          | .error e => .error (.storage e)
          | .ok entries =>
              match keepAll (pruneWithin fuel) entries wanted store with
              | .error e => .error e
              | .ok (kept, store) => .ok (putTree (sortByName kept) store)

/-- Fuel for a recursion that takes one segment off a path. -/
def depthBound (paths : List Text) : ℕ := (paths.map fun path => (path.splitOn '/').length).sum

def pruneTree (paths : List Text) (root : Text) (store : Store host) :
    Except PruneError (Text × Store host) :=
  pruneWithin (depthBound paths + 1) paths root store

/-- Segments as a safe path has them. -/
def Clean (segments : List Text) : Prop :=
  ∀ s ∈ segments, s ≠ [] ∧ s ≠ ['.'] ∧ s ≠ ['.', '.'] ∧ '/' ∉ s

theorem slash_notMem_splitOn {s : Text} : ∀ {path : Text}, s ∈ path.splitOn '/' → '/' ∉ s
  | [], h => by
      simp only [List.splitOn_nil, List.mem_singleton] at h
      simp [h]
  | c :: path, h => by
      rw [List.splitOn_cons_eq_if_modifyHead] at h
      split_ifs at h with hc
      · rcases List.mem_cons.mp h with rfl | h
        · simp
        · exact slash_notMem_splitOn h
      · obtain ⟨first, more, hparts⟩ :=
          List.exists_cons_of_ne_nil (List.splitOn_ne_nil '/' path)
        rw [hparts, List.modifyHead_cons] at h
        have hfirst : '/' ∉ first := slash_notMem_splitOn (by rw [hparts]; exact List.mem_cons_self)
        rcases List.mem_cons.mp h with rfl | h
        · simp only [List.mem_cons, not_or]
          exact ⟨fun heq => hc (by simp [← heq]), hfirst⟩
        · exact slash_notMem_splitOn (by rw [hparts]; exact List.mem_cons_of_mem _ h)

theorem segmentsOf_eq_some {path : Text} {segments : List Text}
    (h : segmentsOf path = some segments) :
    segments ≠ [] ∧ Clean segments ∧ segments.length ≤ (path.splitOn '/').length := by
  simp only [segmentsOf] at h
  split_ifs at h with hbad
  obtain rfl := Option.some.inj h
  rw [not_or, not_or] at hbad
  refine ⟨hbad.2.2, fun s hs => ?_, List.length_filter_le _ _⟩
  obtain ⟨hmem, hs⟩ := List.mem_filter.mp hs
  have hne : s ≠ [] ∧ s ≠ ['.'] := by simpa using hs
  exact ⟨hne.1, hne.2, fun hdots => hbad.1 (hdots ▸ hmem), slash_notMem_splitOn hmem⟩

theorem splitOn_joinSlash {segments : List Text} (hclean : Clean segments) (hne : segments ≠ []) :
    (joinSlash segments).splitOn '/' = segments :=
  List.splitOn_intercalate '/' (fun s hs => (hclean s hs).2.2.2) hne

theorem Clean.filter_eq {segments : List Text} (hclean : Clean segments) :
    (segments.filter fun s => s ≠ [] ∧ s ≠ ['.']) = segments := by
  refine List.filter_eq_self.mpr fun s hs => ?_
  simpa using ⟨(hclean s hs).1, (hclean s hs).2.1⟩

/-- A path put together from clean segments has these segments again. -/
theorem segmentsOf_joinSlash {segments : List Text} (hclean : Clean segments)
    (hne : segments ≠ []) : segmentsOf (joinSlash segments) = some segments := by
  have hdots : ['.', '.'] ∉ segments := fun hmem => (hclean _ hmem).2.2.1 rfl
  have hhead : (joinSlash segments).head? ≠ some '/' := by
    obtain ⟨first, more, rfl⟩ := List.exists_cons_of_ne_nil hne
    obtain ⟨hfirst, -, -, hslash⟩ := hclean first List.mem_cons_self
    obtain ⟨c, rest, rfl⟩ := List.exists_cons_of_ne_nil hfirst
    have hc : '/' ≠ c := fun heq => hslash (heq ▸ List.mem_cons_self)
    cases more with
    | nil => simpa [joinSlash] using hc.symm
    | cons next more => simpa [joinSlash, List.intercalate_cons_cons] using hc.symm
  simp only [segmentsOf, splitOn_joinSlash hclean hne, hclean.filter_eq]
  rw [if_neg (by simp [hdots, hhead, hne])]

/-- What the selections starting with a name say below it. -/
def restsOf (name : Text) (selection : List (List Text)) : List (List Text) :=
  selection.filterMap fun q =>
    match q with
    | [] => none
    | head :: rest => if head = name then some rest else none

def slotOf (rests : List (List Text)) : Option (List Text) :=
  if [] ∈ rests then none else some (rests.map joinSlash)

/-- One slot for each first segment of the selection. -/
structure Groups (selection : List (List Text)) (wanted : Wanted) : Prop where
  names : (wanted.map Prod.fst).Nodup
  slots : ∀ w ∈ wanted, restsOf w.1 selection ≠ [] ∧ w.2 = slotOf (restsOf w.1 selection)
  heads : ∀ name, restsOf name selection ≠ [] → name ∈ wanted.map Prod.fst

theorem mem_restsOf {name : Text} {rest : List Text} {selection : List (List Text)} :
    rest ∈ restsOf name selection ↔ name :: rest ∈ selection := by
  simp only [restsOf, List.mem_filterMap]
  constructor
  · rintro ⟨q, hq, hrest⟩
    cases q with
    | nil => cases hrest
    | cons head tail =>
      simp only at hrest
      split_ifs at hrest with hhead
      obtain rfl := Option.some.inj hrest
      rwa [← hhead]
  · exact fun h => ⟨name :: rest, h, by simp⟩

theorem restsOf_append (name head : Text) (rest : List Text) (selection : List (List Text)) :
    restsOf name (selection ++ [head :: rest]) =
      restsOf name selection ++ if head = name then [rest] else [] := by
  rw [restsOf, List.filterMap_append, restsOf]
  split_ifs with h <;> simp [h]

theorem slotOf_append (rests : List (List Text)) (rest : List Text) :
    slotOf (rests ++ [rest]) = addRest rest (slotOf rests) := by
  by_cases hrest : rest = []
  · simp [slotOf, addRest, hrest]
  · by_cases hmem : [] ∈ rests
    · simp [slotOf, addRest, hrest, hmem]
    · simp [slotOf, addRest, hrest, hmem, Ne.symm hrest]

theorem addWanted_fst (head : Text) (rest : List Text) (wanted : Wanted) :
    (addWanted head rest wanted).map Prod.fst =
      if head ∈ wanted.map Prod.fst then wanted.map Prod.fst
      else wanted.map Prod.fst ++ [head] := by
  induction wanted with
  | nil => rfl
  | cons w wanted ih =>
    simp only [addWanted]
    by_cases hname : w.1 = head
    · simp [hname]
    · rw [if_neg hname, List.map_cons, ih]
      by_cases hmem : head ∈ wanted.map Prod.fst
      · simp [hmem, Ne.symm hname]
      · simp [hmem, Ne.symm hname]

/-- A slot after one more selection is the old one, or the one of its name with the selection
added. -/
theorem mem_addWanted {head : Text} {rest : List Text} {w : Text × Option (List Text)} :
    ∀ {wanted : Wanted}, (wanted.map Prod.fst).Nodup → w ∈ addWanted head rest wanted →
      (w.1 ≠ head ∧ w ∈ wanted) ∨
      (w.1 = head ∧ ((∃ slot, (head, slot) ∈ wanted ∧ w.2 = addRest rest slot) ∨
        (head ∉ wanted.map Prod.fst ∧ w.2 = addRest rest (some []))))
  | [], _, h => by
      obtain rfl := List.mem_singleton.mp h
      exact .inr ⟨rfl, .inr ⟨List.not_mem_nil, rfl⟩⟩
  | (name, slot) :: wanted, hnodup, h => by
      rw [List.map_cons, List.nodup_cons] at hnodup
      simp only [addWanted] at h
      split_ifs at h with hname
      · rcases List.mem_cons.mp h with rfl | h
        · exact .inr ⟨hname, .inl ⟨slot, by simp [hname], rfl⟩⟩
        · refine .inl ⟨fun heq => hnodup.1 ?_, List.mem_cons_of_mem _ h⟩
          rw [hname, ← heq]
          exact List.mem_map.mpr ⟨w, h, rfl⟩
      · rcases List.mem_cons.mp h with rfl | h
        · exact .inl ⟨hname, List.mem_cons_self⟩
        · rcases mem_addWanted hnodup.2 h with ⟨hne, hw⟩ | ⟨heq, ⟨slot', hw, hslot⟩ | ⟨hnot, hslot⟩⟩
          · exact .inl ⟨hne, List.mem_cons_of_mem _ hw⟩
          · exact .inr ⟨heq, .inl ⟨slot', List.mem_cons_of_mem _ hw, hslot⟩⟩
          · refine .inr ⟨heq, .inr ⟨?_, hslot⟩⟩
            simpa [List.mem_cons, Ne.symm hname] using hnot

theorem Groups.add {selection : List (List Text)} {wanted : Wanted} (h : Groups selection wanted)
    (head : Text) (rest : List Text) :
    Groups (selection ++ [head :: rest]) (addWanted head rest wanted) where
  names := by
    rw [addWanted_fst]
    split_ifs with hmem
    · exact h.names
    · exact List.nodup_append.mpr ⟨h.names, List.nodup_singleton _, by
        intro a ha b hb heq
        obtain rfl := List.mem_singleton.mp hb
        exact hmem (heq ▸ ha)⟩
  slots := by
    intro w hw
    rw [restsOf_append]
    rcases mem_addWanted h.names hw with ⟨hne, hold⟩ | ⟨rfl, ⟨slot, hold, hslot⟩ | ⟨hnew, hslot⟩⟩
    · rw [if_neg (Ne.symm hne), List.append_nil]
      exact h.slots w hold
    · rw [if_pos rfl, slotOf_append, ← (h.slots _ hold).2]
      exact ⟨by simp, hslot⟩
    · have hnone : restsOf w.1 selection = [] := by
        by_contra hsome
        exact hnew (h.heads _ hsome)
      rw [if_pos rfl, slotOf_append, hnone]
      exact ⟨by simp, by simpa [slotOf] using hslot⟩
  heads := by
    intro name hname
    rw [addWanted_fst]
    rw [restsOf_append] at hname
    by_cases hhead : head = name
    · subst hhead
      split_ifs with hmem
      · exact hmem
      · simp
    · rw [if_neg hhead, List.append_nil] at hname
      split_ifs
      · exact h.heads name hname
      · exact List.mem_append_left _ (h.heads name hname)

theorem Groups.nil : Groups [] [] :=
  ⟨List.nodup_nil, fun _ h => (List.not_mem_nil h).elim, fun _ h => (h rfl).elim⟩

/-- Each path with its segments. -/
def Spelled (paths : List Text) (selection : List (List Text)) : Prop :=
  List.Forall₂ (fun path q => segmentsOf path = some q) paths selection

theorem groupPaths_spelled {paths : List Text} {selection : List (List Text)}
    (h : Spelled paths selection) {before : List (List Text)} {wanted : Wanted}
    (hw : Groups before wanted) :
    ∃ wanted', groupPaths paths wanted = .ok wanted' ∧ Groups (before ++ selection) wanted' := by
  induction h generalizing before wanted with
  | nil => exact ⟨wanted, rfl, by rwa [List.append_nil]⟩
  | @cons path q paths selection hpath _ ih =>
    obtain ⟨head, rest, rfl⟩ := List.exists_cons_of_ne_nil (segmentsOf_eq_some hpath).1
    obtain ⟨wanted', hgroup, hgroups⟩ := ih (hw.add head rest)
    refine ⟨wanted', ?_, by simpa using hgroups⟩
    rw [groupPaths, hpath]
    exact hgroup

theorem groupPaths_unsafe {path : Text} (hpath : segmentsOf path = none) :
    ∀ {paths : List Text} (_ : path ∈ paths) (wanted : Wanted),
      ∃ found, groupPaths paths wanted = .error (.unsafePath found)
  | first :: paths, hmem, wanted => by
      rw [groupPaths]
      split
      · exact ⟨first, rfl⟩
      · exact ⟨first, rfl⟩
      · next hfirst =>
        rcases List.mem_cons.mp hmem with rfl | hmem
        · rw [hpath] at hfirst
          cases hfirst
        · exact groupPaths_unsafe hpath hmem _

/-- A path is selected when it leads to a listed one or lies below it. -/
def Selected (selection : List (List Text)) (path : List Text) : Prop :=
  ∃ q ∈ selection, q <+: path ∨ path <+: q

/-- A listed path that is not below another. -/
def Outermost (selection : List (List Text)) (q : List Text) : Prop :=
  q ∈ selection ∧ ∀ q' ∈ selection, q' <+: q → q' = q

def Present (store : Store host) (root : Text) (selection : List (List Text)) : Prop :=
  ∀ q, Outermost selection q → entryAt store root q ≠ none

/-- The second tree is the first restricted to the selection. -/
structure Restricts (store : Store host) (root : Text) (selection : List (List Text))
    (store' : Store host) (root' : Text) : Prop where
  inside : ∀ path, Selected selection path → viewAt store' root' path = viewAt store root path
  outside : ∀ path, ¬ Selected selection path → viewAt store' root' path = none

theorem exists_outermost {selection : List (List Text)} (h : selection ≠ []) :
    ∃ q, Outermost selection q := by
  obtain ⟨q, hq, hmin⟩ := selection.toFinset.exists_min_image List.length
    (List.toFinset_nonempty_iff _ |>.mpr h)
  refine ⟨q, List.mem_toFinset.mp hq, fun q' hq' hpre => ?_⟩
  exact hpre.eq_of_length_le (hmin q' (List.mem_toFinset.mpr hq'))

theorem outermost_cons {name : Text} {rest : List Text} {selection : List (List Text)}
    (hne : [] ∉ selection) :
    Outermost selection (name :: rest) ↔ Outermost (restsOf name selection) rest := by
  constructor
  · rintro ⟨hmem, hmin⟩
    refine ⟨mem_restsOf.mpr hmem, fun rest' hrest' hpre => ?_⟩
    have heq := hmin _ (mem_restsOf.mp hrest') (List.cons_prefix_cons.mpr ⟨rfl, hpre⟩)
    exact (List.cons.inj heq).2
  · rintro ⟨hmem, hmin⟩
    refine ⟨mem_restsOf.mp hmem, fun q' hq' hpre => ?_⟩
    cases q' with
    | nil => exact absurd hq' hne
    | cons head tail =>
      obtain ⟨rfl, htail⟩ := List.cons_prefix_cons.mp hpre
      rw [hmin tail (mem_restsOf.mpr hq') htail]

theorem selected_cons {name : Text} {path : List Text} {selection : List (List Text)}
    (hne : [] ∉ selection) :
    Selected selection (name :: path) ↔ Selected (restsOf name selection) path := by
  constructor
  · rintro ⟨q, hq, hpre⟩
    cases q with
    | nil => exact absurd hq hne
    | cons head tail =>
      simp only [List.cons_prefix_cons] at hpre
      rcases hpre with ⟨rfl, hpre⟩ | ⟨rfl, hpre⟩
      · exact ⟨tail, mem_restsOf.mpr hq, .inl hpre⟩
      · exact ⟨tail, mem_restsOf.mpr hq, .inr hpre⟩
  · rintro ⟨rest, hrest, hpre⟩
    refine ⟨name :: rest, mem_restsOf.mp hrest, ?_⟩
    simpa only [List.cons_prefix_cons, true_and] using hpre

theorem selected_nil_of_mem {selection : List (List Text)} (h : [] ∈ selection)
    (path : List Text) : Selected selection path := ⟨[], h, .inl (List.nil_prefix)⟩

/-- What the recursion promises for one sub-tree and one list of paths below it. -/
structure Prunes (prune : List Text → Text → Store host → Except PruneError (Text × Store host))
    (paths : List Text) (selection : List (List Text)) : Prop where
  kept : ∀ {root : Text} {store : Store host}, StoredTree store root →
    Present store root selection → ∃ root' store', prune paths root store = .ok (root', store') ∧
      Extends store store' ∧ StoredTree store' root' ∧
      Restricts store root selection store' root'
  missing : ∀ {root : Text} {store : Store host}, StoredTree store root →
    ¬ Present store root selection → ∃ e, prune paths root store = .error e

/-- An entry kept for the selections below its name: the original with less in it. -/
structure Kept (store : Store host) (rests : List (List Text)) (original : TreeEntry)
    (store' : Store host) (entry : TreeEntry) : Prop where
  name : entry.name = original.name
  subtrees : ∀ sub, entry.target = .tree sub → StoredTree store' sub
  inside : ∀ path, Selected rests path → viewFrom store' path entry = viewFrom store path original
  outside : ∀ path, ¬ Selected rests path → viewFrom store' path entry = none

theorem Kept.of_extends {store store' store'' : Store host} {rests : List (List Text)}
    {original entry : TreeEntry} (h : Kept store rests original store' entry)
    (hx : Extends store' store'') : Kept store rests original store'' entry where
  name := h.name
  subtrees := fun sub hsub => (h.subtrees sub hsub).of_extends hx
  inside := fun path hpath => (viewFrom_of_extends hx h.subtrees path).trans (h.inside path hpath)
  outside := fun path hpath => (viewFrom_of_extends hx h.subtrees path).trans (h.outside path hpath)

/-- The paths below one name lead somewhere. -/
def PresentUnder (store : Store host) (root name : Text) (rests : List (List Text)) : Prop :=
  ∀ rest, Outermost rests rest → entryAt store root (name :: rest) ≠ none

section level

variable {prune : List Text → Text → Store host → Except PruneError (Text × Store host)}
  {store : Store host} {root : Text} {entries : List TreeEntry}
  (read : treeEntries store root = .ok entries)
  (subtrees : ∀ e ∈ entries, ∀ sub, e.target = .tree sub → StoredTree store sub)
include read subtrees

theorem present_of_under {sub : Text} {original : TreeEntry} {name : Text}
    (hfind : findNamed name entries = some original) (htarget : original.target = .tree sub)
    {rests : List (List Text)} (hrests : [] ∉ rests) {store₁ : Store host}
    (hx : Extends store store₁) :
    Present store₁ sub rests ↔ PresentUnder store root name rests := by
  have hsub : StoredTree store sub := subtrees original (findNamed_mem hfind) sub htarget
  have hat : ∀ rest, Outermost rests rest →
      entryAt store root (name :: rest) = entryAt store₁ sub rest := by
    intro rest hrest
    cases rest with
    | nil => exact absurd hrest.1 hrests
    | cons next more =>
      rw [entryAt_of_findNamed read, hfind, Option.bind_some, entryFrom_tree htarget,
        entryAt_of_extends hx hsub]
  exact forall₂_congr fun rest hrest => by rw [hat rest hrest]

theorem keepOne_kept {name : Text} {rests : List (List Text)} (hrests : rests ≠ [])
    (hprune : [] ∉ rests → Prunes prune (rests.map joinSlash) rests)
    (hpresent : PresentUnder store root name rests) {store₁ : Store host}
    (hx : Extends store store₁) :
    ∃ original entry store₂, findNamed name entries = some original ∧
      keepOne prune entries name (slotOf rests) store₁ = .ok (entry, store₂) ∧
      Extends store₁ store₂ ∧ Kept store rests original store₂ entry := by
  obtain ⟨rest, hrest⟩ := exists_outermost hrests
  have hat := hpresent rest hrest
  rw [entryAt_of_findNamed read] at hat
  cases hfind : findNamed name entries with
  | none => exact absurd (by rw [hfind]; rfl) hat
  | some original =>
    rw [hfind, Option.bind_some] at hat
    have hsubs := subtrees original (findNamed_mem hfind)
    by_cases hwhole : [] ∈ rests
    · refine ⟨original, original, store₁, rfl, ?_, Extends.refl _, rfl, ?_, ?_, ?_⟩
      · simp only [keepOne, hfind, slotOf, if_pos hwhole]
      · exact fun sub hsub => (hsubs sub hsub).of_extends hx
      · exact fun path _ => viewFrom_of_extends hx hsubs path
      · exact fun path hpath => absurd (selected_nil_of_mem hwhole path) hpath
    · cases htarget : original.target with
      | blob hex =>
        cases rest with
        | nil => exact absurd hrest.1 hwhole
        | cons next more => simp [entryFrom, htarget] at hat
      | tree sub =>
        have hsub := hsubs sub htarget
        obtain ⟨pruned, store₂, hrun, hx₂, hstored, hview⟩ :=
          (hprune hwhole).kept (hsub.of_extends hx)
            ((present_of_under read subtrees hfind htarget hwhole hx).mpr hpresent)
        refine ⟨original, ⟨name, .tree pruned, original.mode, original.mtimeMs⟩, store₂, rfl, ?_,
          hx₂, (findNamed_name hfind).symm, ?_, ?_, ?_⟩
        · simp only [keepOne, hfind, htarget, slotOf, if_neg hwhole, hrun]
        · intro s hs
          obtain rfl := TreeTarget.tree.inj hs
          exact hstored
        · intro path hpath
          cases path with
          | nil => simp [viewFrom, entryFrom, viewOf, kindOf, htarget]
          | cons next more =>
            rw [viewFrom_tree rfl (List.cons_ne_nil _ _), hview.inside _ hpath,
              viewAt_of_extends hx hsub, viewFrom_tree htarget (List.cons_ne_nil _ _)]
        · intro path hpath
          cases path with
          | nil => exact absurd ⟨rest, hrest.1, .inr List.nil_prefix⟩ hpath
          | cons next more =>
            rw [viewFrom_tree rfl (List.cons_ne_nil _ _), hview.outside _ hpath]

theorem keepOne_missing {name : Text} {rests : List (List Text)}
    (hprune : [] ∉ rests → Prunes prune (rests.map joinSlash) rests)
    (hmissing : ¬ PresentUnder store root name rests) {store₁ : Store host}
    (hx : Extends store store₁) :
    ∃ e, keepOne prune entries name (slotOf rests) store₁ = .error e := by
  cases hfind : findNamed name entries with
  | none => exact ⟨_, by rw [keepOne, hfind]⟩
  | some original =>
    by_cases hwhole : [] ∈ rests
    · refine absurd (fun rest hrest => ?_) hmissing
      have hnil : rest = [] := (hrest.2 [] hwhole List.nil_prefix).symm
      rw [entryAt_of_findNamed read, hfind, hnil]
      exact Option.some_ne_none _
    · cases htarget : original.target with
      | blob hex =>
        exact ⟨_, by simp only [keepOne, hfind, htarget, slotOf, if_neg hwhole]; rfl⟩
      | tree sub =>
        have hsub := subtrees original (findNamed_mem hfind) sub htarget
        obtain ⟨e, hrun⟩ := (hprune hwhole).missing (hsub.of_extends hx) fun hpresent =>
          hmissing ((present_of_under read subtrees hfind htarget hwhole hx).mp hpresent)
        exact ⟨_, by simp only [keepOne, hfind, htarget, slotOf, if_neg hwhole, hrun]; rfl⟩

/-- The entry of a slot, restricted to the selections of its name. -/
def KeptSlot (store : Store host) (entries : List TreeEntry) (selection : List (List Text))
    (store' : Store host) (w : Text × Option (List Text)) (entry : TreeEntry) : Prop :=
  ∃ original, findNamed w.1 entries = some original ∧
    Kept store (restsOf w.1 selection) original store' entry

theorem keepAll_kept {selection : List (List Text)} {wanted : Wanted}
    (hslots : ∀ w ∈ wanted, restsOf w.1 selection ≠ [] ∧ w.2 = slotOf (restsOf w.1 selection))
    (hprune : ∀ name, restsOf name selection ≠ [] → [] ∉ restsOf name selection →
      Prunes prune ((restsOf name selection).map joinSlash) (restsOf name selection))
    (hpresent : ∀ w ∈ wanted, PresentUnder store root w.1 (restsOf w.1 selection))
    {store₁ : Store host} (hx : Extends store store₁) :
    ∃ kept store₂, keepAll prune entries wanted store₁ = .ok (kept, store₂) ∧
      Extends store₁ store₂ ∧
      List.Forall₂ (KeptSlot store entries selection store₂) wanted kept := by
  induction wanted generalizing store₁ with
  | nil => exact ⟨[], store₁, rfl, Extends.refl _, .nil⟩
  | cons w wanted ih =>
    obtain ⟨name, slot⟩ := w
    obtain ⟨hne, hslot⟩ := hslots _ List.mem_cons_self
    obtain ⟨original, entry, store₂, hfind, hrun, hx₂, hkept⟩ :=
      keepOne_kept read subtrees hne (hprune name hne) (hpresent _ List.mem_cons_self) hx
    obtain ⟨kept, store₃, hall, hx₃, hkepts⟩ :=
      ih (fun w hw => hslots w (List.mem_cons_of_mem _ hw))
        (fun w hw => hpresent w (List.mem_cons_of_mem _ hw)) (hx.trans hx₂)
    refine ⟨entry :: kept, store₃, ?_, hx₂.trans hx₃,
      .cons ⟨original, hfind, hkept.of_extends hx₃⟩ hkepts⟩
    obtain rfl : slot = slotOf (restsOf name selection) := hslot
    simp only [keepAll, hrun, hall]

theorem keepAll_missing {selection : List (List Text)} {wanted : Wanted}
    (hslots : ∀ w ∈ wanted, restsOf w.1 selection ≠ [] ∧ w.2 = slotOf (restsOf w.1 selection))
    (hprune : ∀ name, restsOf name selection ≠ [] → [] ∉ restsOf name selection →
      Prunes prune ((restsOf name selection).map joinSlash) (restsOf name selection))
    (hmissing : ∃ w ∈ wanted, ¬ PresentUnder store root w.1 (restsOf w.1 selection))
    {store₁ : Store host} (hx : Extends store store₁) :
    ∃ e, keepAll prune entries wanted store₁ = .error e := by
  induction wanted generalizing store₁ with
  | nil =>
    obtain ⟨w, hw, -⟩ := hmissing
    cases hw
  | cons w wanted ih =>
    obtain ⟨name, slot⟩ := w
    obtain ⟨hne, hslot⟩ := hslots _ List.mem_cons_self
    obtain rfl : slot = slotOf (restsOf name selection) := hslot
    by_cases hhere : PresentUnder store root name (restsOf name selection)
    · obtain ⟨original, entry, store₂, hfind, hrun, hx₂, hkept⟩ :=
        keepOne_kept read subtrees hne (hprune name hne) hhere hx
      have hrest : ∃ w ∈ wanted, ¬ PresentUnder store root w.1 (restsOf w.1 selection) := by
        obtain ⟨w, hw, hnot⟩ := hmissing
        rcases List.mem_cons.mp hw with rfl | hw
        · exact absurd hhere hnot
        · exact ⟨w, hw, hnot⟩
      obtain ⟨e, hall⟩ :=
        ih (fun w hw => hslots w (List.mem_cons_of_mem _ hw)) hrest (hx.trans hx₂)
      exact ⟨e, by simp only [keepAll, hrun, hall]⟩
    · obtain ⟨e, hrun⟩ := keepOne_missing read subtrees (hprune name hne) hhere hx
      exact ⟨e, by simp only [keepAll, hrun]⟩

end level

section rebuilding

variable {store store' : Store host} {entries : List TreeEntry} {selection : List (List Text)}
  {wanted : Wanted} {kept : List TreeEntry}
  (h : List.Forall₂ (KeptSlot store entries selection store') wanted kept)
include h

theorem names_of_kept : kept.map TreeEntry.name = wanted.map Prod.fst := by
  induction h with
  | nil => rfl
  | cons hslot _ ih =>
    obtain ⟨original, hfind, hkept⟩ := hslot
    rw [List.map_cons, List.map_cons, ih, hkept.name, findNamed_name hfind]

theorem findNamed_kept {name : Text} (hname : name ∈ wanted.map Prod.fst) :
    ∃ original entry, findNamed name entries = some original ∧
      findNamed name kept = some entry ∧
      Kept store (restsOf name selection) original store' entry := by
  induction h with
  | nil => cases hname
  | @cons w entry wanted kept hslot _ ih =>
    obtain ⟨original, hfind, hkept⟩ := hslot
    have hentry : entry.name = w.1 := hkept.name.trans (findNamed_name hfind)
    by_cases hhere : w.1 = name
    · subst hhere
      exact ⟨original, entry, hfind, by simp [findNamed, hentry], hkept⟩
    · have hthere : name ∈ wanted.map Prod.fst := by
        simpa [Ne.symm hhere] using hname
      obtain ⟨o, e, ho, he, hk⟩ := ih hthere
      refine ⟨o, e, ho, ?_, hk⟩
      rw [← he, findNamed, List.find?_cons_of_neg (by simp [hentry, hhere])]
      rfl

theorem subtrees_of_kept : ∀ e ∈ kept, ∀ sub, e.target = .tree sub → StoredTree store' sub := by
  induction h with
  | nil => exact fun e he => (List.not_mem_nil he).elim
  | cons hslot _ ih =>
    obtain ⟨original, -, hkept⟩ := hslot
    intro e he
    rcases List.mem_cons.mp he with rfl | he
    · exact hkept.subtrees
    · exact ih e he

end rebuilding

theorem Spelled.ne_nil {paths : List Text} {selection : List (List Text)}
    (h : Spelled paths selection) {q : List Text} (hq : q ∈ selection) : q ≠ [] ∧ Clean q := by
  induction h with
  | nil => cases hq
  | cons hpath _ ih =>
    rcases List.mem_cons.mp hq with rfl | hq
    · exact ⟨(segmentsOf_eq_some hpath).1, (segmentsOf_eq_some hpath).2.1⟩
    · exact ih hq

/-- The selections handed down spell what is left of the paths. -/
theorem Spelled.rests {paths : List Text} {selection : List (List Text)}
    (h : Spelled paths selection) {name : Text} (hne : [] ∉ restsOf name selection) :
    Spelled ((restsOf name selection).map joinSlash) (restsOf name selection) := by
  refine List.forall₂_map_left_iff.mpr (List.forall₂_same.mpr fun rest hrest => ?_)
  have hclean := (h.ne_nil (mem_restsOf.mp hrest)).2
  refine segmentsOf_joinSlash (fun s hs => hclean s (List.mem_cons_of_mem _ hs)) ?_
  exact fun hnil => hne (hnil ▸ hrest)

theorem pruneWithin_prunes (hf : Faithful host) (fuel : ℕ) {paths : List Text}
    {selection : List (List Text)} (hspelled : Spelled paths selection)
    (hfuel : ∀ q ∈ selection, q.length ≤ fuel) :
    Prunes (@pruneWithin host (fuel + 1)) paths selection := by
  induction fuel using Nat.strong_induction_on generalizing paths selection with
  | _ fuel ih =>
    have hnil : [] ∉ selection := fun hmem => (hspelled.ne_nil hmem).1 rfl
    have hbelow : ∀ name, restsOf name selection ≠ [] → [] ∉ restsOf name selection →
        Prunes (@pruneWithin host fuel) ((restsOf name selection).map joinSlash)
          (restsOf name selection) := by
      intro name hsome hwhole
      obtain ⟨rest, hrest⟩ := List.exists_mem_of_ne_nil _ hsome
      have hlen := hfuel _ (mem_restsOf.mp hrest)
      rw [List.length_cons] at hlen
      obtain ⟨fuel, rfl⟩ : ∃ n, fuel = n + 1 := ⟨fuel - 1, by omega⟩
      refine ih fuel (by omega) (hspelled.rests hwhole) fun q hq => ?_
      have := hfuel _ (mem_restsOf.mp hq)
      rw [List.length_cons] at this
      omega
    obtain ⟨wanted, hgroup, hgroups⟩ := groupPaths_spelled hspelled Groups.nil
    rw [List.nil_append] at hgroups
    constructor
    · intro root store hroot hpresent
      obtain ⟨read, -, -, subtrees⟩ := hroot
      rename_i entries
      have hunder : ∀ w ∈ wanted, PresentUnder store root w.1 (restsOf w.1 selection) :=
        fun w _ rest hrest => hpresent _ ((outermost_cons hnil).mpr hrest)
      obtain ⟨kept, store₁, hall, hx, hkept⟩ :=
        keepAll_kept read subtrees hgroups.slots hbelow hunder (Extends.refl store)
      have hnames : ((sortByName kept).map TreeEntry.name).Nodup := by
        rw [((sortByName_perm kept).map _).nodup_iff, names_of_kept hkept]
        exact hgroups.names
      have hsubs : ∀ e ∈ sortByName kept, ∀ sub, e.target = .tree sub → StoredTree store₁ sub :=
        fun e he => subtrees_of_kept hkept e (mem_sortByName.mp he)
      have hx₂ := extends_putTree hf (sortByName kept) store₁
      have hstored := StoredTree.putTree hf hnames hsubs
      refine ⟨_, _, by simp only [pruneWithin, hgroup, read, hall], hx.trans hx₂, hstored, ?_⟩
      have hview : ∀ name path, viewAt (putTree (sortByName kept) store₁).2
          (putTree (sortByName kept) store₁).1 (name :: path) =
            (findNamed name kept).bind (viewFrom store₁ path) := by
        intro name path
        rw [viewAt_putTree hf hnames hsubs, findNamed_perm (sortByName_perm kept) hnames]
      constructor
      · intro path hpath
        cases path with
        | nil => rfl
        | cons name path =>
          rw [selected_cons hnil] at hpath
          have hsome : restsOf name selection ≠ [] := by
            obtain ⟨q, hq, -⟩ := hpath
            exact List.ne_nil_of_mem hq
          obtain ⟨original, entry, horig, hentry, hk⟩ :=
            findNamed_kept hkept (hgroups.heads name hsome)
          rw [hview, hentry, viewAt_cons read, horig]
          exact hk.inside path hpath
      · intro path hpath
        cases path with
        | nil => rfl
        | cons name path =>
          rw [selected_cons hnil] at hpath
          rw [hview]
          cases hfind : findNamed name kept with
          | none => rfl
          | some entry =>
            have hmem : name ∈ wanted.map Prod.fst := by
              rw [← names_of_kept hkept, ← findNamed_name hfind]
              exact List.mem_map_of_mem (findNamed_mem hfind)
            obtain ⟨original, entry', -, hentry, hk⟩ := findNamed_kept hkept hmem
            obtain rfl : entry = entry' := Option.some.inj (hfind.symm.trans hentry)
            exact hk.outside path hpath
    · intro root store hroot hmissing
      obtain ⟨read, -, -, subtrees⟩ := hroot
      rename_i entries
      have hslot : ∃ w ∈ wanted, ¬ PresentUnder store root w.1 (restsOf w.1 selection) := by
        simp only [Present, not_forall] at hmissing
        obtain ⟨q, hq, hat⟩ := hmissing
        obtain ⟨name, rest, rfl⟩ := List.exists_cons_of_ne_nil (hspelled.ne_nil hq.1).1
        have hrest := (outermost_cons hnil).mp hq
        obtain ⟨w, hw, rfl⟩ :=
          List.mem_map.mp (hgroups.heads name (List.ne_nil_of_mem hrest.1))
        exact ⟨w, hw, fun hunder => hat (hunder rest hrest)⟩
      obtain ⟨e, hall⟩ :=
        keepAll_missing read subtrees hgroups.slots hbelow hslot (Extends.refl store)
      exact ⟨e, by simp only [pruneWithin, hgroup, read, hall]⟩

/-- The listed paths as segments. -/
def selectionOf (paths : List Text) : List (List Text) := paths.filterMap segmentsOf

theorem spelled_selectionOf {paths : List Text} (hsafe : ∀ path ∈ paths, segmentsOf path ≠ none) :
    Spelled paths (selectionOf paths) := by
  induction paths with
  | nil => exact .nil
  | cons path paths ih =>
    obtain ⟨q, hq⟩ := Option.ne_none_iff_exists'.mp (hsafe path List.mem_cons_self)
    rw [selectionOf, List.filterMap_cons_some hq]
    exact .cons hq (ih fun p hp => hsafe p (List.mem_cons_of_mem _ hp))

theorem length_le_depthBound {paths : List Text} {q : List Text} (hq : q ∈ selectionOf paths) :
    q.length ≤ depthBound paths := by
  obtain ⟨path, hpath, hsegs⟩ := List.mem_filterMap.mp hq
  have hlen := (segmentsOf_eq_some hsegs).2.2
  have hsum : (path.splitOn '/').length ≤ depthBound paths :=
    List.single_le_sum (fun _ _ => Nat.zero_le _) _ (List.mem_map_of_mem hpath)
  exact hlen.trans hsum

theorem pruneTree_prunes (hf : Faithful host) {paths : List Text}
    (hsafe : ∀ path ∈ paths, segmentsOf path ≠ none) :
    Prunes (@pruneTree host) paths (selectionOf paths) := by
  have h := pruneWithin_prunes hf (depthBound paths) (spelled_selectionOf hsafe)
    fun q hq => length_le_depthBound hq
  exact ⟨h.kept, h.missing⟩

theorem pruneTree_unsafe {paths : List Text} {path : Text} (hmem : path ∈ paths)
    (hpath : segmentsOf path = none) (root : Text) (store : Store host) :
    ∃ found, pruneTree paths root store = .error (.unsafePath found) := by
  obtain ⟨found, hgroup⟩ := groupPaths_unsafe hpath hmem []
  exact ⟨found, by simp only [pruneTree, pruneWithin, hgroup]⟩

theorem pruneTree_ok_iff (hf : Faithful host) {store : Store host} {root : Text}
    (h : StoredTree store root) (paths : List Text) :
    (∃ done, pruneTree paths root store = .ok done) ↔
      (∀ path ∈ paths, segmentsOf path ≠ none) ∧ Present store root (selectionOf paths) := by
  constructor
  · rintro ⟨done, hrun⟩
    have hsafe : ∀ path ∈ paths, segmentsOf path ≠ none := by
      intro path hmem hpath
      obtain ⟨found, hbad⟩ := pruneTree_unsafe hmem hpath root store
      rw [hbad] at hrun
      cases hrun
    refine ⟨hsafe, ?_⟩
    by_contra hmissing
    obtain ⟨e, herror⟩ := (pruneTree_prunes hf hsafe).missing h hmissing
    rw [herror] at hrun
    cases hrun
  · rintro ⟨hsafe, hpresent⟩
    obtain ⟨root', store', hrun, -⟩ := (pruneTree_prunes hf hsafe).kept h hpresent
    exact ⟨_, hrun⟩

theorem pruneTree_ok (hf : Faithful host) {store store' : Store host} {root root' : Text}
    (h : StoredTree store root) {paths : List Text}
    (hrun : pruneTree paths root store = .ok (root', store')) :
    Extends store store' ∧ StoredTree store' root' ∧
      Restricts store root (selectionOf paths) store' root' := by
  obtain ⟨hsafe, hpresent⟩ := (pruneTree_ok_iff hf h paths).mp ⟨_, hrun⟩
  obtain ⟨root'', store'', hrun', hx, hstored, hview⟩ :=
    (pruneTree_prunes hf hsafe).kept h hpresent
  obtain ⟨rfl, rfl⟩ := Prod.mk.inj (Except.ok.inj (hrun.symm.trans hrun'))
  exact ⟨hx, hstored, hview⟩

theorem selected_congr {selection selection' : List (List Text)}
    (hsame : ∀ q, q ∈ selection ↔ q ∈ selection') (path : List Text) :
    Selected selection path ↔ Selected selection' path :=
  exists_congr fun q => and_congr (hsame q) Iff.rfl

theorem present_congr {store : Store host} {root : Text} {selection selection' : List (List Text)}
    (hsame : ∀ q, q ∈ selection ↔ q ∈ selection') :
    Present store root selection ↔ Present store root selection' := by
  simp only [Present, Outermost, hsame]

/-- Restrictions by the same paths of trees that look alike look alike. -/
theorem Restricts.views_eq {store₁ store₂ store₁' store₂' : Store host}
    {root₁ root₂ root₁' root₂' : Text} {selection₁ selection₂ : List (List Text)}
    (h₁ : Restricts store₁ root₁ selection₁ store₁' root₁')
    (h₂ : Restricts store₂ root₂ selection₂ store₂' root₂')
    (hsame : ∀ q, q ∈ selection₁ ↔ q ∈ selection₂)
    (hviews : ∀ path, Selected selection₁ path →
      viewAt store₁ root₁ path = viewAt store₂ root₂ path) (path : List Text) :
    viewAt store₁' root₁' path = viewAt store₂' root₂' path := by
  by_cases hpath : Selected selection₁ path
  · rw [h₁.inside path hpath, h₂.inside path ((selected_congr hsame path).mp hpath),
      hviews path hpath]
  · rw [h₁.outside path hpath,
      h₂.outside path fun hsel => hpath ((selected_congr hsame path).mpr hsel)]

theorem outermost_selected {selection : List (List Text)} {q : List Text}
    (h : Outermost selection q) : Selected selection q := ⟨q, h.1, .inl (List.prefix_refl q)⟩

theorem entryAt_none_iff {store : Store host} {root : Text} {path : List Text} :
    entryAt store root path = none ↔ viewAt store root path = none := by
  rw [viewAt, Option.map_eq_none_iff]

theorem Restricts.present {store store' : Store host} {root root' : Text}
    {selection : List (List Text)} (h : Restricts store root selection store' root')
    (hpresent : Present store root selection) : Present store' root' selection := by
  intro q hq
  have hat := hpresent q hq
  rw [ne_eq, entryAt_none_iff] at hat ⊢
  rwa [h.inside q (outermost_selected hq)]

/-- Another order, repetition or spelling of the paths gives the same root. -/
theorem pruneTree_respelled (hf : Faithful host) {store store' : Store host} {root root' : Text}
    (h : StoredTree store root) {paths paths' : List Text}
    (hrun : pruneTree paths root store = .ok (root', store'))
    (hsafe : ∀ path ∈ paths', segmentsOf path ≠ none)
    (hsame : ∀ q, q ∈ selectionOf paths ↔ q ∈ selectionOf paths') :
    ∃ store'', pruneTree paths' root store = .ok (root', store'') := by
  have hpresent := ((pruneTree_ok_iff hf h paths).mp ⟨_, hrun⟩).2
  obtain ⟨-, hstored, hview⟩ := pruneTree_ok hf h hrun
  obtain ⟨root'', store'', hrun', -, hstored', hview'⟩ :=
    (pruneTree_prunes hf hsafe).kept h ((present_congr hsame).mp hpresent)
  have hroot : root' = root'' :=
    hstored.ext hstored' (hview.views_eq hview' hsame fun _ _ => rfl)
  exact ⟨store'', hroot ▸ hrun'⟩

theorem pruneTree_again (hf : Faithful host) {store store' : Store host} {root root' : Text}
    (h : StoredTree store root) {paths : List Text}
    (hrun : pruneTree paths root store = .ok (root', store')) :
    ∃ store'', pruneTree paths root' store' = .ok (root', store'') := by
  obtain ⟨hsafe, hpresent⟩ := (pruneTree_ok_iff hf h paths).mp ⟨_, hrun⟩
  obtain ⟨-, hstored, hview⟩ := pruneTree_ok hf h hrun
  obtain ⟨root'', store'', hrun', -, hstored', hview'⟩ :=
    (pruneTree_prunes hf hsafe).kept hstored (hview.present hpresent)
  have hroot : root'' = root' :=
    hstored'.ext hstored (hview'.views_eq hview (fun _ => Iff.rfl) hview.inside)
  exact ⟨store'', hroot ▸ hrun'⟩

end Scarab.Storage
