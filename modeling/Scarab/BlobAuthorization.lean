import Scarab.BlobAllowlist

/-!
# Blob-read authorization is exact

An entry of the allowlist holds exactly the blobs under the roots it has seen, whatever mixture
of `/flat` reads, shared walks and evictions built it.
-/
namespace Scarab.BlobAuthz

open Interleave Depot

section search

variable {host : Host} {roots : List Text}

/-- The bytes of this address are a tree with these entries. -/
def IsTree (host : Host) (tree : Text) (entries : List TreeEntry) : Prop :=
  ∃ body, host.hashHex body = tree ∧ host.parseTree body = some entries

theorem IsTree.unique (hc : host.CollisionFree) {tree : Text} {entries entries' : List TreeEntry}
    (h : IsTree host tree entries) (h' : IsTree host tree entries') : entries = entries' := by
  obtain ⟨body, hhash, hparse⟩ := h
  obtain ⟨body', hhash', hparse'⟩ := h'
  obtain rfl := hc (hhash.trans hhash'.symm)
  exact Option.some.inj (hparse.symm.trans hparse')

theorem mem_subtreesOf {entries : List TreeEntry} {t : Text} :
    t ∈ subtreesOf entries ↔ ∃ e ∈ entries, e.target = .tree t := by
  simp only [subtreesOf, List.mem_filterMap]
  refine exists_congr fun e => and_congr_right fun _ => ?_
  cases e.target <;> simp

theorem mem_blobsOf {entries : List TreeEntry} {b : Text} :
    b ∈ blobsOf entries ↔ ∃ e ∈ entries, e.target = .blob b := by
  simp only [blobsOf, List.mem_filterMap]
  refine exists_congr fun e => and_congr_right fun _ => ?_
  cases e.target <;> simp

theorem InClosure.subtree {root t s : Text} {entries : List TreeEntry}
    (ht : InClosure host root .tree t) (hentries : IsTree host t entries)
    (hs : s ∈ subtreesOf entries) : InClosure host root .tree s := by
  obtain ⟨body, hhash, hparse⟩ := hentries
  obtain ⟨e, he, htarget⟩ := mem_subtreesOf.mp hs
  have hin := InClosure.entry ht hhash hparse he
  rwa [TreeEntry.member, htarget] at hin

theorem InClosure.blobOf {root t b : Text} {entries : List TreeEntry}
    (ht : InClosure host root .tree t) (hentries : IsTree host t entries)
    (hb : b ∈ blobsOf entries) : InClosure host root .blob b := by
  obtain ⟨body, hhash, hparse⟩ := hentries
  obtain ⟨e, he, htarget⟩ := mem_blobsOf.mp hb
  have hin := InClosure.entry ht hhash hparse he
  rwa [TreeEntry.member, htarget] at hin

/-- Where a search stands: the trees done, those queued, and the blobs found so far. -/
structure Search (host : Host) (roots done queue found : List Text) : Prop where
  start : ∀ r ∈ roots, r ∈ done ∨ r ∈ queue
  trees : ∀ t, t ∈ done ∨ t ∈ queue → ∃ r ∈ roots, InClosure host r .tree t
  blobs : ∀ b ∈ found, ∃ r ∈ roots, InClosure host r .blob b
  closed : ∀ t ∈ done, ∀ entries, IsTree host t entries →
    (∀ s ∈ subtreesOf entries, s ∈ done ∨ s ∈ queue) ∧ ∀ b ∈ blobsOf entries, b ∈ found

theorem Search.init (host : Host) (roots : List Text) : Search host roots [] roots [] :=
  ⟨fun _ hr => .inr hr, fun t ht => ⟨t, ht.resolve_left (by simp), .root⟩, by simp, by simp⟩

theorem Search.skip {done queue found : List Text} {tree : Text}
    (h : Search host roots done (tree :: queue) found) (ht : tree ∈ done) :
    Search host roots done queue found := by
  have hdrop : ∀ t, t ∈ done ∨ t ∈ tree :: queue → t ∈ done ∨ t ∈ queue := by
    intro t hin
    rcases hin with hin | hin
    · exact .inl hin
    · rcases List.mem_cons.mp hin with rfl | hin
      · exact .inl ht
      · exact .inr hin
  refine ⟨fun r hr => hdrop r (h.start r hr), fun t hin => h.trees t ?_, h.blobs,
    fun t hin entries he => ⟨fun s hs => hdrop s ((h.closed t hin entries he).1 s hs),
      (h.closed t hin entries he).2⟩⟩
  exact hin.imp_right (List.mem_cons_of_mem _)

/-- One tree is read: its subtrees are queued and its blobs found. -/
theorem Search.visit (hc : host.CollisionFree) {done queue found : List Text} {tree : Text}
    {entries : List TreeEntry} (h : Search host roots done (tree :: queue) found)
    (he : IsTree host tree entries) :
    Search host roots (tree :: done) (queue ++ subtreesOf entries) (found ++ blobsOf entries) := by
  obtain ⟨r₀, hr₀, hin₀⟩ := h.trees tree (.inr List.mem_cons_self)
  have hkeep : ∀ t, t ∈ done ∨ t ∈ tree :: queue →
      t ∈ tree :: done ∨ t ∈ queue ++ subtreesOf entries := by
    intro t hin
    rcases hin with hin | hin
    · exact .inl (List.mem_cons_of_mem _ hin)
    · rcases List.mem_cons.mp hin with rfl | hin
      · exact .inl List.mem_cons_self
      · exact .inr (List.mem_append_left _ hin)
  refine ⟨fun r hr => hkeep r (h.start r hr), fun t hin => ?_, fun b hb => ?_,
    fun t hin entries' he' => ?_⟩
  · rcases hin with hin | hin
    · rcases List.mem_cons.mp hin with rfl | hin
      · exact ⟨r₀, hr₀, hin₀⟩
      · exact h.trees t (.inl hin)
    · rcases List.mem_append.mp hin with hin | hin
      · exact h.trees t (.inr (List.mem_cons_of_mem _ hin))
      · exact ⟨r₀, hr₀, InClosure.subtree hin₀ he hin⟩
  · rcases List.mem_append.mp hb with hb | hb
    · exact h.blobs b hb
    · exact ⟨r₀, hr₀, InClosure.blobOf hin₀ he hb⟩
  · rcases List.mem_cons.mp hin with rfl | hin
    · obtain rfl := he.unique hc he'
      exact ⟨fun s hs => .inr (List.mem_append_right _ hs), fun b hb =>
        List.mem_append_right _ hb⟩
    · obtain ⟨hsub, hblob⟩ := h.closed t hin entries' he'
      exact ⟨fun s hs => hkeep s (hsub s hs), fun b hb => List.mem_append_left _ (hblob b hb)⟩

/-- A search with nothing left to do has found the blobs under its roots. -/
theorem Search.found_iff {done found : List Text} (h : Search host roots done [] found) {b : Text} :
    b ∈ found ↔ ∃ r ∈ roots, InClosure host r .blob b := by
  refine ⟨h.blobs b, ?_⟩
  rintro ⟨r, hr, hin⟩
  have hall : ∀ kind x, InClosure host r kind x →
      (kind = .tree → x ∈ done) ∧ (kind = .blob → x ∈ found) := by
    intro kind x hx
    induction hx with
    | root => exact ⟨fun _ => (h.start r hr).resolve_right (by simp), nofun⟩
    | @entry hex body entries e _ hhash hparse hmem ih =>
      obtain ⟨hsub, hblob⟩ := h.closed hex (ih.1 rfl) entries ⟨body, hhash, hparse⟩
      cases htarget : e.target with
      | blob b =>
        simp only [TreeEntry.member, htarget]
        exact ⟨nofun, fun _ => hblob b (mem_blobsOf.mpr ⟨e, hmem, htarget⟩)⟩
      | tree t =>
        simp only [TreeEntry.member, htarget]
        refine ⟨fun _ => ?_, nofun⟩
        exact (hsub t (mem_subtreesOf.mpr ⟨e, hmem, htarget⟩)).resolve_right (by simp)
  exact (hall .blob b hin).2 rfl

end search

section allowlist

variable {P : Text → BlobAllowEntry → Prop} {inner : BlobAllowInner} {key : Text}

/-- How many blob hashes are cached. -/
def BlobAllowInner.cached (inner : BlobAllowInner) : ℕ :=
  (inner.entries.map fun x => x.2.blobs.length).sum

/-- One entry a token, each as `P` says, and the bytes they take. -/
structure Sane (P : Text → BlobAllowEntry → Prop) (inner : BlobAllowInner) : Prop where
  nodup : (inner.entries.map (·.1)).Nodup
  bytes : inner.bytes = 32 * inner.cached
  all : ∀ x ∈ inner.entries, P x.1 x.2

theorem mem_of_get {e : BlobAllowEntry} (h : inner.get key = some e) : (key, e) ∈ inner.entries := by
  obtain ⟨x, hfind, rfl⟩ := Option.map_eq_some_iff.mp h
  have hkey : x.1 = key := by simpa using List.find?_some hfind
  rw [← hkey]
  exact List.mem_of_find?_eq_some hfind

theorem get_of_mem {e : BlobAllowEntry} (hn : (inner.entries.map (·.1)).Nodup)
    (h : (key, e) ∈ inner.entries) : inner.get key = some e := by
  unfold BlobAllowInner.get
  generalize inner.entries = entries at hn h
  induction entries with
  | nil => cases h
  | cons x xs ih =>
    rw [List.map_cons, List.nodup_cons] at hn
    rcases List.mem_cons.mp h with rfl | h
    · simp
    · have hne : x.1 ≠ key := fun heq => hn.1 (heq ▸ List.mem_map_of_mem h)
      rw [List.find?_cons_of_neg (by simpa using hne)]
      exact ih hn.2 h

/-- Taking an entry out takes out just its hashes. -/
theorem cached_remove (key : Text) (hn : (inner.entries.map (·.1)).Nodup) :
    (inner.remove key).cached + ((inner.get key).map (·.blobs.length)).getD 0 = inner.cached := by
  show ((inner.entries.filter (·.1 ≠ key)).map fun x => x.2.blobs.length).sum +
    (((inner.entries.find? (·.1 = key)).map (·.2)).map (·.blobs.length)).getD 0 =
      (inner.entries.map fun x => x.2.blobs.length).sum
  generalize inner.entries = entries at hn
  induction entries with
  | nil => rfl
  | cons x xs ih =>
    rw [List.map_cons, List.nodup_cons] at hn
    by_cases hx : x.1 = key
    · have hrest : xs.filter (fun y => decide (y.1 ≠ key)) = xs := by
        refine List.filter_eq_self.mpr fun y hy => decide_eq_true fun heq => hn.1 ?_
        exact hx.trans heq.symm ▸ List.mem_map_of_mem hy
      rw [List.filter_cons_of_neg (by simpa using hx), hrest,
        List.find?_cons_of_pos (by simpa using hx)]
      simp [Nat.add_comm]
    · have hcons := ih hn.2
      rw [List.filter_cons_of_pos (by simpa using hx), List.find?_cons_of_neg (by simpa using hx)]
      simp only [List.map_cons, List.sum_cons]
      omega

theorem Sane.remove (h : Sane P inner) {n : ℕ}
    (hbytes : n = inner.bytes - 32 * ((inner.get key).map (·.blobs.length)).getD 0) :
    Sane P { inner.remove key with bytes := n } := by
  refine ⟨h.nodup.sublist (List.filter_sublist.map _), ?_,
    fun x hx => h.all x (List.mem_of_mem_filter hx)⟩
  have hcount := cached_remove key h.nodup
  show n = 32 * (inner.remove key).cached
  rw [hbytes, h.bytes]
  omega

theorem Sane.insert (h : Sane P inner) {e : BlobAllowEntry} (he : P key e) {n : ℕ}
    (hbytes : n = 32 * ((inner.remove key).cached + e.blobs.length)) :
    Sane P { inner.insert key e with bytes := n } := by
  refine ⟨?_, ?_, fun x hx => ?_⟩
  · show (key :: ((inner.remove key).entries.map (·.1))).Nodup
    refine List.nodup_cons.mpr ⟨fun hmem => ?_, h.nodup.sublist (List.filter_sublist.map _)⟩
    obtain ⟨x, hx, heq⟩ := List.mem_map.mp hmem
    exact of_decide_eq_true (List.mem_filter.mp hx).2 heq
  · rw [hbytes]
    simp [BlobAllowInner.cached, BlobAllowInner.insert, Nat.add_comm]
  · rcases List.mem_cons.mp hx with rfl | hx
    · exact he
    · exact h.all x (List.mem_of_mem_filter hx)

theorem Sane.tick (h : Sane P inner) (n : ℕ) : Sane P { inner with tick := n } :=
  ⟨h.nodup, h.bytes, h.all⟩

theorem Sane.evict (h : Sane P inner) (rounds : ℕ) :
    Sane P (BlobAllowInner.evict key rounds inner) := by
  induction rounds generalizing inner with
  | zero => exact h
  | succ rounds ih =>
    unfold BlobAllowInner.evict
    split_ifs
    · cases hv : inner.victim key with
      | none => exact h
      | some x =>
        have hmem := List.mem_of_mem_filter (List.argmin_mem hv)
        refine ih (h.remove ?_)
        rw [get_of_mem h.nodup hmem]
        simp [Nat.mul_comm]
    · exact h

/-- A lookup leaves the entries sane, and answers from the token's own entry. -/
theorem Sane.lookup (key : Text) (h : Sane P inner) (hP : ∀ e tick, P key e → P key { e with tick := tick })
    (blob : Bytes) (claimed : List Text) (now : ℤ) :
    Sane P (inner.lookup key blob claimed now).2 ∧
      ((inner.lookup key blob claimed now).1 = .allowed →
        ∃ e, P key e ∧ blob ∈ e.blobs) ∧
      ((inner.lookup key blob claimed now).1 = .deniedComplete →
        ∃ e, inner.get key = some e ∧ blob ∉ e.blobs ∧
          ∀ r ∈ claimed, r ∈ e.rootsSeen ∨ r ∈ e.unwalkable) := by
  unfold BlobAllowInner.lookup
  have hget : BlobAllowInner.get { inner with tick := inner.tick + 1 } key = inner.get key := rfl
  simp only [hget]
  cases hentry : inner.get key with
  | none => exact ⟨h.tick _, by simp, by simp⟩
  | some e =>
    have he : P key e := h.all _ (mem_of_get hentry)
    have hdrop := cached_remove key h.nodup
    rw [hentry] at hdrop
    have hkept : Sane P (BlobAllowInner.insert { inner with tick := inner.tick + 1 } key
        { e with tick := inner.tick + 1 }) := by
      refine Sane.insert (h.tick _) (hP e _ he) ?_
      show inner.bytes = 32 * ((inner.remove key).cached + e.blobs.length)
      rw [h.bytes, ← hdrop]
      rfl
    dsimp only
    split_ifs with hexp hblob hall
    · refine ⟨?_, by simp, by simp⟩
      refine Sane.remove (h.tick _) ?_
      rw [hget, hentry]
      simp [Nat.mul_comm]
    · exact ⟨hkept, fun _ => ⟨e, he, hblob⟩, by simp⟩
    · refine ⟨hkept, by simp, fun _ => ⟨e, rfl, hblob, ?_⟩⟩
      simpa using hall
    · exact ⟨hkept, by simp, by simp⟩

theorem Sane.grant (h : Sane P inner) (exp : ℤ) (granted unwalkable : List Text)
    (blobs : List Bytes) (hP : ∀ tick, P key (BlobAllowInner.mergedEntry (inner.get key) exp granted
      unwalkable (sortBlobs blobs) tick)) :
    Sane P (inner.grantWithUnwalkable key exp granted unwalkable blobs) := by
  unfold BlobAllowInner.grantWithUnwalkable
  have hremoved : Sane P { inner.remove key with
      bytes := inner.bytes - ((inner.get key).map (·.blobs.length * 32)).getD 0 } := by
    refine h.remove ?_
    cases inner.get key <;> simp [Nat.mul_comm]
  have hremoved := hremoved.tick (inner.tick + 1)
  dsimp only
  split_ifs
  · exact hremoved
  · refine Sane.evict (hremoved.insert (hP _) ?_) _
    have hsame : (BlobAllowInner.remove { inner.remove key with
        bytes := inner.bytes - ((inner.get key).map (·.blobs.length * 32)).getD 0
        tick := inner.tick + 1 } key).cached = (inner.remove key).cached := by
      simp [BlobAllowInner.remove, BlobAllowInner.cached, List.filter_filter]
    rw [hsame]
    have hbytes := hremoved.bytes
    have hcached : BlobAllowInner.cached { inner.remove key with
        bytes := inner.bytes - ((inner.get key).map (·.blobs.length * 32)).getD 0
        tick := inner.tick + 1 } = (inner.remove key).cached := rfl
    rw [hcached] at hbytes
    simp only at hbytes
    omega

end allowlist

section grants

variable {host : Host} {claims : WorkspaceClaims} {seen seen' unwalkable unwalkable' : List Text}
  {blobs blobs' : List Bytes} {failed : Text → Prop}

/-- A blob with these 32 bytes as its address is under the root. -/
def InBlobs (host : Host) (root : Text) (b : Bytes) : Prop :=
  ∃ hex, InClosure host root .blob hex ∧ hex32 hex = some b

/-- The blobs of some claimed roots, with the cache roots that did not walk, each for a tree below it
that failed to be read. Those are only known once the required roots have been walked. -/
structure Granted (host : Host) (failed : Text → Prop) (claims : WorkspaceClaims) (seen unwalkable : List Text)
    (blobs : List Bytes) : Prop where
  claimed : ∀ r ∈ seen, r ∈ claims.claimedRoots
  required : unwalkable ≠ [] → ∀ r ∈ claims.roots, r ∈ seen
  cache : ∀ r ∈ unwalkable, r ∈ claims.cacheRoots
  stopped : ∀ r ∈ unwalkable, ∃ t, InClosure host r .tree t ∧ failed t
  blobs : ∀ b, b ∈ blobs ↔ ∃ r ∈ seen, InBlobs host r b

/-- What a completed walk of the token's roots proves. -/
structure ClosureOf (host : Host) (failed : Text → Prop) (claims : WorkspaceClaims) (closure : BlobClosure) : Prop where
  granted : Granted host failed claims closure.roots closure.unwalkable closure.blobs
  required : ∀ r ∈ claims.roots, r ∈ closure.roots
  cover : ∀ r ∈ claims.cacheRoots, r ∈ closure.roots ∨ r ∈ closure.unwalkable

theorem Granted.sort (h : Granted host failed claims seen unwalkable blobs) :
    Granted host failed claims seen unwalkable (sortBlobs blobs) :=
  ⟨h.claimed, h.required, h.cache, h.stopped, fun b => mem_sortBlobs.trans (h.blobs b)⟩

theorem Granted.filter (h : Granted host failed claims seen unwalkable blobs) (keep : Text → Bool) :
    Granted host failed claims seen (unwalkable.filter keep) blobs := by
  refine ⟨h.claimed, fun hne => h.required fun hnil => hne ?_, fun r hr => ?_, fun r hr => ?_,
    h.blobs⟩
  · rw [hnil]
    rfl
  · exact h.cache r (List.mem_of_mem_filter hr)
  · exact h.stopped r (List.mem_of_mem_filter hr)

theorem Granted.append (h : Granted host failed claims seen unwalkable blobs)
    (h' : Granted host failed claims seen' unwalkable' blobs') :
    Granted host failed claims (seen ++ seen') (unwalkable ++ unwalkable') (blobs ++ blobs') := by
  refine ⟨fun r hr => ?_, fun hne r hr => ?_, fun r hr => ?_, fun r hr => ?_, fun b => ?_⟩
  · rcases List.mem_append.mp hr with hr | hr
    · exact h.claimed r hr
    · exact h'.claimed r hr
  · by_cases hnil : unwalkable = []
    · refine List.mem_append_right _ (h'.required (fun hnil' => hne ?_) r hr)
      rw [hnil, hnil']
      rfl
    · exact List.mem_append_left _ (h.required hnil r hr)
  · rcases List.mem_append.mp hr with hr | hr
    · exact h.cache r hr
    · exact h'.cache r hr
  · rcases List.mem_append.mp hr with hr | hr
    · exact h.stopped r hr
    · exact h'.stopped r hr
  · simp only [List.mem_append, h.blobs, h'.blobs, or_and_right, exists_or]

/-- Whatever the token's entry had, merging a grant leaves an entry of the merged roots. -/
theorem Granted.merged {existing : Option BlobAllowEntry}
    (hold : ∀ e, existing = some e → Granted host failed claims e.rootsSeen e.unwalkable e.blobs)
    (h : Granted host failed claims seen unwalkable blobs) (exp : ℤ) (tick : ℕ) :
    Granted host failed claims
      (BlobAllowInner.mergedEntry existing exp seen unwalkable (sortBlobs blobs) tick).rootsSeen
      (BlobAllowInner.mergedEntry existing exp seen unwalkable (sortBlobs blobs) tick).unwalkable
      (BlobAllowInner.mergedEntry existing exp seen unwalkable (sortBlobs blobs) tick).blobs := by
  cases existing with
  | none => exact h.sort.filter _
  | some e => exact ((hold e rfl).append h.sort).sort.filter _

end grants

section contract

variable (svc : Service) (failed : Text → Prop)

/-- A walk goes on from this answer to a tree read: a tree whose blobs are all addresses. -/
def Walkable (host : Host) (x : Except WsError Bytes) : Prop :=
  ∃ bytes entries, x = .ok bytes ∧ host.parseTree bytes = some entries ∧
    ∀ b ∈ blobsOf entries, hex32 b ≠ none

/-- The trees that could not be walked on from are among the failed ones. -/
def noted : (c : Cmd) → Resp c → Prop
  | .readTree hex, x => ¬Walkable svc.host x → failed hex
  | _, _ => True

/-- The entry is one of a verified token. -/
def EntryOk (token : Text) (e : BlobAllowEntry) : Prop :=
  ∃ claims, svc.verified token = some claims ∧
    Granted svc.host failed claims e.rootsSeen e.unwalkable e.blobs

/-- The walk is of the token's roots, and its result is what they reach. -/
def WalkOk (token : Text) (w : Walk) : Prop :=
  ∃ claims, svc.verified token = some claims ∧ w.roots = claims.roots ∧
    w.cacheRoots = claims.cacheRoots ∧
    ∀ closure, w.result = some (.ok closure) → ClosureOf svc.host failed claims closure

/-- A tree store answers with the bytes an address hashes to, or fails. -/
def honest : (c : Cmd) → Resp c → Prop
  | .readTree hex, x => ∀ bytes, x = .ok bytes → svc.host.hashHex bytes = hex
  | _, _ => True

def asks : Cmd → Prop
  | .lookup key _ claimed _ =>
      ∃ claims, svc.verified key = some claims ∧ claimed = claims.claimedRoots
  | .grant key _ granted unwalkable blobs =>
      ∃ claims, svc.verified key = some claims ∧ Granted svc.host failed claims granted unwalkable blobs
  | .joinWalk key roots cacheRoots => ∃ claims, svc.verified key = some claims ∧
      roots = claims.roots ∧ cacheRoots = claims.cacheRoots
  | .finishWalk key _ result => ∃ claims, svc.verified key = some claims ∧
      ∀ closure, result = .ok closure → ClosureOf svc.host failed claims closure
  | _ => True

def answers : (c : Cmd) → Resp c → Prop
  | .mode, mode => mode = .enforce
  | .readTree hex, x => (∀ bytes, x = .ok bytes → svc.host.hashHex bytes = hex) ∧
      (¬Walkable svc.host x → failed hex)
  | .lookup key blob _ _, verdict => verdict = .allowed → ∃ claims,
      svc.verified key = some claims ∧ ∃ r ∈ claims.claimedRoots, InBlobs svc.host r blob
  | .pollWalk key _, x => ∀ closure, x = some (.ok closure) → ∃ claims,
      svc.verified key = some claims ∧ ClosureOf svc.host failed claims closure
  | .walkOf key _, x => ∀ roots cacheRoots, x = some (roots, cacheRoots) → ∃ claims,
      svc.verified key = some claims ∧ roots = claims.roots ∧ cacheRoots = claims.cacheRoots
  | _, _ => True

/-- What a blob read rests its denial on: the token's whole entry, or its walk. -/
def DeniedBy (token : Text) (claims : WorkspaceClaims) (blob : Bytes)
    (past : List (Exchange Cmd Resp)) : Prop :=
  (∃ now, ⟨.lookup token blob claims.claimedRoots now, .deniedComplete⟩ ∈ past) ∨
    ∃ id closure, ⟨.pollWalk token id, some (.ok closure)⟩ ∈ past ∧ blob ∉ closure.blobs

def ends : Call → List (Exchange Cmd Resp) → Except WsError Value → Prop
  | .getBlob _ token address, past, x => ∀ claims hash, svc.verified token = some claims →
      claims.scope = .read → validAddress address = some hash →
        (∀ v, x = .ok v → ∃ blob, hex32 hash = some blob ∧
          ∃ r ∈ claims.claimedRoots, InBlobs svc.host r blob) ∧
        ∀ b fence, x = .error (.blobForbidden b fence) → ∃ blob, hex32 hash = some blob ∧
          DeniedBy token claims blob past
  | _, _, _ => True

def contract : Contract (authz svc) where
  Inv s := s.mode = .enforce ∧ Sane (EntryOk svc failed) s.inner ∧
    ∀ token id w, s.walks (token, id) = some w → WalkOk svc failed token w
  Asks := asks svc failed
  Answers := answers svc failed
  Ends := ends svc

end contract

section kept

variable {svc : Service} {failed : Text → Prop}

theorem walkOk_update {walks : Text × ℕ → Option Walk}
    (h : ∀ token id w, walks (token, id) = some w → WalkOk svc failed token w) {key : Text} (id : ℕ)
    {walk : Walk} (hw : WalkOk svc failed key walk) : ∀ token id' w,
      Function.update walks (key, id) (some walk) (token, id') = some w → WalkOk svc failed token w := by
  intro token id' w heq
  by_cases hk : (token, id') = (key, id)
  · obtain ⟨rfl, rfl⟩ := Prod.mk.inj hk
    rw [Function.update_self] at heq
    exact Option.some.inj heq ▸ hw
  · rw [Function.update_of_ne hk] at heq
    exact h token id' w heq

/-- The commands keep the invariant and answer as agreed. -/
theorem respond_kept (c : Cmd) (w : Answer) (s : Allowlist) (r : Resp c) (s' : Allowlist)
    (hinv : (contract svc failed).Inv s) (hasks : asks svc failed c) (hresp : respond c w s = (r, s'))
    (hhonest : honest svc c r ∧ noted svc failed c r) : answers svc failed c r ∧ (contract svc failed).Inv s' := by
  obtain ⟨hmode, hsane, hwalks⟩ := hinv
  cases c with
  | mode =>
    obtain ⟨rfl, rfl⟩ := Prod.mk.inj hresp
    exact ⟨hmode, hmode, hsane, hwalks⟩
  | now | blobSize =>
    obtain ⟨rfl, rfl⟩ := Prod.mk.inj hresp
    exact ⟨trivial, hmode, hsane, hwalks⟩
  | readTree hex =>
    obtain ⟨rfl, rfl⟩ := Prod.mk.inj hresp
    exact ⟨hhonest, hmode, hsane, hwalks⟩
  | lookup key blob claimed now =>
    obtain ⟨rfl, rfl⟩ := Prod.mk.inj hresp
    obtain ⟨hkept, hallowed, -⟩ := Sane.lookup key hsane (fun e tick he => he) blob claimed now
    refine ⟨fun hv => ?_, hmode, hkept, hwalks⟩
    obtain ⟨e, ⟨claims, hclaims, hgrant⟩, hmem⟩ := hallowed hv
    obtain ⟨root, hroot, hin⟩ := (hgrant.blobs blob).mp hmem
    exact ⟨claims, hclaims, root, hgrant.claimed root hroot, hin⟩
  | grant key exp granted unwalkable blobs =>
    obtain ⟨rfl, rfl⟩ := Prod.mk.inj hresp
    obtain ⟨claims, hclaims, hgrant⟩ := hasks
    refine ⟨trivial, hmode, hsane.grant exp granted unwalkable blobs fun tick => ?_, hwalks⟩
    refine ⟨claims, hclaims, hgrant.merged (fun e he => ?_) exp tick⟩
    obtain ⟨claims', hclaims', hold⟩ := hsane.all _ (mem_of_get he)
    obtain rfl := Option.some.inj (hclaims.symm.trans hclaims')
    exact hold
  | joinWalk key roots cacheRoots =>
    obtain ⟨claims, hclaims, hroots, hcache⟩ := hasks
    simp only [respond] at hresp
    split at hresp
    · obtain ⟨rfl, rfl⟩ := Prod.mk.inj hresp
      exact ⟨trivial, hmode, hsane, hwalks⟩
    · obtain ⟨rfl, rfl⟩ := Prod.mk.inj hresp
      refine ⟨trivial, hmode, hsane, walkOk_update hwalks _ ?_⟩
      exact ⟨claims, hclaims, hroots, hcache, by simp⟩
  | pollWalk key id =>
    obtain ⟨rfl, rfl⟩ := Prod.mk.inj hresp
    refine ⟨fun closure hc => ?_, hmode, hsane, hwalks⟩
    obtain ⟨walk, hwalk, hresult⟩ := Option.bind_eq_some_iff.mp hc
    obtain ⟨claims, hclaims, -, -, hall⟩ := hwalks key id walk hwalk
    exact ⟨claims, hclaims, hall closure hresult⟩
  | leaveWalk key id =>
    obtain ⟨rfl, rfl⟩ := Prod.mk.inj hresp
    split_ifs
    · exact ⟨trivial, hmode, hsane, hwalks⟩
    · exact ⟨trivial, hmode, hsane, hwalks⟩
  | walkOf key id =>
    obtain ⟨rfl, rfl⟩ := Prod.mk.inj hresp
    refine ⟨fun roots cacheRoots hw => ?_, hmode, hsane, hwalks⟩
    obtain ⟨walk, hwalk, heq⟩ := Option.map_eq_some_iff.mp hw
    obtain ⟨rfl, rfl⟩ := Prod.mk.inj heq
    obtain ⟨hwalk, -⟩ := Option.filter_eq_some_iff.mp hwalk
    obtain ⟨claims, hclaims, hroots, hcache, -⟩ := hwalks key id walk hwalk
    exact ⟨claims, hclaims, hroots, hcache⟩
  | finishWalk key id result =>
    obtain ⟨claims, hclaims, hall⟩ := hasks
    simp only [respond] at hresp
    split at hresp
    · next roots cacheRoots hwalk =>
      obtain ⟨rfl, rfl⟩ := Prod.mk.inj hresp
      obtain ⟨claims', hclaims', hroots, hcache, -⟩ := hwalks key id _ hwalk
      obtain rfl := Option.some.inj (hclaims.symm.trans hclaims')
      refine ⟨trivial, hmode, hsane, walkOk_update hwalks id ?_⟩
      exact ⟨claims, hclaims, hroots, hcache, fun closure hc => hall closure (Option.some.inj hc)⟩
    · obtain ⟨rfl, rfl⟩ := Prod.mk.inj hresp
      exact ⟨trivial, hmode, hsane, hwalks⟩

/-- The program keeps to its part of the contract, and ends in `Q`. -/
abbrev Meets (svc : Service) (failed : Text → Prop) {α : Type} (p : Eff α) (past : List (Exchange Cmd Resp))
    (Q : List (Exchange Cmd Resp) → Except WsError α → Prop) : Prop :=
  p.meets (answers svc failed) (asks svc failed) past Q

variable {past : List (Exchange Cmd Resp)}

theorem treeEntries_meets (hex : Text) :
    Meets svc failed (treeEntriesAnywhere svc hex) past fun _ x =>
      (∀ entries, x = .ok entries → IsTree svc.host hex entries ∧
        ((∃ b ∈ blobsOf entries, hex32 b = none) → failed hex)) ∧ ∀ e, x = .error e → failed hex := by
  refine ⟨trivial, fun r hr => ?_⟩
  obtain ⟨hhash, hfailed⟩ := hr
  cases r with
  | error e =>
    refine ⟨nofun, fun _ _ => hfailed ?_⟩
    rintro ⟨bytes, entries, heq, -⟩
    cases heq
  | ok bytes =>
    cases hparse : svc.host.parseTree bytes with
    | none =>
      simp only [orWs, Prog.bind_eq, Prog.bind_ok, hparse, Prog.meets]
      refine ⟨nofun, fun _ _ => hfailed ?_⟩
      rintro ⟨bytes', entries, heq, hparse', -⟩
      obtain rfl := Except.ok.inj heq
      rw [hparse] at hparse'
      cases hparse'
    | some entries =>
      simp only [orWs, Prog.bind_eq, Prog.bind_ok, hparse, Prog.pure_eq, Prog.meets]
      refine ⟨fun entries' heq => ?_, nofun⟩
      obtain rfl := Except.ok.inj heq
      refine ⟨⟨bytes, hhash bytes rfl, hparse⟩, ?_⟩
      rintro ⟨b, hb, hnone⟩
      refine hfailed ?_
      rintro ⟨bytes', entries', heq, hparse', hall⟩
      obtain rfl := Except.ok.inj heq
      obtain rfl := Option.some.inj (hparse.symm.trans hparse')
      exact hall b hb hnone

/-- A walk from these roots, as it ended: with the blobs they reach, or at a tree below one of them
that failed to be read. -/
def Walked (host : Host) (failed : Text → Prop) (roots : List Text)
    (x : Except WsError (Except WalkError (List Bytes))) : Prop :=
  (∀ blobs, x = .ok (.ok blobs) → ∀ b, b ∈ blobs ↔ ∃ r ∈ roots, InBlobs host r b) ∧
    ∀ e, x = .ok (.error e) → ∃ r ∈ roots, ∃ t, InClosure host r .tree t ∧ failed t

theorem walkFrom_meets (hc : svc.host.CollisionFree) {roots : List Text} (rounds : ℕ) :
    ∀ (seen queue found : List Text) (past : List (Exchange Cmd Resp)),
      Search svc.host roots seen queue found → (∀ b ∈ found, (hex32 b).isSome = true) →
        Meets svc failed (walkFrom svc rounds seen queue (found.filterMap hex32)) past fun _ x =>
          Walked svc.host failed roots x := by
  have hnil : ∀ (rounds : ℕ) (seen found : List Text) (past : List (Exchange Cmd Resp)),
      Search svc.host roots seen [] found →
        Meets svc failed (walkFrom svc rounds seen [] (found.filterMap hex32)) past fun _ x =>
          Walked svc.host failed roots x := by
    intro rounds seen found past hs
    have hend : walkFrom svc rounds seen [] (found.filterMap hex32) =
        Prog.ok (.ok (sortBlobs (found.filterMap hex32))) := by
      cases rounds <;> rfl
    rw [hend]
    refine ⟨fun blobs heq b => ?_, by simp⟩
    obtain rfl := Except.ok.inj (Except.ok.inj heq)
    rw [mem_sortBlobs, List.mem_filterMap]
    constructor
    · rintro ⟨hex, hmem, hhex⟩
      obtain ⟨r, hr, hin⟩ := hs.found_iff.mp hmem
      exact ⟨r, hr, hex, hin, hhex⟩
    · rintro ⟨r, hr, hex, hin, hhex⟩
      exact ⟨hex, hs.found_iff.mpr ⟨r, hr, hin⟩, hhex⟩
  induction rounds with
  | zero =>
    intro seen queue found past hs _
    cases queue with
    | nil => exact hnil 0 seen found past hs
    | cons tree queue => exact ⟨nofun, nofun⟩
  | succ rounds ih =>
    intro seen queue found past hs hhex
    cases queue with
    | nil => exact hnil (rounds + 1) seen found past hs
    | cons tree queue =>
      rw [walkFrom]
      split_ifs with hseen
      · exact ih seen queue found past (hs.skip hseen) hhex
      obtain ⟨root, hroot, hbelow⟩ := hs.trees tree (.inr List.mem_cons_self)
      refine Prog.meets_bind (Prog.meets_attempt (F := fun _ x => ∃ y, x = .ok y ∧
        (∀ entries, y = .ok entries → IsTree svc.host tree entries ∧
          ((∃ b ∈ blobsOf entries, hex32 b = none) → failed tree)) ∧
        ∀ e, y = .error e → failed tree) ?_) ?_ (fun _ e _ _ => ⟨nofun, nofun⟩)
      · exact Prog.meets_mono (treeEntries_meets tree) fun _ x _ hx => ⟨x, rfl, hx⟩
      · rintro past' x - ⟨y, heq, hx⟩
        obtain rfl := Except.ok.inj heq
        cases x with
        | error e => exact ⟨nofun, fun _ _ => ⟨root, hroot, tree, hbelow, hx.2 e rfl⟩⟩
        | ok entries =>
          obtain ⟨htree, hfailed⟩ := hx.1 entries rfl
          dsimp only
          cases hbad : (blobsOf entries).find? fun blob => (hex32 blob).isNone with
          | some blob =>
            have hnone : hex32 blob = none := by simpa using List.find?_some hbad
            exact ⟨nofun, fun _ _ => ⟨root, hroot, tree, hbelow,
              hfailed ⟨blob, List.mem_of_find?_eq_some hbad, hnone⟩⟩⟩
          | none =>
            have hgood : ∀ b ∈ blobsOf entries, (hex32 b).isSome = true := by
              intro b hb
              simpa [Option.isSome_iff_ne_none] using List.find?_eq_none.mp hbad b hb
            dsimp only
            rw [← List.filterMap_append]
            refine ih _ _ _ past' (hs.visit hc htree) fun b hb => ?_
            rcases List.mem_append.mp hb with hb | hb
            · exact hhex b hb
            · exact hgood b hb

theorem walkBlobClosure_meets (hc : svc.host.CollisionFree) (rounds : ℕ) (roots : List Text) :
    Meets svc failed (walkBlobClosure svc rounds roots) past fun _ x =>
      Walked svc.host failed roots x :=
  walkFrom_meets hc rounds [] roots [] past (.init svc.host roots) (by simp)

/-- Walking the cache roots keeps what the required roots proved. -/
theorem walkTokenClosure_meets (hc : svc.host.CollisionFree) (rounds : ℕ)
    (claims : WorkspaceClaims) :
    Meets svc failed (walkTokenClosure svc rounds claims.roots claims.cacheRoots) past fun _ x =>
      ∀ closure, x = .ok (.ok closure) → ClosureOf svc.host failed claims closure := by
  refine Prog.meets_bind (walkBlobClosure_meets hc rounds claims.roots) (fun past' x _ hx => ?_)
    fun _ e _ _ => nofun
  cases x with
  | error e => exact nofun
  | ok blobs =>
    have hblobs := hx.1 blobs rfl
    refine Prog.meets_bind (Prog.meets_foldEach (I := fun done (c : BlobClosure) =>
      Granted svc.host failed claims c.roots c.unwalkable c.blobs ∧ (∀ r ∈ claims.roots, r ∈ c.roots) ∧
        ∀ r ∈ done, r ∈ c.roots ∨ r ∈ c.unwalkable) ?_ ?_) ?_ fun _ e _ _ => nofun
    · exact ⟨⟨fun r hr => List.mem_append_left _ hr, by simp, by simp, by simp, hblobs⟩,
        fun r hr => hr, by simp⟩
    · rintro done r rest hdone c past'' ⟨hgrant, hreq, hcover⟩
      have hr : r ∈ claims.cacheRoots := by
        rw [hdone]
        simp
      refine Prog.meets_bind (walkBlobClosure_meets hc rounds [r]) (fun past' x _ hx => ?_)
        fun _ e _ _ => nofun
      cases x with
      | error e =>
        intro c' heq
        obtain rfl := Except.ok.inj heq
        obtain ⟨root, hroot, hstopped⟩ := hx.2 e rfl
        obtain rfl := List.mem_singleton.mp hroot
        refine ⟨⟨hgrant.claimed, fun _ => hreq, fun r' hr' => ?_, fun r' hr' => ?_, hgrant.blobs⟩,
          hreq, fun r' hr' => ?_⟩
        · rcases List.mem_append.mp hr' with hr' | hr'
          · exact hgrant.cache r' hr'
          · exact List.mem_singleton.mp hr' ▸ hr
        · rcases List.mem_append.mp hr' with hr' | hr'
          · exact hgrant.stopped r' hr'
          · exact List.mem_singleton.mp hr' ▸ hstopped
        · rcases List.mem_append.mp hr' with hr' | hr'
          · exact (hcover r' hr').imp_right (List.mem_append_left _)
          · exact .inr (List.mem_append_right _ hr')
      | ok more =>
        intro c' heq
        obtain rfl := Except.ok.inj heq
        have hone : Granted svc.host failed claims [r] [] more :=
          ⟨fun r' hr' => List.mem_singleton.mp hr' ▸ List.mem_append_right _ hr, by simp, by simp,
            by simp, hx.1 more rfl⟩
        have hboth := hgrant.append hone
        rw [List.append_nil] at hboth
        refine ⟨hboth, fun r' hr' => List.mem_append_left _ (hreq r' hr'), fun r' hr' => ?_⟩
        rcases List.mem_append.mp hr' with hr' | hr'
        · exact (hcover r' hr').imp_left (List.mem_append_left _)
        · exact .inl (List.mem_append_right _ hr')
    · intro past'' c _ hI closure heq
      obtain ⟨hgrant, hreq, hcover⟩ := hI c rfl
      obtain rfl := Except.ok.inj (Except.ok.inj heq)
      exact ⟨hgrant.sort, hreq, hcover⟩

theorem awaitWalk_meets (key : Text) (id : ℕ) (polls : ℕ) :
    Meets svc failed (awaitWalk key id polls) past fun past' x =>
      (∀ closure, x = .ok (.ok closure) → ⟨.pollWalk key id, some (.ok closure)⟩ ∈ past' ∧
        ∃ claims, svc.verified key = some claims ∧ ClosureOf svc.host failed claims closure) ∧
      ∀ e, x = .error e → e = .abandoned := by
  induction polls generalizing past with
  | zero => exact ⟨nofun, fun e he => (Except.error.inj he).symm⟩
  | succ polls ih =>
    refine ⟨trivial, fun r hr => ?_⟩
    cases r with
    | none => exact ih
    | some result =>
      refine ⟨fun closure heq => ?_, nofun⟩
      obtain rfl := Except.ok.inj heq
      exact ⟨List.mem_cons_self, hr closure rfl⟩

theorem singleflightWalk_meets (polls : ℕ) {key : Text} {claims : WorkspaceClaims}
    (hclaims : svc.verified key = some claims) :
    Meets svc failed (singleflightWalk polls key claims) past fun past' x =>
      (∀ closure, x = .ok (.ok closure) → ClosureOf svc.host failed claims closure ∧
        ∃ id, ⟨.pollWalk key id, some (.ok closure)⟩ ∈ past') ∧
      ∀ e, x = .error e → e = .abandoned := by
  refine ⟨⟨claims, hclaims, rfl, rfl⟩, fun id _ => ?_⟩
  show Meets svc failed ((awaitWalk key id polls).bind _) _ _
  refine Prog.meets_bind (awaitWalk_meets key id polls) (fun past' x _ hx => ?_)
    fun past' e _ hx => ⟨nofun, fun e' he' => ?_⟩
  · refine ⟨trivial, fun _ _ => ⟨fun closure heq => ?_, nofun⟩⟩
    obtain rfl := Except.ok.inj heq
    obtain ⟨hmem, claims', hclaims', hclosure⟩ := hx.1 closure rfl
    obtain rfl := Option.some.inj (hclaims.symm.trans hclaims')
    exact ⟨hclosure, id, List.mem_cons_of_mem _ hmem⟩
  · obtain rfl := Except.error.inj he'
    exact hx.2 e rfl

theorem authorizeBlob_meets (polls : ℕ) {key : Text} {claims : WorkspaceClaims} (hash : Text)
    (hclaims : svc.verified key = some claims) :
    Meets svc failed (authorizeBlob polls key claims hash) past fun past' x => claims.scope = .read →
      (∀ v, x = .ok v → ∃ blob, hex32 hash = some blob ∧
        ∃ r ∈ claims.claimedRoots, InBlobs svc.host r blob) ∧
      ∀ b fence, x = .error (.blobForbidden b fence) → ∃ blob, hex32 hash = some blob ∧
        DeniedBy key claims blob past' := by
  refine ⟨trivial, fun mode hmode => ?_⟩
  obtain rfl : mode = .enforce := hmode
  simp only [Prog.bind_ok, reduceCtorEq, if_false]
  split_ifs with hscope
  · intro hread
    rw [hscope] at hread
    cases hread
  cases hhex : hex32 hash with
  | none => exact fun _ => ⟨nofun, nofun⟩
  | some blob =>
    have hdeny : ∀ past', DeniedBy key claims blob past' →
        Meets svc failed (blobAuthzDeny claims hash .enforce) past' fun past' x => claims.scope = .read →
          (∀ v, x = .ok v → ∃ blob', some blob = some blob' ∧
            ∃ r ∈ claims.claimedRoots, InBlobs svc.host r blob') ∧
          ∀ b fence, x = .error (.blobForbidden b fence) → ∃ blob', some blob = some blob' ∧
            DeniedBy key claims blob' past' :=
      fun past' hby _ => ⟨nofun, fun _ _ _ => ⟨blob, rfl, hby⟩⟩
    refine ⟨trivial, fun now _ => ⟨⟨claims, hclaims, rfl⟩, fun verdict hverdict => ?_⟩⟩
    cases verdict with
    | allowed =>
      obtain ⟨claims', hclaims', hin⟩ := hverdict rfl
      obtain rfl := Option.some.inj (hclaims.symm.trans hclaims')
      exact fun _ => ⟨fun _ _ => ⟨blob, rfl, hin⟩, nofun⟩
    | deniedComplete => exact hdeny _ (.inl ⟨now, List.mem_cons_self⟩)
    | miss =>
      show Meets svc failed ((singleflightWalk polls key claims).bind _) _ _
      refine Prog.meets_bind (singleflightWalk_meets polls hclaims) (fun past' x _ hx => ?_)
        fun past' e _ hx _ => ⟨nofun, fun b fence he => ?_⟩
      · cases x with
        | error e => exact fun _ => ⟨nofun, nofun⟩
        | ok closure =>
          obtain ⟨hclosure, id, hmem⟩ := hx.1 closure rfl
          refine ⟨⟨claims, hclaims, hclosure.granted⟩, fun _ _ => ?_⟩
          show Meets svc failed (if blob ∈ closure.blobs then Prog.ok () else _) _ _
          split_ifs with hblob
          · obtain ⟨r, hr, hin⟩ := (hclosure.granted.blobs blob).mp hblob
            exact fun _ => ⟨fun _ _ => ⟨blob, rfl, r, hclosure.granted.claimed r hr, hin⟩, nofun⟩
          · exact hdeny _ (.inr ⟨id, closure, List.mem_cons_of_mem _ hmem, hblob⟩)
      · obtain rfl := Except.error.inj he
        exact absurd (hx.2 _ rfl) (by simp)

/-- What an authenticated token claims is what its signature holds for. -/
theorem authenticate_meets (token : Text) : Meets svc failed (authenticate svc token) past fun _ x =>
    (∀ claims, x = .ok claims → svc.verified token = some claims) ∧
      ∀ e, x = .error e → e = .unauthorized := by
  refine ⟨trivial, fun now _ => ?_⟩
  simp only [Prog.bind_ok]
  cases hv : svc.verified token with
  | none => exact ⟨nofun, fun e he => (Except.error.inj he).symm⟩
  | some claims =>
    dsimp only
    split_ifs
    · exact ⟨nofun, fun e he => (Except.error.inj he).symm⟩
    · exact ⟨fun claims' h => congrArg some (Except.ok.inj h), nofun⟩

theorem getBlob_ends (polls : ℕ) (token address : Text) :
    Meets svc failed ((getBlob svc polls token address).bind fun _ => .ok Value.unit) []
      (ends svc (.getBlob polls token address)) := by
  refine Prog.meets_bind (Q := fun past' x => ∀ claims hash, svc.verified token = some claims →
    claims.scope = .read → validAddress address = some hash →
      (∀ v, x = .ok v → ∃ blob, hex32 hash = some blob ∧
        ∃ r ∈ claims.claimedRoots, InBlobs svc.host r blob) ∧
      ∀ b fence, x = .error (.blobForbidden b fence) → ∃ blob, hex32 hash = some blob ∧
        DeniedBy token claims blob past') ?_ ?_ ?_
  · refine Prog.meets_bind (authenticate_meets token) (fun past' claims _ hx => ?_)
      fun past' e _ hx claims hash _ _ _ => ⟨nofun, fun b fence he => ?_⟩
    · have hclaims := hx.1 claims rfl
      cases haddr : validAddress address with
      | none =>
        intro claims' hash' _ _ h
        cases h
      | some hash =>
        refine Prog.meets_mono (authorizeBlob_meets polls hash hclaims) ?_
        intro past'' x _ hx claims' hash' hclaims' hread hhash
        obtain rfl := Option.some.inj (hclaims.symm.trans hclaims')
        obtain rfl := Option.some.inj hhash
        exact hx hread
    · obtain rfl := Except.error.inj he
      exact absurd (hx.2 _ rfl) (by simp)
  · intro past' v _ hx claims hash hclaims hread hhash
    obtain ⟨hok, -⟩ := hx claims hash hclaims hread hhash
    exact ⟨fun _ _ => hok v rfl, nofun⟩
  · intro past' e _ hx claims hash hclaims hread hhash
    obtain ⟨-, herr⟩ := hx claims hash hclaims hread hhash
    refine ⟨nofun, fun b fence he => herr b fence ?_⟩
    rw [Except.error.inj he]

theorem driveWalk_ends (hc : svc.host.CollisionFree) (rounds : ℕ) (key : Text) (id : ℕ) :
    Meets svc failed ((driveWalk svc rounds key id).bind fun _ => .ok Value.unit) []
      (ends svc (.driveWalk rounds key id)) := by
  refine ⟨trivial, fun r hr => ?_⟩
  cases r with
  | none => exact trivial
  | some walk =>
    obtain ⟨roots, cacheRoots⟩ := walk
    obtain ⟨claims, hclaims, rfl, rfl⟩ := hr roots cacheRoots rfl
    show Meets svc failed (((walkTokenClosure svc rounds claims.roots claims.cacheRoots).bind _).bind _) _ _
    refine Prog.meets_bind (Q := fun _ _ => True) (Prog.meets_bind
      (walkTokenClosure_meets hc rounds claims) (fun past' x _ hx => ?_) fun _ _ _ _ => trivial)
      (fun _ _ _ _ => trivial) fun _ _ _ _ => trivial
    refine ⟨⟨claims, hclaims, fun closure heq => ?_⟩, fun _ _ => trivial⟩
    obtain rfl := heq
    exact hx closure rfl

theorem Search.congr {roots done queue queue' found found' : List Text} {host : Host}
    (h : Search host roots done queue found) (hq : ∀ t, t ∈ queue ↔ t ∈ queue')
    (hf : ∀ b, b ∈ found ↔ b ∈ found') : Search host roots done queue' found' := by
  refine ⟨fun r hr => (h.start r hr).imp_right (hq r).mp,
    fun t ht => h.trees t (ht.imp_right (hq t).mpr), fun b hb => h.blobs b ((hf b).mpr hb),
    fun t ht entries he => ?_⟩
  obtain ⟨hsub, hblob⟩ := h.closed t ht entries he
  exact ⟨fun s hs => (hsub s hs).imp_right (hq s).mp, fun b hb => (hf b).mp (hblob b hb)⟩

/-- The entries of one tree: its blobs become files, its subtrees are queued. -/
theorem flattenEntries_meets (pre : Text) (xs : List TreeEntry)
    (acc : FlatManifest × List (Text × Text)) :
    Meets svc failed (xs.foldlM (flattenEntry (m := Eff)
      (fun blob => do orWs (← issue (.blobSize blob))) pre) acc) past fun _ x =>
      ∀ out, x = .ok out →
        out.1.entries.map (·.blob) = acc.1.entries.map (·.blob) ++ blobsOf xs ∧
          out.2.map (·.1) = acc.2.map (·.1) ++ subtreesOf xs := by
  rw [Prog.foldlM_eq_foldEach]
  refine Prog.meets_foldEach (I := fun done (out : FlatManifest × List (Text × Text)) =>
    out.1.entries.map (·.blob) = acc.1.entries.map (·.blob) ++ blobsOf done ∧
      out.2.map (·.1) = acc.2.map (·.1) ++ subtreesOf done) (by simp [blobsOf, subtreesOf]) ?_
  rintro done e rest - out past' ⟨hblobs, htrees⟩
  unfold flattenEntry
  cases htarget : e.target with
  | blob blob =>
    refine ⟨trivial, fun r _ => ?_⟩
    cases r with
    | error e => exact nofun
    | ok size =>
      intro out' heq
      obtain rfl := Except.ok.inj heq
      simp [hblobs, htrees, blobsOf, subtreesOf, htarget]
  | tree sub =>
    intro out' heq
    obtain rfl := Except.ok.inj heq
    simp [hblobs, htrees, blobsOf, subtreesOf, htarget]

theorem flattenFrom_meets (hc : svc.host.CollisionFree) {root : Text} (rounds : ℕ) :
    ∀ (done : List Text) (queue : List (Text × Text)) (manifest : FlatManifest)
      (past : List (Exchange Cmd Resp)),
      Search svc.host [root] done (queue.map (·.1)) (manifest.entries.map (·.blob)) →
        Meets svc failed (flattenFrom (treeEntriesAnywhere svc)
          (fun blob => do orWs (← issue (.blobSize blob))) (.err .abandoned) rounds queue manifest)
          past fun _ x => ∀ out, x = .ok out →
            ∀ b, b ∈ out.entries.map (·.blob) ↔ InClosure svc.host root .blob b := by
  have hnil : ∀ (rounds : ℕ) (done : List Text) (manifest : FlatManifest)
      (past : List (Exchange Cmd Resp)),
      Search svc.host [root] done [] (manifest.entries.map (·.blob)) →
        Meets svc failed (flattenFrom (treeEntriesAnywhere svc)
          (fun blob => do orWs (← issue (.blobSize blob))) (.err .abandoned) rounds [] manifest)
          past fun _ x => ∀ out, x = .ok out →
            ∀ b, b ∈ out.entries.map (·.blob) ↔ InClosure svc.host root .blob b := by
    intro rounds done manifest past hs
    have hend : flattenFrom (treeEntriesAnywhere svc)
        (fun blob => do orWs (← issue (.blobSize blob))) (.err .abandoned) rounds [] manifest =
          (Prog.ok manifest : Eff FlatManifest) := by
      cases rounds <;> rfl
    rw [hend]
    intro out heq b
    obtain rfl := Except.ok.inj heq
    rw [hs.found_iff]
    simp
  induction rounds with
  | zero =>
    intro done queue manifest past hs
    cases queue with
    | nil => exact hnil 0 done manifest past hs
    | cons x queue => exact nofun
  | succ rounds ih =>
    intro done queue manifest past hs
    cases queue with
    | nil => exact hnil (rounds + 1) done manifest past hs
    | cons x queue =>
      obtain ⟨tree, pre⟩ := x
      refine Prog.meets_bind (treeEntries_meets tree) (fun past' children _ htree => ?_)
        fun _ _ _ _ => nofun
      refine Prog.meets_bind (flattenEntries_meets pre (sortByName children) (manifest, queue))
        (fun past'' acc _ hacc => ?_) fun _ _ _ _ => nofun
      obtain ⟨hblobs, htrees⟩ := hacc acc rfl
      refine ih (tree :: done) acc.2 acc.1 past'' ?_
      refine Search.congr (hs.visit hc (htree.1 children rfl).1) (fun t => ?_) fun b => ?_
      · rw [htrees, List.mem_append, List.mem_append, mem_subtreesOf, mem_subtreesOf]
        simp only [mem_sortByName]
      · rw [hblobs, List.mem_append, List.mem_append, mem_blobsOf, mem_blobsOf]
        simp only [mem_sortByName]

theorem mem_of_mapM_id {α : Type} {xs : List (Option α)} {ys : List α} (h : xs.mapM id = some ys)
    {y : α} : y ∈ ys ↔ some y ∈ xs := by
  induction xs generalizing ys with
  | nil =>
    obtain rfl := Option.some.inj h
    simp
  | cons x xs ih =>
    rw [List.mapM_cons] at h
    cases x with
    | none => cases h
    | some x =>
      obtain ⟨first, hfirst, h⟩ := Option.bind_eq_some_iff.mp h
      obtain ⟨rest, hrest, heq⟩ := Option.bind_eq_some_iff.mp h
      obtain rfl := Option.some.inj heq
      obtain rfl : x = first := Option.some.inj hfirst
      simp [ih hrest]

/-- A manifest of a claimed root seeds that root's blobs. -/
theorem seedFlat_meets {token : Text} {claims : WorkspaceClaims} {hash : Text}
    {manifest : FlatManifest} (hclaims : svc.verified token = some claims)
    (hmay : claims.mayReadTree hash = true)
    (hblobs : ∀ b, b ∈ manifest.entries.map (·.blob) ↔ InClosure svc.host hash .blob b) :
    Meets svc failed (seedFlat token claims hash manifest) past fun _ _ => True := by
  refine ⟨trivial, fun mode _ => ?_⟩
  simp only [Prog.bind_ok]
  split_ifs with hseed
  · cases hmap : (manifest.entries.map fun e => hex32 e.blob).mapM id with
    | none => trivial
    | some blobs =>
      refine ⟨⟨claims, hclaims, fun r hr => ?_, by simp, by simp, by simp, fun b => ?_⟩,
        fun _ _ => trivial⟩
      · obtain rfl := List.mem_singleton.mp hr
        have hin := of_decide_eq_true hmay
        exact hin.resolve_left (by simp [hseed.2])
      · rw [mem_of_mapM_id hmap]
        simp only [List.mem_map, List.mem_singleton, exists_eq_left, InBlobs]
        constructor
        · rintro ⟨e, he, hhex⟩
          exact ⟨e.blob, (hblobs e.blob).mp (List.mem_map_of_mem he), hhex⟩
        · rintro ⟨hex, hin, hhex⟩
          obtain ⟨e, he, rfl⟩ := List.mem_map.mp ((hblobs hex).mpr hin)
          exact ⟨e, he, hhex⟩
  · trivial

theorem getFlat_ends (hc : svc.host.CollisionFree) (rounds : ℕ) (token address : Text) :
    Meets svc failed ((getFlat svc rounds token address).bind fun m => .ok (.manifest m)) []
      (ends svc (.getFlat rounds token address)) := by
  refine Prog.meets_bind (Q := fun _ _ => True) ?_ (fun _ _ _ _ => trivial) fun _ _ _ _ => trivial
  unfold getFlat
  cases validAddress address with
  | none => trivial
  | some hash =>
    have hflat : Meets svc failed (authorizeFlat svc token hash) [] fun _ x => ∀ claims, x = .ok claims →
        svc.verified token = some claims ∧ claims.mayReadTree hash = true := by
      refine Prog.meets_bind (authenticate_meets token) (fun past' claims _ hx => ?_)
        fun _ _ _ _ => nofun
      split_ifs with hmay
      · intro claims' heq
        obtain rfl := Except.ok.inj heq
        exact ⟨hx.1 claims rfl, hmay⟩
      · exact nofun
    show Meets svc failed ((authorizeFlat svc token hash).bind _) _ _
    refine Prog.meets_bind hflat (fun past' claims _ hx => ?_) fun _ _ _ _ => trivial
    obtain ⟨hclaims, hmay⟩ := hx claims rfl
    refine Prog.meets_bind (flattenFrom_meets hc rounds [] [(hash, [])] ⟨hash, [], []⟩ past'
      (.init svc.host [hash])) (fun past'' manifest _ hm => ?_) fun _ _ _ _ => trivial
    exact Prog.meets_bind (seedFlat_meets hclaims hmay (hm manifest rfl))
      (fun _ _ _ _ => trivial) fun _ _ _ _ => trivial

theorem contract_kept (hc : svc.host.CollisionFree) :
    (contract svc failed).Kept fun c r => honest svc c r ∧ noted svc failed c r where
  respond := respond_kept
  body l := by
    cases l with
    | getFlat rounds token address => exact getFlat_ends hc rounds token address
    | getBlob polls token address => exact getBlob_ends polls token address
    | driveWalk rounds key id => exact driveWalk_ends hc rounds key id

end kept

section answers

variable {svc : Service} {failed : Text → Prop} {g : Config (authz svc)}

/-- A read of the tree in the run, from whose answer no walk goes on. -/
def ReadFailed (g : Config (authz svc)) (tree : Text) : Prop :=
  ∃ x ∈ g.log, ∃ answer, x.what = .did (.readTree tree) answer ∧ ¬Walkable svc.host answer

/-- The step answered a blob read of the token from the roots `walked`: from the token's entry,
or from its walk. -/
def AnsweredBy (svc : Service) (token : Text) (walked unwalkable : List Text)
    (e : Entry (authz svc)) : Prop :=
  (∃ blob claimed now entry, e.what = .did (.lookup token blob claimed now) .deniedComplete ∧
      e.before.inner.get token = some entry ∧ walked = entry.rootsSeen ∧
        unwalkable = entry.unwalkable) ∨
    ∃ id closure, e.what = .did (.pollWalk token id) (some (.ok closure)) ∧
      walked = closure.roots ∧ unwalkable = closure.unwalkable

/-- A refusal from the whole entry has walked every required root, and not found the blob. -/
theorem lookup_denied (hg : (contract svc failed).Held g) {x : Entry (authz svc)} (hx : x ∈ g.log)
    {token : Text} {claims : WorkspaceClaims} {blob : Bytes} {now : ℤ} {w : Answer}
    (hclaims : svc.verified token = some claims)
    (hresp : (respond (.lookup token blob claims.claimedRoots now) w x.before).1 = .deniedComplete) :
    ∃ entry, x.before.inner.get token = some entry ∧ (∀ r ∈ claims.roots, r ∈ entry.rootsSeen) ∧
      (∀ r ∈ claims.cacheRoots, r ∈ entry.rootsSeen ∨ r ∈ entry.unwalkable) ∧
      (∀ r ∈ entry.unwalkable, ∃ t, InClosure svc.host r .tree t ∧ failed t) ∧
      ∀ r ∈ entry.rootsSeen, ¬InBlobs svc.host r blob := by
  obtain ⟨-, hsane, -⟩ := hg.before x hx
  obtain ⟨-, -, hdenied⟩ := Sane.lookup token hsane (fun e tick he => he) blob
    claims.claimedRoots now
  obtain ⟨entry, hget, hout, hall⟩ := hdenied hresp
  obtain ⟨claims', hclaims', hgrant⟩ := hsane.all _ (mem_of_get hget)
  obtain rfl := Option.some.inj (hclaims.symm.trans hclaims')
  refine ⟨entry, hget, fun r hr => ?_, fun r hr => hall r (List.mem_append_right _ hr),
    hgrant.stopped, fun r hr hin => hout ((hgrant.blobs blob).mpr ⟨r, hr, hin⟩)⟩
  rcases hall r (List.mem_append_left _ hr) with hseen | hun
  · exact hseen
  · exact hgrant.required (List.ne_nil_of_mem hun) r hr

/-- Under enforcement a blob read is answered from the closures of the token's roots alone. An
allowed blob is under a claimed root; a denied one is under no required root, and under no cache
root but those the answering entry or walk has down as not walkable, below each of which a tree
failed to be read. -/
theorem blob_read_exact (hc : svc.host.CollisionFree) {capBytes : ℕ}
    (hr : Reach (Honestly (honest svc)) (Allowlist.new .enforce capBytes) g) :
    g.state.inner.bytes = 32 * g.state.inner.cached ∧
    ∀ e ∈ g.log, ∀ polls token address hash claims,
      StartedAs g.log e.pid (.getBlob polls token address) →
        svc.verified token = some claims → claims.scope = .read →
          validAddress address = some hash →
            (∀ v, e.what = .returned (.ok v) → ∃ blob, hex32 hash = some blob ∧
              ∃ r ∈ claims.claimedRoots, InBlobs svc.host r blob) ∧
            ∀ b fence, e.what = .returned (.error (.blobForbidden b fence)) →
              ∃ blob walked unwalkable, hex32 hash = some blob ∧
                (∃ x ∈ g.log, x.pid = e.pid ∧ AnsweredBy svc token walked unwalkable x) ∧
                (∀ r ∈ claims.roots, r ∈ walked) ∧
                (∀ r ∈ claims.cacheRoots, r ∈ walked ∨ r ∈ unwalkable) ∧
                (∀ r ∈ unwalkable, ∃ tree, InClosure svc.host r .tree tree ∧ ReadFailed g tree) ∧
                ∀ r ∈ walked, ¬InBlobs svc.host r blob := by
  have hinit : (contract svc (ReadFailed g)).Inv (Allowlist.new .enforce capBytes) :=
    ⟨rfl, ⟨by simp [Allowlist.new], rfl, by simp [Allowlist.new]⟩, by simp [Allowlist.new]⟩
  have hnoted : ∀ e ∈ g.log, ∀ c r, e.what = .did c r → noted svc (ReadFailed g) c r := by
    intro e he c r hdid
    cases c with
    | readTree hex => exact fun hbad => ⟨e, he, r, hdid, hbad⟩
    | _ => trivial
  have hg := (hr.honestly_and hnoted).held (contract_kept hc) hinit
  have hj : g.Justified (fun _ _ _ => True) fun _ _ _ => True :=
    Reach.justified (fun l => Prog.wp_of_forall fun _ _ => trivial) hr
  refine ⟨hg.inv.2.1.bytes, fun e he polls token address hash claims hstart hclaims hread hhash =>
    ⟨fun v hv => ?_, fun b fence hv => ?_⟩⟩
  · obtain ⟨l, past, hl, -, hend⟩ := hg.ended e he _ hv
    obtain rfl := hj.once e.pid _ _ hl hstart
    exact (hend claims hash hclaims hread hhash).1 v rfl
  · obtain ⟨l, past, hl, hpast, hend⟩ := hg.ended e he _ hv
    obtain rfl := hj.once e.pid _ _ hl hstart
    obtain ⟨blob, hhex, hby⟩ := (hend claims hash hclaims hread hhash).2 b fence rfl
    rcases hby with ⟨now, hmem⟩ | ⟨id, closure, hmem, hout⟩
    · obtain ⟨x, hx, hpid, hdid⟩ := mem_ownOf.mp (hpast hmem)
      obtain ⟨newer, older, hlog⟩ := List.append_of_mem hx
      obtain ⟨g₀, g₁, -, hs, -⟩ := hr.at_entry hlog
      have hresp : ∃ w, (respond (.lookup token blob claims.claimedRoots now) w x.before).1 =
          .deniedComplete := by
        rw [hs.before_eq]
        cases hs with
        | @act pid l c k a r t proc resp =>
          obtain ⟨rfl, hr'⟩ : c = _ ∧ HEq r _ := by simpa using hdid
          exact ⟨a, (congrArg Prod.fst resp).trans (eq_of_heq hr')⟩
        | start | finish | fail | crash => cases hdid
      obtain ⟨w, hresp⟩ := hresp
      obtain ⟨entry, hget, hreq, hcover, hstopped, hno⟩ := lookup_denied hg hx hclaims hresp
      exact ⟨blob, entry.rootsSeen, entry.unwalkable, hhex, ⟨x, hx, hpid, .inl
        ⟨blob, _, now, entry, hdid, hget, rfl, rfl⟩⟩, hreq, hcover, hstopped, hno⟩
    · obtain ⟨x, hx, hpid, hdid⟩ := mem_ownOf.mp (hpast hmem)
      obtain ⟨claims', hclaims', hclosure⟩ := hg.answered x hx _ _ hdid closure rfl
      obtain rfl := Option.some.inj (hclaims.symm.trans hclaims')
      exact ⟨blob, closure.roots, closure.unwalkable, hhex, ⟨x, hx, hpid, .inr
        ⟨id, closure, hdid, rfl, rfl⟩⟩, hclosure.required, hclosure.cover, hclosure.granted.stopped,
        fun r hr hin => hout ((hclosure.granted.blobs blob).mpr ⟨r, hr, hin⟩)⟩

end answers

def oneFileJson : Bytes :=
  ("[\x7b\"name\":\"f\",\"target\":\x7b\"Blob\":\"".toList ++ emptyBlobHex ++
    "\"\x7d\x7d]".toList).map fun c => UInt8.ofNat c.toNat

def oneFileHex : Text :=
  addressText 0x497e98579071b1c8a05c0415657bda18dad7b5e4c533b9abce76badd8f9c622b

/-- A token whose one root is a tree with one empty file. -/
def oneFileService : Service where
  host :=
    { hashHex := fun b => if b = oneFileJson then oneFileHex
        else 'x' :: b.map fun u => Char.ofNat u.toNat
      parseTree := fun b => if b = oneFileJson then some [⟨['f'], .blob emptyBlobHex, none, none⟩]
        else none
      treeJson := fun _ => []
      footerJson := fun _ => []
      commitJson := fun _ _ _ _ => [] }
  verified token :=
    if token = ['t'] then some ⟨⟨['r'], ['s'], ['1']⟩, 100, .read, [oneFileHex], []⟩ else none

theorem oneFileHex_head : oneFileHex.head? = some '4' := by decide

theorem oneFileService_collisionFree : oneFileService.host.CollisionFree := by
  intro a b hab
  simp only [oneFileService] at hab
  split_ifs at hab with ha hb hb
  · rw [ha, hb]
  · have hhead := oneFileHex_head
    rw [hab] at hhead
    simp at hhead
  · have hhead := oneFileHex_head
    rw [← hab] at hhead
    simp at hhead
  · exact latinText_injective (List.cons.inj hab).2

def servedAnswer : Answer := ⟨1, .ok oneFileJson, .ok 0⟩

def honestEntry (e : Entry (authz oneFileService)) : Bool :=
  match e.what with
  | .did (.readTree hex) (.ok bytes) => decide (oneFileService.host.hashHex bytes = hex)
  | _ => true

theorem honestly_of_honestEntry {g : Config (authz oneFileService)}
    {e : Entry (authz oneFileService)} (h : honestEntry e = true) :
    Honestly (honest oneFileService) g e := by
  intro c r hdid
  unfold honestEntry at h
  cases c with
  | readTree hex =>
    intro bytes hr
    rw [hdid, hr] at h
    exact of_decide_eq_true h
  | _ => trivial

/-- The call reads the blob of this address. -/
def startsBlobRead (pid : ℕ) (address : Text) (e : Entry (authz oneFileService)) : Bool :=
  match e.what with
  | .started (.getBlob polls token a) =>
      decide (e.pid = pid ∧ polls = 5 ∧ token = ['t'] ∧ a = address)
  | _ => false

theorem startedAs_of_startsBlobRead {log : List (Entry (authz oneFileService))} {pid : ℕ}
    {address : Text} (h : log.any (startsBlobRead pid address) = true) :
    StartedAs log pid (.getBlob 5 ['t'] address) := by
  obtain ⟨e, he, hstart⟩ := List.any_eq_true.mp h
  unfold startsBlobRead at hstart
  split at hstart
  · next polls token a hwhat =>
    obtain ⟨hpid, rfl, rfl, rfl⟩ := of_decide_eq_true hstart
    exact ⟨e, he, hpid, hwhat⟩
  · cases hstart

/-- The call ended: with the blob, or with the refusal of it. -/
def endsRead (pid : ℕ) (allowed : Bool) (e : Entry (authz oneFileService)) : Bool :=
  match e.what with
  | .returned (.ok _) => decide (e.pid = pid ∧ allowed = true)
  | .returned (.error (.blobForbidden _ _)) => decide (e.pid = pid ∧ allowed = false)
  | _ => false

/-- The file's blob is read through a shared walk; another address is then refused. -/
def oneFileMoves : List (Move (authz oneFileService)) :=
  [.start (.getBlob 5 ['t'] emptyBlobHex), .acts 0 5 servedAnswer,
    .start (.driveWalk 5 ['t'] 0), .runOut 1 20 servedAnswer, .runOut 0 20 servedAnswer,
    .start (.getBlob 5 ['t'] oneFileHex), .runOut 2 20 servedAnswer]

theorem blob_read_exact_first :
    (∃ blob, hex32 emptyBlobHex = some blob ∧
      ∃ r ∈ [oneFileHex], InBlobs oneFileService.host r blob) ∧
    ∃ (blob : Bytes) (walked : List Text), hex32 oneFileHex = some blob ∧ oneFileHex ∈ walked ∧
      ∀ r ∈ walked, ¬InBlobs oneFileService.host r blob := by
  obtain ⟨g, hg, htest⟩ := Reach.of_play (M := authz oneFileService) (Allowlist.new .enforce 1000)
    oneFileMoves (fun g => (g.log.all honestEntry && (g.log.any (startsBlobRead 0 emptyBlobHex) &&
      g.log.any (endsRead 0 true))) && (g.log.any (startsBlobRead 2 oneFileHex) &&
        g.log.any (endsRead 2 false))) (by decide +kernel)
  simp only [Bool.and_eq_true] at htest
  obtain ⟨⟨hhonest, hstart, hallowed⟩, hstart', hdenied⟩ := htest
  have hr : Reach (Honestly (honest oneFileService)) (Allowlist.new .enforce 1000) g :=
    hg.of_log (List.all_eq_true.mp hhonest) fun _ _ _ _ _ _ he => honestly_of_honestEntry he
  obtain ⟨-, hall⟩ := blob_read_exact oneFileService_collisionFree hr
  constructor
  · obtain ⟨e, he, hend⟩ := List.any_eq_true.mp hallowed
    unfold endsRead at hend
    split at hend
    · next v hwhat =>
      obtain ⟨hpid, -⟩ := of_decide_eq_true hend
      exact (hall e he 5 ['t'] emptyBlobHex emptyBlobHex _
        (hpid ▸ startedAs_of_startsBlobRead hstart) rfl rfl (by decide)).1 v hwhat
    · exact absurd (of_decide_eq_true hend).2 (by decide)
    · cases hend
  · obtain ⟨e, he, hend⟩ := List.any_eq_true.mp hdenied
    unfold endsRead at hend
    split at hend
    · exact absurd (of_decide_eq_true hend).2 (by decide)
    · next b fence hwhat =>
      obtain ⟨hpid, -⟩ := of_decide_eq_true hend
      obtain ⟨blob, walked, unwalkable, hhex, -, hreq, -, -, hno⟩ :=
        (hall e he 5 ['t'] oneFileHex oneFileHex _
          (hpid ▸ startedAs_of_startsBlobRead hstart') rfl rfl (by decide)).2 b fence hwhat
      exact ⟨blob, walked, hhex, hreq oneFileHex (by simp), hno⟩
    · cases hend

end Scarab.BlobAuthz
