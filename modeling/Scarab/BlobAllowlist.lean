import Scarab.FlatManifests
import Scarab.InterleaveContract

/-!
# Blob-read authorization

A token reads the blobs under the roots it claims. The answers are kept in an allowlist that is
filled by authorized `/flat` reads and by a fallback walk that concurrent misses share.
-/
namespace Scarab.BlobAuthz

open Interleave Depot

inductive BlobAuthzMode where
  | off | log | enforce
  deriving DecidableEq, Repr

inductive Scope where
  | read | browse
  deriving DecidableEq, Repr

structure WorkspaceClaims where
  fence : Fence
  exp : ℤ
  scope : Scope
  roots : List Text
  cacheRoots : List Text
  deriving DecidableEq, Repr

def WorkspaceClaims.claimedRoots (c : WorkspaceClaims) : List Text := c.roots ++ c.cacheRoots

def WorkspaceClaims.mayReadTree (c : WorkspaceClaims) (hash : Text) : Bool :=
  c.scope = .browse ∨ hash ∈ c.claimedRoots

def hexValue (c : Char) : Option ℕ :=
  if '0' ≤ c ∧ c ≤ '9' then some (c.toNat - '0'.toNat)
  else if 'a' ≤ c ∧ c ≤ 'f' then some (c.toNat - 'a'.toNat + 10)
  else if 'A' ≤ c ∧ c ≤ 'F' then some (c.toNat - 'A'.toNat + 10)
  else none

def hexPairs : List Char → Option Bytes
  | hi :: lo :: rest => do
      let h ← hexValue hi
      let l ← hexValue lo
      let bytes ← hexPairs rest
      pure (UInt8.ofNat (h * 16 + l) :: bytes)
  | _ => some []

/-- The 32 bytes of an address of 64 hex digits. -/
def hex32 (hex : Text) : Option Bytes := if hex.length ≠ 64 then none else hexPairs hex

def sortBlobs (blobs : List Bytes) : List Bytes := (blobs.insertionSort fun a b => ¬ b < a).dedup

theorem mem_sortBlobs {blobs : List Bytes} {b : Bytes} : b ∈ sortBlobs blobs ↔ b ∈ blobs := by
  rw [sortBlobs, List.mem_dedup, List.mem_insertionSort]

/-- What one fallback walk proved: the blobs of the roots that walked. A cache root that did not
grants nothing and counts as seen. -/
structure BlobClosure where
  blobs : List Bytes
  roots : List Text
  unwalkable : List Text
  deriving DecidableEq, Repr

structure BlobAllowEntry where
  blobs : List Bytes
  rootsSeen : List Text
  unwalkable : List Text
  exp : ℤ
  tick : ℕ
  deriving DecidableEq, Repr

/-- The entries by token, at most one a token. -/
structure BlobAllowInner where
  entries : List (Text × BlobAllowEntry)
  bytes : ℕ
  tick : ℕ
  capBytes : ℕ
  deriving DecidableEq, Repr

inductive BlobAllowVerdict where
  | allowed | deniedComplete | miss
  deriving DecidableEq, Repr

def maxEntryBlobs : ℕ := 200000

namespace BlobAllowInner

variable (inner : BlobAllowInner) (key : Text)

def get : Option BlobAllowEntry := (inner.entries.find? (·.1 = key)).map (·.2)

def remove : BlobAllowInner :=
  { inner with entries := inner.entries.filter (·.1 ≠ key) }

def insert (entry : BlobAllowEntry) : BlobAllowInner :=
  { inner with entries := (key, entry) :: (inner.remove key).entries }

/-- One membership question. The blobs are sorted, so the source's binary search is membership. -/
def lookup (blob : Bytes) (claimedRoots : List Text) (now : ℤ) :
    BlobAllowVerdict × BlobAllowInner :=
  let inner := { inner with tick := inner.tick + 1 }
  match inner.get key with
  | none => (.miss, inner)
  | some entry =>
      if now > entry.exp then
        (.miss, { inner.remove key with bytes := inner.bytes - entry.blobs.length * 32 })
      else
        let inner := inner.insert key { entry with tick := inner.tick }
        if blob ∈ entry.blobs then (.allowed, inner)
        else if claimedRoots.all fun r => r ∈ entry.rootsSeen ∨ r ∈ entry.unwalkable then
          (.deniedComplete, inner)
        else (.miss, inner)

/-- Merge the closure of `granted` into what the token's entry had. -/
def mergedEntry (existing : Option BlobAllowEntry) (exp : ℤ) (granted unwalkable : List Text)
    (blobs : List Bytes) (tick : ℕ) : BlobAllowEntry :=
  match existing with
  | some existing =>
      let rootsSeen := existing.rootsSeen ++ granted
      { blobs := sortBlobs (existing.blobs ++ blobs)
        rootsSeen := rootsSeen
        unwalkable := (existing.unwalkable ++ unwalkable).filter (· ∉ rootsSeen)
        exp := exp
        tick := tick }
  | none =>
      { blobs := blobs
        rootsSeen := granted
        unwalkable := unwalkable.filter (· ∉ granted)
        exp := exp
        tick := tick }

/-- The least recent entry but the token's own. -/
def victim : Option (Text × BlobAllowEntry) :=
  (inner.entries.filter (·.1 ≠ key)).argmin (·.2.tick)

/-- Evict while over the cap; each round takes one entry. -/
def evict : ℕ → BlobAllowInner → BlobAllowInner
  | 0, inner => inner
  | rounds + 1, inner =>
      if inner.bytes > inner.capBytes ∧ inner.entries.length > 1 then
        match inner.victim key with
        | none => inner
        | some (k, evicted) =>
            evict rounds { inner.remove k with
              bytes := inner.bytes - evicted.blobs.length * 32 }
      else inner

def grantWithUnwalkable (exp : ℤ) (granted unwalkable : List Text) (blobs : List Bytes) :
    BlobAllowInner :=
  let blobs := sortBlobs blobs
  let tick := inner.tick + 1
  let existing := inner.get key
  let inner :=
    { inner.remove key with
      tick := tick
      bytes := inner.bytes - (existing.map (·.blobs.length * 32)).getD 0 }
  let merged := mergedEntry existing exp granted unwalkable blobs tick
  if merged.blobs.length > maxEntryBlobs then inner
  else
    let inner := { inner.insert key merged with bytes := inner.bytes + merged.blobs.length * 32 }
    evict key inner.entries.length inner

end BlobAllowInner

/-- What a request is refused with. A call that is dropped before its end is `abandoned`. -/
inductive WsError where
  | unauthorized | badRequest | forbidden | notFound | backend | abandoned
  | blobForbidden (blob fence : Text)
  deriving DecidableEq, Repr

inductive WalkError where
  | unreadable (tree : Text) (cause : WsError)
  | nonHexBlob (tree blob : Text)
  deriving DecidableEq, Repr

/-- A fallback walk, shared by the calls that wait for it. -/
structure Walk where
  roots : List Text
  cacheRoots : List Text
  result : Option (Except WalkError BlobClosure)

structure Allowlist where
  mode : BlobAuthzMode
  inner : BlobAllowInner
  inflight : Text → Option ℕ
  nextWalkId : ℕ
  walks : Text × ℕ → Option Walk

def Allowlist.new (mode : BlobAuthzMode) (capBytes : ℕ) : Allowlist where
  mode := mode
  inner := ⟨[], 0, 0, capBytes⟩
  inflight := fun _ => none
  nextWalkId := 0
  walks := fun _ => none

inductive Cmd where
  | mode
  | now
  | readTree (hex : Text)
  | blobSize (hex : Text)
  | lookup (key : Text) (blob : Bytes) (claimedRoots : List Text) (now : ℤ)
  | grant (key : Text) (exp : ℤ) (granted unwalkable : List Text) (blobs : List Bytes)
  | joinWalk (key : Text) (roots cacheRoots : List Text)
  | pollWalk (key : Text) (id : ℕ)
  | leaveWalk (key : Text) (id : ℕ)
  | walkOf (key : Text) (id : ℕ)
  | finishWalk (key : Text) (id : ℕ) (result : Except WalkError BlobClosure)

abbrev Resp : Cmd → Type
  | .mode => BlobAuthzMode
  | .now => ℤ
  | .readTree _ => Except WsError Bytes
  | .blobSize _ => Except WsError ℕ
  | .lookup _ _ _ _ => BlobAllowVerdict
  | .joinWalk _ _ _ => ℕ
  | .pollWalk _ _ => Option (Except WalkError BlobClosure)
  | .walkOf _ _ => Option (List Text × List Text)
  | .grant _ _ _ _ _ | .leaveWalk _ _ | .finishWalk _ _ _ => Unit

/-- The environment's choices: the clock, and what the stores answer. -/
structure Answer where
  now : ℤ
  tree : Except WsError Bytes
  size : Except WsError ℕ

def respond : (c : Cmd) → Answer → Allowlist → Resp c × Allowlist
  | .mode, _, s => (s.mode, s)
  | .now, w, s => (w.now, s)
  | .readTree _, w, s => (w.tree, s)
  | .blobSize _, w, s => (w.size, s)
  | .lookup key blob claimed now, _, s =>
      let (verdict, inner) := s.inner.lookup key blob claimed now
      (verdict, { s with inner := inner })
  | .grant key exp granted unwalkable blobs, _, s =>
      ((), { s with inner := s.inner.grantWithUnwalkable key exp granted unwalkable blobs })
  | .joinWalk key roots cacheRoots, _, s =>
      match s.inflight key with
      | some id => (id, s)
      | none => (s.nextWalkId, { s with
          inflight := Function.update s.inflight key (some s.nextWalkId)
          nextWalkId := s.nextWalkId + 1
          walks := Function.update s.walks (key, s.nextWalkId) (some ⟨roots, cacheRoots, none⟩) })
  | .pollWalk key id, _, s => ((s.walks (key, id)).bind (·.result), s)
  | .leaveWalk key id, _, s =>
      ((), if s.inflight key = some id then
        { s with inflight := Function.update s.inflight key none } else s)
  | .walkOf key id, _, s =>
      (((s.walks (key, id)).filter (·.result.isNone)).map fun w => (w.roots, w.cacheRoots), s)
  | .finishWalk key id result, _, s =>
      match s.walks (key, id) with
      | some ⟨roots, cacheRoots, none⟩ => ((), { s with
          walks := Function.update s.walks (key, id) (some ⟨roots, cacheRoots, some result⟩) })
      | _ => ((), s)

abbrev Eff (α : Type) := Prog Cmd Resp WsError α

def issue (c : Cmd) : Eff (Resp c) := .call c .ok

/-- What comes from outside: the tree encoding and SHA-256, and the claims of the tokens whose
signature holds. An entry's key is the token presented; the source keys by its SHA-256. -/
structure Service where
  host : Host
  verified : Text → Option WorkspaceClaims

variable (svc : Service)

def orWs {α : Type} : Except WsError α → Eff α
  | .ok a => .ok a
  | .error e => .err e

def authenticate (token : Text) : Eff WorkspaceClaims := do
  let now ← issue .now
  match svc.verified token with
  | none => .err .unauthorized
  | some claims => if now > claims.exp then .err .unauthorized else pure claims

def orBadRequest : Option Text → Eff Text
  | some hash => pure hash
  | none => .err .badRequest

/-- A tree's entries, from whichever store has its bytes. -/
def treeEntriesAnywhere (hex : Text) : Eff (List TreeEntry) := do
  let bytes ← orWs (← issue (.readTree hex))
  match svc.host.parseTree bytes with
  | some entries => pure entries
  | none => .err .backend

/-- Walk the trees of the queue that were not seen before. -/
def walkFrom : ℕ → List Text → List Text → List Bytes → Eff (Except WalkError (List Bytes))
  | _, _, [], blobs => pure (.ok (sortBlobs blobs))
  | 0, _, _ :: _, _ => .err .abandoned
  | rounds + 1, seen, tree :: queue, blobs =>
      if tree ∈ seen then walkFrom rounds seen queue blobs
      else do
        match ← (treeEntriesAnywhere svc tree).attempt with
        | .error e => pure (.error (.unreadable tree e))
        | .ok entries =>
            match (blobsOf entries).find? fun blob => (hex32 blob).isNone with
            | some blob => pure (.error (.nonHexBlob tree blob))
            | none =>
                walkFrom rounds (tree :: seen) (queue ++ subtreesOf entries)
                  (blobs ++ (blobsOf entries).filterMap hex32)

def walkBlobClosure (rounds : ℕ) (roots : List Text) : Eff (Except WalkError (List Bytes)) :=
  walkFrom svc rounds [] roots []

/-- One cache root: its blobs when it walks, and a note that it does not otherwise. -/
def walkCacheRoot (rounds : ℕ) (closure : BlobClosure) (root : Text) : Eff BlobClosure := do
  match ← walkBlobClosure svc rounds [root] with
  | .ok more => pure { closure with
      blobs := closure.blobs ++ more
      roots := closure.roots ++ [root] }
  | .error _ => pure { closure with unwalkable := closure.unwalkable ++ [root] }

def walkTokenClosure (rounds : ℕ) (roots cacheRoots : List Text) :
    Eff (Except WalkError BlobClosure) := do
  match ← walkBlobClosure svc rounds roots with
  | .error e => pure (.error e)
  | .ok blobs => do
      let closure ← Prog.foldEach cacheRoots ⟨blobs, roots, []⟩ (walkCacheRoot svc rounds)
      pure (.ok { closure with blobs := sortBlobs closure.blobs })

/-- Wait for a shared walk, as long as the call is polled. -/
def awaitWalk (key : Text) (id : ℕ) : ℕ → Eff (Except WalkError BlobClosure)
  | 0 => .err .abandoned
  | polls + 1 => do
      match ← issue (.pollWalk key id) with
      | some result => pure result
      | none => awaitWalk key id polls

def singleflightWalk (polls : ℕ) (key : Text) (claims : WorkspaceClaims) :
    Eff (Except WalkError BlobClosure) := do
  let id ← issue (.joinWalk key claims.roots claims.cacheRoots)
  let result ← awaitWalk key id polls
  issue (.leaveWalk key id)
  pure result

def fenceText (f : Fence) : Text := f.run ++ '/' :: f.step ++ '/' :: f.attempt

def blobAuthzDeny (claims : WorkspaceClaims) (hash : Text) (mode : BlobAuthzMode) : Eff Unit :=
  if mode = .enforce then .err (.blobForbidden hash (fenceText claims.fence)) else pure ()

def authorizeBlob (polls : ℕ) (key : Text) (claims : WorkspaceClaims) (hash : Text) :
    Eff Unit := do
  let mode ← issue .mode
  if mode = .off then pure ()
  else if claims.scope = .browse then pure ()
  else match hex32 hash with
    | none => .err .backend
    | some blob => do
        let now ← issue .now
        match ← issue (.lookup key blob claims.claimedRoots now) with
        | .allowed => pure ()
        | .deniedComplete => blobAuthzDeny claims hash mode
        | .miss => do
            match ← singleflightWalk polls key claims with
            | .error _ => .err .backend
            | .ok closure => do
                issue (.grant key claims.exp closure.roots closure.unwalkable closure.blobs)
                if blob ∈ closure.blobs then pure () else blobAuthzDeny claims hash mode

/-- The `/flat` route reads what the token claims, never what its fence wrote. -/
def authorizeFlat (token hash : Text) : Eff WorkspaceClaims := do
  let claims ← authenticate svc token
  if claims.mayReadTree hash then pure claims else .err .forbidden

/-- Seed the token's entry with the blobs of a manifest, all of them or none. -/
def seedFlat (token : Text) (claims : WorkspaceClaims) (hash : Text) (manifest : FlatManifest) :
    Eff Unit := do
  let mode ← issue .mode
  if mode ≠ .off ∧ claims.scope = .read then
    match (manifest.entries.map fun e => hex32 e.blob).mapM id with
    | some blobs => issue (.grant token claims.exp [hash] [] blobs)
    | none => pure ()
  else pure ()

def getFlat (rounds : ℕ) (token address : Text) : Eff FlatManifest := do
  let hash ← orBadRequest (validAddress address)
  let claims ← authorizeFlat svc token hash
  let manifest ← flatten (treeEntriesAnywhere svc)
    (fun blob => do orWs (← issue (.blobSize blob))) (.err .abandoned) rounds hash
  seedFlat token claims hash manifest
  pure manifest

/-- The authorization part of a blob read, ranged or not, or of a size request. -/
def getBlob (polls : ℕ) (token address : Text) : Eff Unit := do
  let claims ← authenticate svc token
  let hash ← orBadRequest (validAddress address)
  authorizeBlob polls token claims hash

/-- The work of a shared walk, done while any call polls it. -/
def driveWalk (rounds : ℕ) (key : Text) (id : ℕ) : Eff Unit := do
  match ← issue (.walkOf key id) with
  | none => pure ()
  | some (roots, cacheRoots) => do
      let result ← walkTokenClosure svc rounds roots cacheRoots
      issue (.finishWalk key id result)

inductive Call where
  | getFlat (rounds : ℕ) (token address : Text)
  | getBlob (polls : ℕ) (token address : Text)
  | driveWalk (rounds : ℕ) (key : Text) (id : ℕ)

inductive Value where
  | unit
  | manifest (m : FlatManifest)

def Call.body : Call → Eff Value
  | .getFlat rounds token address => (BlobAuthz.getFlat svc rounds token address).bind fun m =>
      .ok (.manifest m)
  | .getBlob polls token address => (BlobAuthz.getBlob svc polls token address).bind fun _ => .ok .unit
  | .driveWalk rounds key id => (BlobAuthz.driveWalk svc rounds key id).bind fun _ => .ok .unit

abbrev authz : Machine where
  State := Allowlist
  Cmd := Cmd
  Resp := Resp
  Err := WsError
  Answer := Answer
  Call := Call
  Value := Value
  respond := respond
  body := Call.body svc

end Scarab.BlobAuthz
