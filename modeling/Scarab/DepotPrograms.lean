import Scarab.DepotCommands

/-!
# The Depot's handlers

PUTs into the fence's pack session, seals, the drain record POST and the reads, as programs
over the Depot's commands.
-/
namespace Scarab.Depot

open RowStore Interleave

inductive WsError where
  | badRequest
  | backend
  | notFound
  | scopeForbidden
  deriving DecidableEq, Repr

/-- Why a drain record is refused; each names the first missing address. -/
inductive Refusal where
  | rootNotLedgered (hex : Text)
  | prunedRootNotLedgered (hex : Text)
  | cacheRootNotLedgered (dir root : Text)
  | treeNotLedgered (hex : Text)
  | treeUnreadable (hex : Text)
  | blobMissing (hex : Text)
  deriving DecidableEq, Repr

/-- The statuses 200, 201, 409, and 422 with or without the retryable code. -/
inductive Reply where
  | ok
  | created
  | conflict
  | refused (why : Refusal)
  | incomplete (lost : List (PackMemberKind × Text))
  deriving DecidableEq, Repr

/-- Depot code: a program over the commands. -/
abbrev Eff (α : Type) := Prog Cmd Resp WsError α

section helpers

variable {α : Type}

def orFail : Option α → Eff α
  | some a => .ok a
  | none => .err .backend

def orBadRequest : Option α → Eff α
  | some a => .ok a
  | none => .err .badRequest

def orError : Except WsError α → Eff α
  | .ok a => .ok a
  | .error e => .err e

def succeeded : Bool → Eff Unit
  | true => .ok ()
  | false => .err .backend

end helpers

def now : Eff ℤ := .call .clock .ok
def begin : Eff ℕ := .call .begin orFail
def ask (q : Query) : Eff q.Ans := .call (.ask none q) orFail
def askIn (t : ℕ) (q : Query) : Eff q.Ans := .call (.ask (some t) q) orFail
def stmt (t : ℕ) (x : Stmt) : Eff x.Ans := .call (.stmt t x) orFail
def commit (t : ℕ) : Eff Unit := .call (.commit t) orFail
def rollback (t : ℕ) : Eff Unit := .call (.rollback t) .ok
def store (x : Store) : Eff x.Ans := .call (.store x) .ok

variable (host : Host)

def insertOneBodyPack (t : ℕ) (f : Fence) (pack : FinishedPack PackKey) : Eff Unit := do
  stmt t (.insertPack pack.key f .body pack.bytes)
  Prog.forEach pack.members fun m =>
    stmt t (.insertMember ⟨m.address, m.kind, pack.key, m.offset, m.len⟩)

def stagePackRows (f : Fence) (pack : FinishedPack PackKey) : Eff Unit := do
  let t ← begin
  insertOneBodyPack t f pack
  commit t

/-- Complete the open pack and stage its rows. A staging failure does not fail the seal: the
pack stays in the session and its members may be packed again. -/
def sealOpen (s : PackSession) : Eff (Except WsError Unit × PackSession) :=
  if s.aborted then pure (.error .backend, s)
  else match s.writer with
    | none => pure (.ok (), s)
    | some w => do
        let s := { s with writer := none }
        if ← store (.finishPack w) then
          let finished := w.finished host
          let s := { s with sealedPacks := s.sealedPacks ++ [finished] }
          match ← (stagePackRows s.fence finished).attempt with
          | .ok _ => pure (.ok (), s)
          | .error _ => pure (.ok (), s.forget w.members)
        else pure (.error .backend, s.forget w.members)

/-- The session rolls to a new pack before a member that would overfill the open one; an
oversized member gets a pack of its own. -/
def rollsFor (s : PackSession) (len : ℕ) : Bool :=
  decide (packSizeCapBytes < len) ||
    s.writer.any fun w => decide (packSizeCapBytes < w.bodyBytes + len)

def openWriter (s : PackSession) : OpenPack × PackSession :=
  match s.writer with
  | some w => (w, s)
  | none => (⟨s.nextKey.1, [], []⟩, s.nextKey.2)

/-- File one member in the open pack. -/
def fileMember (s : PackSession) (kind : PackMemberKind) (tagged : Text) (data : Bytes) :
    PackSession :=
  let (w, s) := openWriter s
  { s with writer := some (w.append kind tagged data), packed := tagged :: s.packed }

/-- Drop the open writer and forget its members. -/
def PackSession.discardOpen (s : PackSession) : PackSession :=
  match s.writer with
  | some w => { s.forget w.members with writer := none }
  | none => s

def PackSession.append (s : PackSession) (kind : PackMemberKind) (tagged : Text) (data : Bytes) :
    Eff (Except WsError Unit × PackSession) :=
  if s.aborted then pure (.error .backend, s)
  else do
    let nowSecs ← now
    let s := { s with lastTouchedMs := nowSecs * 1000 }
    if tagged ∈ s.packed then pure (.ok (), s)
    else do
      let (rolled, s) ← if rollsFor s data.length then sealOpen host s else pure (.ok (), s)
      match rolled with
      | .error e => pure (.error e, s)
      | .ok _ => do
          if ← store .uploadPart then
            let s := fileMember s kind tagged data
            if packSizeCapBytes < data.length then sealOpen host s else pure (.ok (), s)
          else pure (.error .backend, (openWriter s).2.discardOpen)

def packAppend (replica : ℕ) (f : Fence) (kind : PackMemberKind) (hex : Text) (data : Bytes) :
    Eff Unit := do
  let id ← store (.openSession replica f)
  let s ← orFail (← store (.lockSession id))
  let (filed, s) ← s.append host kind (taggedAddress hex) data
  store (.saveSession id s)
  orError filed

inductive DurabilityLabel where
  | durable
  | cacheOnly
  | unknown
  deriving DecidableEq, Repr

/-- Whether a PUT is durable; a durable label without a fence and an unknown one are refused. -/
def durabilityOf (label : Option DurabilityLabel) (claim : Option Fence) : Option Bool :=
  match label with
  | none => some claim.isSome
  | some .durable => if claim.isSome then some true else none
  | some .cacheOnly => some false
  | some .unknown => none

structure Put where
  replica : ℕ
  claim : Option Fence
  label : Option DurabilityLabel
  address : Text
  body : Bytes
  deriving DecidableEq, Repr

def putBlob (p : Put) : Eff Reply := do
  let hash ← orBadRequest (validAddress p.address)
  let durable ← orBadRequest (durabilityOf p.label p.claim)
  if host.hashHex p.body ≠ hash then .err .badRequest
  else do
    let already ← store (.warmHas p.replica .blob hash)
    store (.warmPut p.replica .blob hash p.body)
    match durable, p.claim with
    | true, some f => packAppend host p.replica f .blob hash p.body
    | _, _ => pure ()
    pure (if already then .ok else .created)

def putTree (p : Put) : Eff Reply := do
  let hash ← orBadRequest (validAddress p.address)
  let durable ← orBadRequest (durabilityOf p.label p.claim)
  if host.hashHex p.body ≠ hash then .err .badRequest
  else do
    let entries ← orBadRequest (host.parseTree p.body)
    if canonicalTreeBytes host entries ≠ p.body then .err .badRequest
    else do
      let already ← store (.warmHas p.replica .tree hash)
      store (.warmPut p.replica .tree hash p.body)
      match p.claim with
      | some f => do
          succeeded (← store (.appendLedger f hash))
          if durable then packAppend host p.replica f .tree hash p.body else pure ()
      | none => pure ()
      pure (if already then .ok else .created)

/-- A member read out of its pack, checked against its address and put back in the warm tier. -/
def readPacked (replica : ℕ) (kind : PackMemberKind) (hex : Text) : Eff (Option Bytes) := do
  match ← ask (.member kind (taggedAddress hex)) with
  | none => pure none
  | some m => do
      match ← store (.getRange m.packKey m.byteOffset m.byteLen) with
      | .notFound => pure none
      | .failed => .err .backend
      | .found bytes =>
          if host.hashHex bytes ≠ hex then .err .backend
          else do
            store (.warmPut replica kind hex bytes)
            pure (some bytes)

/-- `blob_via_pack_then_loose` and `tree_bytes_via_pack_then_loose`: the pack index first, the
loose object second. -/
def viaPackThenLoose (replica : ℕ) (kind : PackMemberKind) (hex : Text) : Eff Bytes := do
  match ← (readPacked host replica kind hex).attempt with
  | .ok (some bytes) => pure bytes
  | .ok none => do
      match ← store (.tieredGet replica kind hex) with
      | some bytes => pure bytes
      | none => .err .notFound
  | .error indexError => do
      match ← store (.tieredGet replica kind hex) with
      | some bytes => pure bytes
      | none => .err indexError

structure Closure where
  trees : List Text
  blobs : List Text
  deriving DecidableEq, Repr

def Closure.members (c : Closure) : List (PackMemberKind × Text) :=
  c.trees.map (fun h => (.tree, h)) ++ c.blobs.map fun h => (.blob, h)

def Closure.tagged (c : Closure) : List Text := c.members.map fun m => taggedAddress m.2

/-- Split off the trees of a level that were not visited yet; each must be ledgered. -/
def takeLevel (ledger : List Text) :
    List Text → List Text → List Text → Except Text (List Text × List Text)
  | [], visited, level => .ok (visited, level)
  | tree :: rest, visited, level =>
      if tree ∈ visited then takeLevel ledger rest visited level
      else if tree ∉ ledger then .error tree
      else takeLevel ledger rest (tree :: visited) (level ++ [tree])

def subtreesOf (entries : List TreeEntry) : List Text :=
  entries.filterMap fun e => match e.target with
    | .tree h => some h
    | .blob _ => none

def blobsOf (entries : List TreeEntry) : List Text :=
  entries.filterMap fun e => match e.target with
    | .blob h => some h
    | .tree _ => none

def readTree (replica : ℕ) (hex : Text) : Eff (Option Bytes) := do
  match ← store (.warmGet replica .tree hex) with
  | some bytes => pure (some bytes)
  | none => do
      match ← (viaPackThenLoose host replica .tree hex).attempt with
      | .ok bytes => pure (some bytes)
      | .error .notFound => pure none
      | .error e => .err e

/-- Collect the next level and the blobs from one level's reads. -/
def gather : List Text → List (Option Bytes) → List Text → List Text →
    Except (Option Text) (List Text × List Text)
  | tree :: trees, read :: reads, frontier, blobs =>
      match read with
      | none => .error (some tree)
      | some bytes =>
          match host.parseTree bytes with
          | none => .error none
          | some entries =>
              gather trees reads (frontier ++ subtreesOf entries) (blobs ++ blobsOf entries)
  | _, _, frontier, blobs => .ok (frontier, blobs)

/-- Level by level through the trees. Every level before the last adds a ledgered tree to the
visited ones, so more rounds than the ledger has entries are never needed. -/
def walkTrees (replica : ℕ) (ledger : List Text) :
    ℕ → List Text → List Text → List Text → Eff (Except Refusal Closure)
  | 0, _, _, _ => .err .backend
  | rounds + 1, visited, frontier, blobs =>
      if frontier = [] then pure (.ok ⟨visited, blobs⟩)
      else match takeLevel ledger frontier visited [] with
        | .error tree => pure (.error (.treeNotLedgered tree))
        | .ok (visited, level) => do
            let reads ← Prog.collect level (readTree host replica)
            match gather host level reads [] blobs with
            | .error (some tree) => pure (.error (.treeUnreadable tree))
            | .error none => .err .backend
            | .ok (frontier, blobs) => walkTrees replica ledger rounds visited frontier blobs

/-- The first of these blobs that the warm tier lacks. -/
def firstCold (replica : ℕ) : List Text → Eff (Option Text)
  | [] => pure none
  | blob :: blobs => do
      if ← store (.warmHas replica .blob blob) then firstCold replica blobs else pure (some blob)

def validateDrainClosure (replica : ℕ) (f : Fence) (ledger : List Text) (root : Text) :
    Eff (Except Refusal Closure) := do
  match ← walkTrees host replica ledger (ledger.length + 2) [] [root] [] with
  | .error why => pure (.error why)
  | .ok c => do
      let durable ← ask (.durable .blob (c.blobs.map taggedAddress) (some f))
      match ← firstCold replica (c.blobs.filter fun b => taggedAddress b ∉ durable) with
      | some blob => pure (.error (.blobMissing blob))
      | none => pure (.ok c)

/-- Every reported cache root must be in the fence's own ledger. -/
def checkCacheRoots (ledger : List Text) :
    List (Text × Text) → List (Text × Text) → Eff (Except Refusal (List (Text × Text)))
  | [], normalized => pure (.ok normalized)
  | (dir, root) :: rest, normalized => do
      let root ← orBadRequest (validAddress root)
      if root ∉ ledger then pure (.error (.cacheRootNotLedgered dir root))
      else checkCacheRoots ledger rest (normalized ++ [(dir, root)])

def validOption (address : Option Text) : Eff (Option Text) :=
  match address with
  | none => pure none
  | some a => do
      let hex ← orBadRequest (validAddress a)
      pure (some hex)

/-- Normalise a success record's addresses and validate them against the ledger and the
closure. -/
def validateRecord (replica : ℕ) (f : Fence) (record : DrainRecord) :
    Eff (Except Refusal (DrainRecord × Closure)) := do
  let root ← orBadRequest (validAddress record.root)
  let prunedRoot ← validOption record.prunedRoot
  let identity ← validOption record.identity
  let ledger ← ask (.ledger f)
  if root ∉ ledger then pure (.error (.rootNotLedgered root))
  else match prunedRoot.filter (· ∉ ledger) with
    | some pruned => pure (.error (.prunedRootNotLedgered pruned))
    | none => do
        match ← checkCacheRoots ledger record.cacheRoots [] with
        | .error why => pure (.error why)
        | .ok cacheRoots => do
            let record : DrainRecord :=
              ⟨root, prunedRoot, identity, cacheRoots, record.error⟩
            match ← validateDrainClosure host replica f ledger record.effective with
            | .error why => pure (.error why)
            | .ok closure => pure (.ok (record, closure))

/-- Seal the fence's packs on this replica and write its commit pack. -/
def sealFencePacks (replica : ℕ) (f : Fence) (root publishedRoot : Text) :
    Eff (List (FinishedPack PackKey) × Option ℕ) := do
  let sealedPacks ← match ← store (.findSession replica f) with
    | none => pure []
    | some id => do
        let s ← orFail (← store (.lockSession id))
        let (outcome, s) ← sealOpen host s
        store (.saveSession id s)
        orError outcome
        pure s.sealedPacks
  let staged ← ask (.staged f)
  let packs := staged ++ (sealedPacks.filter fun p => !staged.any fun e => e.key == p.key).map
    fun p => ⟨p.key, p.bytes, p.members⟩
  if packs = [] then pure (sealedPacks, none)
  else do
    let bytes := host.commitJson f (taggedAddress root) (taggedAddress publishedRoot) packs
    succeeded (← store (.putCommitPack f bytes))
    pure (sealedPacks, some bytes.length)

/-- The members of one kind that are neither sealed here nor durable in the index. -/
def lostMembers (f : Fence) (sealedPacks : List (FinishedPack PackKey)) (kind : PackMemberKind)
    (members : List Text) : Eff (List (PackMemberKind × Text)) := do
  let unsealed := members.filter fun hex =>
    !sealedPacks.any fun p => p.members.any fun m => m.address == taggedAddress hex
  if unsealed = [] then pure []
  else do
    let durable ← ask (.durable kind (unsealed.map taggedAddress) (some f))
    pure ((unsealed.filter fun hex => taggedAddress hex ∉ durable).map fun hex => (kind, hex))

/-- Index the sealed packs and the commit pack, and commit every pack row of the fence. -/
def insertPackRows (t : ℕ) (f : Fence) (sealedPacks : List (FinishedPack PackKey)) (commitPack : Option ℕ) :
    Eff Unit := do
  Prog.forEach sealedPacks (insertOneBodyPack t f)
  match commitPack with
  | some bytes => stmt t (.insertPack (.commit f) f .commit bytes)
  | none => pure ()
  let rows ← askIn t (.uncommitted f)
  Prog.forEach rows fun p => stmt t (.setCommitted p)

/-- Share-lock the pack rows that the closure stands on, and answer the addresses they hold. -/
def recheckClosurePresent (t : ℕ) (tagged : List Text) (f : Fence) : Eff (List Text) :=
  if tagged = [] then pure []
  else do
    let rows ← askIn t (.closure tagged f)
    let found ← Prog.collect rows fun row => do
      let p ← stmt t (.lockPack row.2 .share)
      pure (if p.any fun q => q.countsFor f then some row.1 else none)
    pure (found.filterMap id)

def recordBorrowEdges (t : ℕ) (f : Fence) (tagged : List Text) (stamp : ℤ) : Eff Unit :=
  if tagged = [] then pure ()
  else do
    let owners ← askIn t (.holders tagged f)
    Prog.forEach owners fun owner => do
      let _ ← stmt t (.insertBorrow ⟨f, owner, f.run, stamp⟩)
      pure ()

/-- The record transaction of a success. -/
def recordSuccess (replica : ℕ) (f : Fence) (record : DrainRecord) (closure : Closure)
    (sealedPacks : List (FinishedPack PackKey)) (commitPack : Option ℕ) : Eff Reply := do
  let postedAt ← now
  let stamp ← now
  let t ← begin
  insertPackRows t f sealedPacks commitPack
  let present ← recheckClosurePresent t closure.tagged f
  match closure.members.find? fun m => taggedAddress m.2 ∉ present with
  | some m => do
      rollback t
      pure (.incomplete [m])
  | none => do
      recordBorrowEdges t f closure.tagged stamp
      stmt t (.upsertRecord ⟨f, postedAt, record⟩)
      commit t
      store (.dropSession replica f)
      pure .ok

/-- An error record skips the closure and flips nothing. -/
def recordError (f : Fence) (record : DrainRecord) : Eff Reply := do
  let postedAt ← now
  let t ← begin
  stmt t (.upsertRecord ⟨f, postedAt, record⟩)
  commit t
  pure .ok

def publish (replica : ℕ) (f : Fence) (record : DrainRecord) : Eff Reply := do
  match ← validateRecord host replica f record with
  | .error why => pure (.refused why)
  | .ok (record, closure) => do
      let (sealedPacks, commitPack) ← sealFencePacks host replica f record.root record.effective
      let lostTrees ← lostMembers f sealedPacks .tree closure.trees
      let lostBlobs ← lostMembers f sealedPacks .blob closure.blobs
      if lostTrees ++ lostBlobs ≠ [] then pure (.incomplete (lostTrees ++ lostBlobs))
      else recordSuccess replica f record closure sealedPacks commitPack

def postDrain (replica : ℕ) (claim : Option Fence) (record : DrainRecord) : Eff Reply :=
  match claim with
  | none => .err .scopeForbidden
  | some f => do
      let existing ← ask (.record f)
      if existing.any RecordRow.success then pure .conflict
      else if record.error.isSome then recordError f record
      else publish host replica f record

end Scarab.Depot
