import Scarab.TextBasics
import Scarab.RowStore

/-!
# The Depot: addresses, packs and tables

A drain's durable objects are filed into packs, many members to one bucket object. Postgres
rows say which pack holds which address, which fence owns the pack, and whether a drain
record has committed it.
-/
namespace Scarab.Depot

abbrev Bytes := List UInt8

/-- The step attempt a token was minted for. `fence_key` hashes the three length-prefixed, and
the model keys by the fence itself. -/
structure Fence where
  run : Text
  step : Text
  attempt : Text
  deriving DecidableEq, Repr

inductive PackMemberKind where
  | blob
  | tree
  deriving DecidableEq, Repr

def sha256Tag : Text := ['s', 'h', 'a', '2', '5', '6']

def taggedAddress (hex : Text) : Text := sha256Tag ++ ':' :: hex

/-- The bare hex of a tagged or legacy address; any other tag is refused. -/
def parseAddress (address : Text) : Option Text :=
  match splitOnce [':'] address with
  | none => some address
  | some (algo, hex) => if algo = sha256Tag then some hex else none

def isHexDigit (c : Char) : Bool := ('0' ≤ c && c ≤ '9') || ('a' ≤ c && c ≤ 'f')

def validHash (hash : Text) : Bool := hash.length == 64 && hash.all isHexDigit

def validAddress (address : Text) : Option Text :=
  (parseAddress address).filter validHash

inductive TreeTarget where
  | blob (hex : Text)
  | tree (hex : Text)
  deriving DecidableEq, Repr

structure TreeEntry where
  name : Text
  target : TreeTarget
  mode : Option ℕ
  mtimeMs : Option ℤ
  deriving DecidableEq, Repr

/-- The kind and address an entry points at. -/
def TreeEntry.member (e : TreeEntry) : PackMemberKind × Text :=
  match e.target with
  | .blob h => (.blob, h)
  | .tree h => (.tree, h)

/-- `packs/<fence>/<session>-<seq>.pack`, or the fence's `commit.pack`. -/
inductive PackKey where
  | body (fence : Fence) (session seq : ℕ)
  | commit (fence : Fence)
  deriving DecidableEq, Repr

def PackKey.fence : PackKey → Fence
  | .body f _ _ => f
  | .commit f => f

structure PackMember where
  address : Text
  kind : PackMemberKind
  offset : ℕ
  len : ℕ
  deriving DecidableEq, Repr

/-- A finished pack, under a key of the depot or of any bucket. -/
structure FinishedPack (κ : Type) where
  key : κ
  bytes : ℕ
  members : List PackMember
  deriving DecidableEq, Repr

/-- One sibling of a commit pack. -/
structure CommitPackEntry where
  key : PackKey
  bytes : ℕ
  members : List PackMember
  deriving DecidableEq, Repr

/-- What comes from outside the repository: SHA-256 and the JSON encodings. -/
structure Host where
  hashHex : Bytes → Text
  parseTree : Bytes → Option (List TreeEntry)
  treeJson : List TreeEntry → Bytes
  footerJson : List PackMember → Bytes
  commitJson : Fence → Text → Text → List CommitPackEntry → Bytes

/-- The hash of no bytes. -/
def emptyBlobHex : Text :=
  addressText 0xe3b0c44298fc1c149afbf4c8996fb92427ae41e4649b934ca495991b7852b855

/-- Entries sorted by name, then serialised: the preimage of a tree's address. -/
def canonicalTreeBytes (host : Host) (entries : List TreeEntry) : Bytes :=
  host.treeJson (entries.insertionSort fun a b => ¬ b.name < a.name)

/-- An open multipart upload. Nothing of it is visible until it is finished, so its parts are
kept as one body. -/
structure OpenPack where
  key : PackKey
  body : Bytes
  members : List PackMember
  deriving DecidableEq, Repr

def OpenPack.bodyBytes (w : OpenPack) : ℕ := w.body.length

def OpenPack.append (w : OpenPack) (kind : PackMemberKind) (address : Text) (data : Bytes) :
    OpenPack :=
  { w with body := w.body ++ data
           members := w.members ++ [⟨address, kind, w.bodyBytes, data.length⟩] }

/-- Little-endian bytes. -/
def leBytes : ℕ → ℕ → Bytes
  | 0, _ => []
  | w + 1, n => UInt8.ofNat (n % 256) :: leBytes w (n / 256)

def packFormatVersion : ℕ := 1
def packMagic : Bytes := [0x53, 0x50, 0x41, 0x4B]
def packTrailerBytes : ℕ := 16

def packTrailer (footerLen : ℕ) : Bytes :=
  leBytes 8 footerLen ++ leBytes 4 packFormatVersion ++ packMagic

/-- The object an upload publishes: the members, the footer and the trailer. -/
def OpenPack.object (host : Host) (w : OpenPack) : Bytes :=
  w.body ++ host.footerJson w.members ++ packTrailer (host.footerJson w.members).length

def OpenPack.finished (host : Host) (w : OpenPack) : FinishedPack PackKey :=
  ⟨w.key, w.bodyBytes + (host.footerJson w.members).length + packTrailerBytes, w.members⟩

/-- 64 MiB. -/
def packSizeCapBytes : ℕ := 64 * 1024 * 1024

/-- One fence's drain in progress on one replica. -/
structure PackSession where
  fence : Fence
  session : ℕ
  nextSeq : ℕ
  writer : Option OpenPack
  sealedPacks : List (FinishedPack PackKey)
  packed : List Text
  lastTouchedMs : ℤ
  aborted : Bool
  deriving DecidableEq, Repr

def PackSession.new (fence : Fence) (session : ℕ) (nowMs : ℤ) : PackSession :=
  ⟨fence, session, 1, none, [], [], nowMs, false⟩

def PackSession.nextKey (s : PackSession) : PackKey × PackSession :=
  (.body s.fence s.session s.nextSeq, { s with nextSeq := s.nextSeq + 1 })

/-- Take addresses back out of `packed`, so that a retried PUT packs them again. -/
def PackSession.forget (s : PackSession) (members : List PackMember) : PackSession :=
  { s with packed := s.packed.filter fun a => !members.any fun m => m.address == a }

inductive PackRowKind where
  | body
  | commit
  deriving DecidableEq, Repr

/-- A `depot_packs` row. `born` is the transaction that inserted it: a row deleted and inserted
again under one key is another row. -/
structure PackRow where
  key : PackKey
  fence : Fence
  kind : PackRowKind
  createdAt : ℤ
  bytes : ℕ
  committed : Bool
  born : ℕ
  deriving DecidableEq, Repr

/-- A `depot_pack_members` row. -/
structure MemberRow where
  address : Text
  kind : PackMemberKind
  packKey : PackKey
  byteOffset : ℕ
  byteLen : ℕ
  deriving DecidableEq, Repr

inductive DrainErrorKind where
  | outputContract
  | ingest
  | recordPost
  deriving DecidableEq, Repr

structure DrainError where
  kind : DrainErrorKind
  detail : Text
  deriving DecidableEq, Repr

/-- What a drain reports; no error means success. -/
structure DrainRecord where
  root : Text
  prunedRoot : Option Text
  identity : Option Text
  cacheRoots : List (Text × Text)
  error : Option DrainError
  deriving DecidableEq, Repr

/-- The published root. -/
def DrainRecord.effective (r : DrainRecord) : Text := r.prunedRoot.getD r.root

/-- A `depot_drain_records` row. -/
structure RecordRow where
  fence : Fence
  postedAt : ℤ
  record : DrainRecord
  deriving DecidableEq, Repr

/-- `record->>'error' IS NULL`. -/
def RecordRow.success (r : RecordRow) : Bool := r.record.error.isNone

/-- A `depot_fence_borrows` row. -/
structure BorrowRow where
  borrower : Fence
  owner : Fence
  run : Text
  createdAt : ℤ
  deriving DecidableEq, Repr

inductive Row where
  | pack (p : PackRow)
  | member (m : MemberRow)
  | record (r : RecordRow)
  | borrow (b : BorrowRow)
  deriving DecidableEq, Repr

/-- The primary keys. -/
inductive RowKey where
  | pack (key : PackKey)
  | member (address : Text) (key : PackKey)
  | record (fence : Fence)
  | borrow (borrower owner : Fence)
  deriving DecidableEq, Repr

def Row.key : Row → RowKey
  | .pack p => .pack p.key
  | .member m => .member m.address m.packKey
  | .record r => .record r.fence
  | .borrow b => .borrow b.borrower b.owner

/-- A `depot_fence_writes` row. -/
structure LedgerRow where
  fence : Fence
  tree : Text
  writtenAt : ℤ
  deriving DecidableEq, Repr

structure Object where
  bytes : Bytes
  modifiedMs : ℤ
  deriving DecidableEq, Repr

variable (host : Host)

/-- What a root publishes: itself as a tree, and whatever the trees in it point at. -/
inductive InClosure (root : Text) : PackMemberKind → Text → Prop
  | root : InClosure root .tree root
  | entry {hex : Text} {body : Bytes} {entries : List TreeEntry} {e : TreeEntry}
      (tree : InClosure root .tree hex) (hash : host.hashHex body = hex)
      (parsed : host.parseTree body = some entries) (mem : e ∈ entries) :
      InClosure root e.member.1 e.member.2

/-- SHA-256 has no collisions. -/
def Host.CollisionFree : Prop := Function.Injective host.hashHex

end Scarab.Depot
