import Scarab.DepotPacks
import Scarab.InterleaveSystem

/-!
# The Depot's commands

The statements the Depot sends to Postgres, one row lock at a time, and its calls to the
bucket, the warm tier and the in-memory pack sessions. A statement first takes its snapshot,
with `ask`, and then locks or writes the rows it found one by one; a row is read again when
its lock is granted.
-/
namespace Scarab.Depot

open RowStore Interleave

/-- Everything the replicas share, and what each holds in memory. -/
structure World where
  db : Db RowKey Row
  ledger : List LedgerRow
  epoch : ℤ
  bucket : List (PackKey × Object)
  loose : List (PackMemberKind × Text × Bytes)
  warm : List (ℕ × PackMemberKind × Text × Bytes)
  /-- Pack sessions by their unique id; a session taken out of the map lives on while a call
  still holds it. -/
  sessions : ℕ → Option PackSession
  /-- `state.packs` of each replica. -/
  packs : List (ℕ × Fence × ℕ)
  /-- Sessions whose lock is held. -/
  held : List ℕ
  nextSession : ℕ
  /-- `pending_rowless` of each replica. -/
  pending : ℕ → List PackKey

def World.fresh (epoch : ℤ) : World :=
  ⟨.empty, [], epoch, [], [], [], fun _ => none, [], [], 0, fun _ => []⟩

def packRows (rows : List Row) : List PackRow :=
  rows.filterMap fun
    | .pack p => some p
    | _ => none

def memberRows (rows : List Row) : List MemberRow :=
  rows.filterMap fun
    | .member m => some m
    | _ => none

def recordRows (rows : List Row) : List RecordRow :=
  rows.filterMap fun
    | .record r => some r
    | _ => none

def borrowRows (rows : List Row) : List BorrowRow :=
  rows.filterMap fun
    | .borrow b => some b
    | _ => none

section
variable {rows : List Row}

@[simp] theorem mem_packRows {p : PackRow} : p ∈ packRows rows ↔ Row.pack p ∈ rows := by
  simp only [packRows, List.mem_filterMap]
  constructor
  · rintro ⟨r, hr, he⟩
    cases r <;> cases he
    exact hr
  · intro h
    exact ⟨_, h, rfl⟩

@[simp] theorem mem_memberRows {m : MemberRow} : m ∈ memberRows rows ↔ Row.member m ∈ rows := by
  simp only [memberRows, List.mem_filterMap]
  constructor
  · rintro ⟨r, hr, he⟩
    cases r <;> cases he
    exact hr
  · intro h
    exact ⟨_, h, rfl⟩

@[simp] theorem mem_recordRows {r : RecordRow} : r ∈ recordRows rows ↔ Row.record r ∈ rows := by
  simp only [recordRows, List.mem_filterMap]
  constructor
  · rintro ⟨x, hx, he⟩
    cases x <;> cases he
    exact hx
  · intro h
    exact ⟨_, h, rfl⟩

@[simp] theorem mem_borrowRows {b : BorrowRow} : b ∈ borrowRows rows ↔ Row.borrow b ∈ rows := by
  simp only [borrowRows, List.mem_filterMap]
  constructor
  · rintro ⟨x, hx, he⟩
    cases x <;> cases he
    exact hx
  · intro h
    exact ⟨_, h, rfl⟩

end

/-- What a query reads: the rows in view, the write ledger and the borrow-tracking epoch. -/
structure Snapshot where
  rows : List Row
  ledger : List LedgerRow
  epoch : ℤ

inductive Query where
  /-- `read_drain_record` -/
  | record (f : Fence)
  /-- `pack_member_of`; `LIMIT 1`, any row serves -/
  | member (kind : PackMemberKind) (address : Text)
  /-- `durable_present_of` -/
  | durable (kind : PackMemberKind) (addresses : List Text) (caller : Option Fence)
  /-- `staged_body_packs` -/
  | staged (f : Fence)
  /-- the rows `UPDATE … SET committed = TRUE` finds -/
  | uncommitted (f : Fence)
  /-- the rows of `recheck_closure_present` -/
  | closure (addresses : List Text) (f : Fence)
  /-- the owners `record_borrow_edges` selects -/
  | holders (addresses : List Text) (f : Fence)
  /-- the rows `reclaim_stale_staging_once` locks -/
  | doomed (cutoff : ℤ)
  /-- the rows its `DELETE FROM depot_packs` finds -/
  | stagedAmong (keys : List PackKey)
  | packsOf (f : Fence)
  | successOf (f : Fence)
  | hasRecord (f : Fence)
  /-- a borrow edge on the fence whose borrower still has a record -/
  | borrowed (f : Fence)
  | borrowsOf (f : Fence)
  | rowed (keys : List PackKey)
  /-- the quiet-fence lookup of the byte scan -/
  | live (fences : List Fence) (cutoff : ℤ)
  /-- the drain records `sweep_fence_residue` deletes -/
  | residue (cutoff : ℤ)
  | ledger (f : Fence)
  /-- `depot_borrow_tracking_epoch` -/
  | epoch

@[reducible] def Query.Ans : Query → Type
  | .record _ => Option RecordRow
  | .member _ _ => Option MemberRow
  | .durable _ _ _ => List Text
  | .staged _ => List CommitPackEntry
  | .uncommitted _ | .doomed _ | .stagedAmong _ | .packsOf _ => List PackRow
  | .closure _ _ => List (Text × PackRow)
  | .holders _ _ | .live _ _ | .residue _ => List Fence
  | .successOf _ | .hasRecord _ | .borrowed _ => Bool
  | .borrowsOf _ => List BorrowRow
  | .rowed _ => List PackKey
  | .ledger _ => List Text
  | .epoch => ℤ

/-- Some drain record of the fence is recent, or a success. -/
def Snapshot.recorded (s : Snapshot) (f : Fence) (cutoff : ℤ) : Bool :=
  (recordRows s.rows).any fun r => r.fence == f && (decide (cutoff ≤ r.postedAt) || r.success)

/-- Some tree was put under the fence since the cutoff. -/
def Snapshot.written (s : Snapshot) (f : Fence) (cutoff : ℤ) : Bool :=
  s.ledger.any fun w => w.fence == f && decide (cutoff ≤ w.writtenAt)

/-- The fence's staged packs, all older than the cutoff. -/
def Snapshot.stale (s : Snapshot) (f : Fence) (cutoff : ℤ) : Bool :=
  (packRows s.rows).all fun p => p.fence != f || p.committed || decide (p.createdAt < cutoff)

def RecordRow.isResidue (r : RecordRow) (cutoff epoch : ℤ) : Bool :=
  decide (r.postedAt < cutoff) && (!r.success || decide (r.postedAt < epoch))

/-- A committed pack, or one of the caller's own. -/
def PackRow.countsFor (p : PackRow) (f : Fence) : Bool := p.committed || p.fence == f

def Query.eval : (q : Query) → Snapshot → q.Ans
  | .record f, s => (recordRows s.rows).find? fun r => r.fence == f
  | .member kind address, s =>
      (memberRows s.rows).find? fun m => m.address == address && m.kind == kind
  | .durable kind addresses caller, s =>
      addresses.filter fun a => (memberRows s.rows).any fun m =>
        m.address == a && m.kind == kind && (packRows s.rows).any fun p =>
          p.key == m.packKey && (p.committed || some p.fence == caller)
  | .staged f, s =>
      ((packRows s.rows).filter fun p => p.fence == f && p.kind == .body).map fun p =>
        ⟨p.key, p.bytes, ((memberRows s.rows).filter fun m => m.packKey == p.key).map fun m =>
          ⟨m.address, m.kind, m.byteOffset, m.byteLen⟩⟩
  | .uncommitted f, s => (packRows s.rows).filter fun p => p.fence == f && !p.committed
  | .closure addresses f, s =>
      (memberRows s.rows).flatMap fun m =>
        if m.address ∈ addresses then
          ((packRows s.rows).filter fun p => p.key == m.packKey && p.countsFor f).map
            fun p => (m.address, p)
        else []
  | .holders addresses f, s =>
      (((memberRows s.rows).filter fun m => m.address ∈ addresses).flatMap fun m =>
        ((packRows s.rows).filter fun p =>
          p.key == m.packKey && p.committed && p.fence != f).map PackRow.fence).dedup
  | .doomed cutoff, s =>
      (packRows s.rows).filter fun p => !p.committed && s.stale p.fence cutoff &&
        !s.written p.fence cutoff && !s.recorded p.fence cutoff
  | .stagedAmong keys, s => (packRows s.rows).filter fun p => !p.committed && p.key ∈ keys
  | .packsOf f, s => (packRows s.rows).filter fun p => p.fence == f
  | .successOf f, s => (recordRows s.rows).any fun r => r.fence == f && r.success
  | .hasRecord f, s => (recordRows s.rows).any fun r => r.fence == f
  | .borrowed f, s =>
      (borrowRows s.rows).any fun b => b.owner == f &&
        (recordRows s.rows).any fun r => r.fence == b.borrower
  | .borrowsOf f, s => (borrowRows s.rows).filter fun b => b.borrower == f
  | .rowed keys, s => keys.filter fun k => (packRows s.rows).any fun p => p.key == k
  | .live fences cutoff, s =>
      fences.filter fun f => s.written f cutoff || s.recorded f cutoff ||
        (packRows s.rows).any fun p => p.fence == f && decide (cutoff ≤ p.createdAt)
  | .residue cutoff, s =>
      ((recordRows s.rows).filter fun r => r.isResidue cutoff s.epoch).map RecordRow.fence
  | .ledger f, s => (s.ledger.filter fun w => w.fence == f).map LedgerRow.tree
  | .epoch, s => s.epoch

/-- One row's worth of a locking or writing statement. -/
inductive Stmt where
  /-- `FOR UPDATE` and `FOR SHARE`: lock the row and read it again. -/
  | lockPack (p : PackRow) (mode : LockMode)
  | setCommitted (p : PackRow)
  | insertPack (key : PackKey) (f : Fence) (kind : PackRowKind) (bytes : ℕ)
  | insertMember (m : MemberRow)
  | insertBorrow (b : BorrowRow)
  | upsertRecord (r : RecordRow)
  | deleteMembers (keys : List PackKey)
  | deletePack (p : PackRow)
  | deleteRecord (f : Fence)
  | deleteResidue (f : Fence) (cutoff epoch : ℤ)
  | deleteBorrow (b : BorrowRow)

@[reducible] def Stmt.Ans : Stmt → Type
  | .lockPack _ _ => Option PackRow
  | .insertBorrow _ => Bool
  | _ => Unit

/-- The row a snapshot found, as it stands now. -/
def currentPack (t : ℕ) (p : PackRow) (db : Db RowKey Row) : Option PackRow :=
  (packRows (db.view Row.key t)).find? fun q =>
    q.key == p.key && q.born == p.born && q.fence == p.fence

/-- `depot_pack_members.pack_key REFERENCES depot_packs`: a member row needs its pack row, and
locks one that is not the transaction's own against deletion. -/
def referencePack (t : ℕ) (k : PackKey) (db : Db RowKey Row) : Option (Db RowKey Row) :=
  if (packRows (db.view Row.key t)).any (fun p => p.key == k) then
    db.acquire t (.pack k) .keyShare
  else none

def deleteAll (t : ℕ) : List RowKey → Db RowKey Row → Option (Db RowKey Row)
  | [], db => some db
  | k :: ks, db => (db.delete Row.key t k).bind (deleteAll t ks)

/-- Run one row statement; `none` when it fails or would have to wait. -/
def Stmt.exec (now : ℤ) (t : ℕ) : (x : Stmt) → Db RowKey Row → Option (x.Ans × Db RowKey Row)
  | .lockPack p mode, db =>
      if (currentPack t p db).isSome then
        (db.acquire t (.pack p.key) mode).map fun db' => (currentPack t p db', db')
      else some (none, db)
  | .setCommitted p, db =>
      match currentPack t p db with
      | none => some ((), db)
      | some _ =>
          (db.acquire t (.pack p.key) .noKeyUpdate).map fun db' =>
            match currentPack t p db' with
            | some q =>
                if q.committed then ((), db')
                else ((), db'.write t (.pack q.key) (some (.pack { q with committed := true })))
            | none => ((), db')
  | .insertPack key f kind bytes, db =>
      (db.insertNew Row.key t (.pack ⟨key, f, kind, now, bytes, false, t⟩)).map
        fun r => ((), r.2)
  | .insertMember m, db =>
      match db.insertNew Row.key t (.member m) with
      | none => none
      | some (false, db') => some ((), db')
      | some (true, db') => (referencePack t m.packKey db').map fun db'' => ((), db'')
  | .insertBorrow b, db => db.insertNew Row.key t (.borrow b)
  | .upsertRecord r, db => (db.upsert Row.key t (.record r)).map fun db' => ((), db')
  | .deleteMembers keys, db =>
      (deleteAll t (((memberRows (db.view Row.key t)).filter fun m => m.packKey ∈ keys).map
        fun m => .member m.address m.packKey) db).map fun db' => ((), db')
  | .deletePack p, db =>
      match currentPack t p db with
      | none => some ((), db)
      | some _ =>
          -- No member row may go on referring to the pack.
          if (memberRows (db.view Row.key t)).any (fun m => m.packKey == p.key) then none
          else (db.delete Row.key t (.pack p.key)).map fun db' => ((), db')
  | .deleteRecord f, db => (db.delete Row.key t (.record f)).map fun db' => ((), db')
  | .deleteResidue f cutoff epoch, db =>
      match (recordRows (db.view Row.key t)).find? fun r => r.fence == f with
      | none => some ((), db)
      | some r =>
          if r.isResidue cutoff epoch then
            (db.delete Row.key t (.record f)).map fun db' => ((), db')
          else (db.acquire t (.record f) .update).map fun db' => ((), db')
  | .deleteBorrow b, db =>
      (db.delete Row.key t (.borrow b.borrower b.owner)).map fun db' => ((), db')

/-- A ranged read of a bucket object. -/
inductive Range where
  | found (bytes : Bytes)
  | notFound
  | failed

inductive Store where
  | appendLedger (f : Fence) (tree : Text)
  | sweepLedger (cutoff : ℤ)
  /-- Complete a pack's multipart upload. -/
  | finishPack (w : OpenPack)
  | uploadPart
  | putCommitPack (f : Fence) (bytes : Bytes)
  | listObjects
  | deleteObject (k : PackKey)
  | getRange (k : PackKey) (offset len : ℕ)
  | warmHas (replica : ℕ) (kind : PackMemberKind) (hex : Text)
  | warmGet (replica : ℕ) (kind : PackMemberKind) (hex : Text)
  | warmPut (replica : ℕ) (kind : PackMemberKind) (hex : Text) (bytes : Bytes)
  | warmEvict (replica : ℕ) (kind : PackMemberKind) (hex : Text)
  /-- The warm tier, then the loose object behind it. -/
  | tieredGet (replica : ℕ) (kind : PackMemberKind) (hex : Text)
  | openSession (replica : ℕ) (f : Fence)
  | findSession (replica : ℕ) (f : Fence)
  | sessionsOf (replica : ℕ)
  | lockSession (id : ℕ)
  /-- Store the session and let go of its lock. -/
  | saveSession (id : ℕ) (s : PackSession)
  | dropSession (replica : ℕ) (f : Fence)
  | restart (replica : ℕ)
  | loadPending (replica : ℕ)
  | savePending (replica : ℕ) (keys : List PackKey)

@[reducible] def Store.Ans : Store → Type
  | .appendLedger _ _ | .sweepLedger _ | .finishPack _ | .uploadPart | .putCommitPack _ _
  | .deleteObject _ | .warmHas _ _ _ => Bool
  | .listObjects => Option (List (PackKey × ℤ))
  | .getRange _ _ _ => Range
  | .warmGet _ _ _ | .tieredGet _ _ _ => Option Bytes
  | .openSession _ _ => ℕ
  | .findSession _ _ => Option ℕ
  | .sessionsOf _ => List ℕ
  | .lockSession _ => Option PackSession
  | .loadPending _ => List PackKey
  | .warmPut _ _ _ _ | .warmEvict _ _ _ | .saveSession _ _ | .dropSession _ _ | .restart _
  | .savePending _ _ => Unit

/-- The run row a victim's record is joined with. -/
structure RunRow where
  terminal : Bool
  updatedAt : ℤ
  pinnedAt : Option ℤ
  retentionProfile : Option Text
  deriving DecidableEq

/-- The environment's choices at one command: the clock, whether the call fails, whether it
takes effect although its reply is lost, and the run row of an expiry. -/
structure Answer where
  now : ℤ
  fails : Bool
  lost : Bool
  run : Option RunRow

variable (host : Host)

def World.getWarm (d : World) (replica : ℕ) (kind : PackMemberKind) (hex : Text) : Option Bytes :=
  (d.warm.find? fun w => w.1 == replica && w.2.1 == kind && w.2.2.1 == hex).map fun w => w.2.2.2

def World.putWarm (d : World) (replica : ℕ) (kind : PackMemberKind) (hex : Text) (bytes : Bytes) :
    World :=
  { d with warm := (replica, kind, hex, bytes) :: d.warm }

def World.getObject (d : World) (k : PackKey) : Option Object :=
  (d.bucket.find? fun o => o.1 == k).map Prod.snd

def World.putObject (d : World) (k : PackKey) (bytes : Bytes) (now : ℤ) : World :=
  { d with bucket := (k, ⟨bytes, now * 1000⟩) :: d.bucket.filter fun o => o.1 != k }

def World.sessionOf (d : World) (replica : ℕ) (f : Fence) : Option ℕ :=
  (d.packs.find? fun e => e.1 == replica && e.2.1 == f).map fun e => e.2.2

/-- A call that fails has no effect unless only its reply was lost. -/
def Answer.attempt (a : Answer) (d d' : World) : Bool × World :=
  if a.fails then (false, if a.lost then d' else d) else (true, d')

def Store.exec (a : Answer) : (x : Store) → World → x.Ans × World
  | .appendLedger f tree, d =>
      a.attempt d { d with
        ledger := ⟨f, tree, a.now⟩ :: d.ledger.filter fun w => !(w.fence == f && w.tree == tree) }
  | .sweepLedger cutoff, d =>
      a.attempt d { d with ledger := d.ledger.filter fun w => !decide (w.writtenAt < cutoff) }
  | .finishPack w, d => a.attempt d (d.putObject w.key (w.object host) a.now)
  | .uploadPart, d => (!a.fails, d)
  | .putCommitPack f bytes, d => a.attempt d (d.putObject (.commit f) bytes a.now)
  | .listObjects, d =>
      (if a.fails then none else some (d.bucket.map fun o => (o.1, o.2.modifiedMs)), d)
  | .deleteObject k, d => a.attempt d { d with bucket := d.bucket.filter fun o => o.1 != k }
  | .getRange k offset len, d =>
      (if len = 0 then .found []
        else if a.fails then .failed
        else match d.getObject k with
          | some o => .found ((o.bytes.drop offset).take len)
          | none => .notFound, d)
  | .warmHas replica kind hex, d => ((d.getWarm replica kind hex).isSome, d)
  | .warmGet replica kind hex, d => (d.getWarm replica kind hex, d)
  | .warmPut replica kind hex bytes, d => ((), d.putWarm replica kind hex bytes)
  | .warmEvict replica kind hex, d =>
      ((), { d with warm := d.warm.filter fun w =>
        !(w.1 == replica && w.2.1 == kind && w.2.2.1 == hex) })
  | .tieredGet replica kind hex, d =>
      match d.getWarm replica kind hex with
      | some bytes => (some bytes, d)
      | none =>
          match d.loose.find? fun o => o.1 == kind && o.2.1 == hex with
          | some o => (some o.2.2, d.putWarm replica kind hex o.2.2)
          | none => (none, d)
  | .openSession replica f, d =>
      match d.sessionOf replica f with
      | some id => (id, d)
      | none =>
          (d.nextSession,
            { d with
              sessions := Function.update d.sessions d.nextSession
                (some (.new f d.nextSession (a.now * 1000)))
              packs := (replica, f, d.nextSession) :: d.packs
              nextSession := d.nextSession + 1 })
  | .findSession replica f, d => (d.sessionOf replica f, d)
  | .sessionsOf replica, d => ((d.packs.filter fun e => e.1 == replica).map fun e => e.2.2, d)
  | .lockSession id, d =>
      if id ∈ d.held then (none, d)
      else match d.sessions id with
        | some s => (some s, { d with held := id :: d.held })
        | none => (none, d)
  | .saveSession id s, d =>
      ((), { d with sessions := Function.update d.sessions id (some s)
                    held := d.held.filter (· != id) })
  | .dropSession replica f, d =>
      ((), { d with packs := d.packs.filter fun e => !(e.1 == replica && e.2.1 == f) })
  | .restart replica, d =>
      ((), { d with packs := d.packs.filter fun e => e.1 != replica
                    pending := Function.update d.pending replica [] })
  | .loadPending replica, d => (d.pending replica, d)
  | .savePending replica keys, d =>
      ((), { d with pending := Function.update d.pending replica keys })

inductive Cmd where
  | clock
  | runRow
  | begin
  | ask (t : Option ℕ) (q : Query)
  | stmt (t : ℕ) (x : Stmt)
  | commit (t : ℕ)
  | rollback (t : ℕ)
  | store (x : Store)

/-- Postgres may fail any statement; the transaction is then over. -/
@[reducible] def Resp : Cmd → Type
  | .clock => ℤ
  | .runRow => Option RunRow
  | .begin => Option ℕ
  | .ask _ q => Option q.Ans
  | .stmt _ x => Option x.Ans
  | .commit _ => Option Unit
  | .rollback _ => Unit
  | .store x => x.Ans

def World.abort (d : World) (t : ℕ) : World := { d with db := d.db.close t }

/-- What a statement of a transaction, or one outside any, sees. -/
def World.snapshot (d : World) (t : Option ℕ) : Snapshot :=
  ⟨t.elim d.db.rows fun t => d.db.view Row.key t, d.ledger, d.epoch⟩

def respond : (c : Cmd) → Answer → World → Resp c × World
  | .clock, a, d => (a.now, d)
  | .runRow, a, d => (a.run, d)
  | .begin, a, d =>
      if a.fails then (none, d)
      else (some d.db.start.1, { d with db := d.db.start.2 })
  | .ask none q, a, d => (if a.fails then none else some (q.eval (d.snapshot none)), d)
  | .ask (some t) q, a, d =>
      if a.fails ∨ t ∉ d.db.opened then (none, d.abort t)
      else (some (q.eval (d.snapshot (some t))), d)
  | .stmt t x, a, d =>
      if a.fails ∨ t ∉ d.db.opened then (none, d.abort t)
      else match x.exec a.now t d.db with
        | some (r, db) => (some r, { d with db := db })
        | none => (none, d.abort t)
  | .commit t, a, d =>
      if t ∉ d.db.opened then (none, d)
      else if a.fails then (none, if a.lost then { d with db := d.db.commit Row.key t } else d.abort t)
      else (some (), { d with db := d.db.commit Row.key t })
  | .rollback t, _, d => ((), d.abort t)
  | .store x, a, d => x.exec host a d

end Scarab.Depot
