import Scarab.DepotPrograms

/-!
# The Depot's sweeps, and the Depot as one machine

The idle ticker, the residue sweep, the two reclaimers and committed expiry. With the
handlers they are the calls of one machine, on any number of replicas.
-/
namespace Scarab.Depot

open RowStore Interleave

/-- A token's longest lifetime and its grace. -/
def fenceResidueTtlSecs : ℤ := 24 * 60 * 60 + 600

def packReclaimStaleSecs : ℤ := 2 * fenceResidueTtlSecs

variable (host : Host)

/-- Seal one session's open pack if it has lingered; a session in use is skipped. -/
def sealIdle (cutoffMs : ℤ) (id : ℕ) : Eff Unit := do
  match ← store (.lockSession id) with
  | none => pure ()
  | some s =>
      if s.aborted || s.writer.isNone || decide (cutoffMs < s.lastTouchedMs) then
        store (.saveSession id s)
      else do
        let (_, s) ← sealOpen host s
        store (.saveSession id s)

def sealIdlePacksOnce (replica : ℕ) (lingerMs : ℤ) : Eff Unit := do
  let ids ← store (.sessionsOf replica)
  let nowSecs ← now
  Prog.forEach ids (sealIdle host (nowSecs * 1000 - lingerMs))

/-- Tombstone one abandoned session and take it out of the map. -/
def abortIfAbandoned (replica : ℕ) (cutoffMs : ℤ) (id : ℕ) : Eff Unit := do
  match ← store (.lockSession id) with
  | none => pure ()
  | some s =>
      if s.aborted || decide (cutoffMs ≤ s.lastTouchedMs) then store (.saveSession id s)
      else do
        store (.dropSession replica s.fence)
        store (.saveSession id { s with aborted := true, writer := none })

def abortAbandonedSessions (replica : ℕ) : Eff Unit := do
  let nowSecs ← now
  let ids ← store (.sessionsOf replica)
  Prog.forEach ids (abortIfAbandoned replica ((nowSecs - fenceResidueTtlSecs) * 1000))

/-- Delete the ledger rows and drain records that no live token can touch. -/
def sweepFenceResidue : Eff Unit := do
  let nowSecs ← now
  let cutoff := nowSecs - fenceResidueTtlSecs
  succeeded (← store (.sweepLedger cutoff))
  let epoch ← ask .epoch
  let t ← begin
  let fences ← askIn t (.residue cutoff)
  Prog.forEach fences fun f => stmt t (.deleteResidue f cutoff epoch)
  commit t

/-- Delete the staged rows of every fence that is stale and quiet; answers the keys deleted. -/
def reclaimStaleStagingOnce : Eff (List PackKey) := do
  let t ← begin
  let nowSecs ← now
  let rows ← askIn t (.doomed (nowSecs - packReclaimStaleSecs))
  let locked ← Prog.collect rows fun p => stmt t (.lockPack p .update)
  let doomed := ((locked.filterMap id).filter fun p => !p.committed).map PackRow.key
  if doomed = [] then do
    commit t
    pure []
  else do
    stmt t (.deleteMembers doomed)
    let staged ← askIn t (.stagedAmong doomed)
    Prog.forEach staged fun p => stmt t (.deletePack p)
    commit t
    pure (staged.map PackRow.key)

/-- A list in pieces of `n`. -/
def chunks {α : Type} (n : ℕ) (l : List α) : List (List α) :=
  (List.range ((l.length + n - 1) / n)).map fun i => (l.drop (i * n)).take n

/-- Delete the old pack objects that no row names, whose fence is quiet, and that this
replica's previous scan already saw rowless. -/
def reclaimOrphanPacksOnce (replica : ℕ) (skip : List PackKey) : Eff Unit := do
  let pending ← store (.loadPending replica)
  let listed ← orFail (← store .listObjects)
  let pgNow ← now
  let cutoff := pgNow - packReclaimStaleSecs
  let candidates := (listed.filter fun o => o.1 ∉ skip && decide (o.2 < cutoff * 1000)).map Prod.fst
  let rowed ← Prog.collect (chunks 500 candidates) fun keys => ask (.rowed keys)
  let rowless := candidates.filter fun k => k ∉ rowed.flatten
  let live ← Prog.collect (chunks 500 (rowless.map PackKey.fence).dedup)
    fun fences => ask (.live fences cutoff)
  let next ← Prog.foldEach rowless [] fun next k => do
    if k.fence ∈ live.flatten then pure next
    else if k ∉ pending then pure (k :: next)
    else if ← store (.deleteObject k) then pure next
    else pure (k :: next)
  store (.savePending replica next)

inductive Victim where
  | recorded (nowSecs : ℤ)
  | recordless
  deriving DecidableEq, Repr

def cutoffMs (nowSecs ttlSecs : ℤ) : ℤ := (nowSecs - ttlSecs) * 1000

/-- The victim's run is still terminal, past its profile's pack TTL and unpinned. -/
def RunRow.expired (ru : RunRow) (nowSecs : ℤ) (packTtlSecs : Option Text → ℤ) : Bool :=
  ru.terminal && decide (ru.updatedAt < cutoffMs nowSecs (packTtlSecs ru.retentionProfile)) &&
    ru.pinnedAt.isNone

/-- The candidate predicate, read again under the locks. -/
def stillAVictim (t : ℕ) (f : Fence) (locked : List PackRow) (packTtlSecs : Option Text → ℤ) :
    Victim → Eff Bool
  | .recorded nowSecs => do
      let success ← askIn t (.successOf f)
      let run ← .call .runRow .ok
      pure (success && run.any fun ru => ru.expired nowSecs packTtlSecs)
  | .recordless => do
      let epoch ← ask .epoch
      let hasRecord ← askIn t (.hasRecord f)
      pure (!hasRecord && !locked.isEmpty &&
        locked.all fun p => p.committed && decide (p.createdAt < epoch))

def expireOneFence (f : Fence) (victim : Victim) (packTtlSecs : Option Text → ℤ) : Eff Bool := do
  let t ← begin
  let rows ← askIn t (.packsOf f)
  let found ← Prog.collect rows fun p => stmt t (.lockPack p .update)
  let locked := found.filterMap id
  if ← stillAVictim t f locked packTtlSecs victim then
    if ← askIn t (.borrowed f) then do
      rollback t
      pure false
    else do
      stmt t (.deleteMembers (locked.map PackRow.key))
      let rows ← askIn t (.packsOf f)
      Prog.forEach rows fun p => stmt t (.deletePack p)
      stmt t (.deleteRecord f)
      let edges ← askIn t (.borrowsOf f)
      Prog.forEach edges fun b => stmt t (.deleteBorrow b)
      commit t
      pure true
  else do
    rollback t
    pure false

inductive Call where
  | putBlob (p : Put)
  | putTree (p : Put)
  | read (replica : ℕ) (kind : PackMemberKind) (hex : Text)
  | postDrain (replica : ℕ) (claim : Option Fence) (record : DrainRecord)
  | sealIdle (replica : ℕ) (lingerMs : ℤ)
  | abortAbandoned (replica : ℕ)
  | sweepResidue
  | reclaimStaging
  | scanOrphans (replica : ℕ) (skip : List PackKey)
  | expire (f : Fence) (victim : Victim) (packTtlSecs : Option Text → ℤ)
  /-- A replica restarts and loses its memory. -/
  | restart (replica : ℕ)
  /-- A connection drops and its transaction is rolled back. -/
  | disconnect (t : ℕ)
  /-- The warm tier evicts an object. -/
  | evict (replica : ℕ) (kind : PackMemberKind) (hex : Text)

inductive Value where
  | reply (r : Reply)
  | bytes (b : Bytes)
  | keys (ks : List PackKey)
  | verdict (b : Bool)
  | done
  deriving DecidableEq

def Call.body : Call → Eff Value
  | .putBlob p => Value.reply <$> Depot.putBlob host p
  | .putTree p => Value.reply <$> Depot.putTree host p
  | .read replica kind hex => Value.bytes <$> viaPackThenLoose host replica kind hex
  | .postDrain replica claim record => Value.reply <$> Depot.postDrain host replica claim record
  | .sealIdle replica lingerMs => (fun _ => .done) <$> sealIdlePacksOnce host replica lingerMs
  | .abortAbandoned replica => (fun _ => .done) <$> abortAbandonedSessions replica
  | .sweepResidue => (fun _ => .done) <$> sweepFenceResidue
  | .reclaimStaging => Value.keys <$> reclaimStaleStagingOnce
  | .scanOrphans replica skip => (fun _ => .done) <$> reclaimOrphanPacksOnce replica skip
  | .expire f victim ttl => Value.verdict <$> expireOneFence f victim ttl
  | .restart replica => (fun _ => .done) <$> store (.restart replica)
  | .disconnect t => (fun _ => .done) <$> rollback t
  | .evict replica kind hex => (fun _ => .done) <$> store (.warmEvict replica kind hex)

@[reducible] def depot : Machine where
  State := World
  Cmd := Cmd
  Resp := Resp
  Err := WsError
  Answer := Answer
  Call := Call
  Value := Value
  respond := respond host
  body := Call.body host

def emptyTree : Bytes := [0x5b, 0x5d]

def emptyTreeHex : Text :=
  addressText 0x4f53cda18c2baa0c0354bb5f9a3ecbe5ed12ab4d8e11ba873c2f11161202b945

/-- The digest of the empty tree is the real one; other digests only tell bytes apart. -/
def sampleHost : Host where
  hashHex b := if b = emptyTree then emptyTreeHex else 'x' :: b.map fun u => Char.ofNat u.toNat
  parseTree b := if b = emptyTree then some [] else none
  treeJson es := if es = [] then emptyTree else []
  footerJson _ := [1]
  commitJson _ _ _ _ := [2]

def fenceF : Fence := ⟨['f'], ['s'], ['1']⟩

/-- A PUT of the empty tree. -/
def putEmptyTree (f : Fence) (label : DurabilityLabel) : Put :=
  ⟨0, some f, some label, emptyTreeHex, emptyTree⟩

/-- Publishes the empty tree. -/
def emptyRecord : DrainRecord := ⟨emptyTreeHex, none, none, [], none⟩

def failedRecord : DrainRecord := ⟨emptyTreeHex, none, none, [], some ⟨.ingest, []⟩⟩

/-- Nothing fails, and the run behind an expiry ended long ago. -/
def calm : Answer := ⟨100, false, false, some ⟨true, 0, none, none⟩⟩

end Scarab.Depot
