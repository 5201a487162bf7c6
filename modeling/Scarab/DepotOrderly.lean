import Scarab.DepotRules

/-!
# The Depot's programs keep to their own transactions

Sealing and staging, the record transaction, the sweeps and expiry: each statement runs in a
transaction that its own call began.
-/
namespace Scarab.Depot

open RowStore Interleave

def Stmt.staging : Stmt → Bool
  | .insertPack _ _ _ _ | .insertMember _ => true
  | _ => false

/-- What filing and sealing packs takes: besides quiet commands, completed uploads, saved
sessions and transactions that only insert pack and member rows. -/
def Cmd.sealing : Cmd → Bool
  | .store (.finishPack _) | .store (.saveSession _ _) | .commit _ => true
  | .stmt _ x => x.staging
  | c => c.quiet

theorem Cmd.sealing_of_quiet {c : Cmd} (h : c.quiet = true) : c.sealing = true := by
  cases c with
  | store x => cases x <;> simp_all [sealing, quiet]
  | stmt t x => cases h
  | commit t => rfl
  | clock | runRow | begin | ask | rollback => exact h

section sealing

variable (host : Host) (replica : ℕ)

theorem insertOneBodyPack_issues (t : ℕ) (f : Fence) (pack : FinishedPack PackKey) :
    (insertOneBodyPack t f pack).Issues fun c => ∃ x, c = .stmt t x ∧ x.staging = true := by
  refine Prog.Issues.bind ((issues_stmt _).mpr ⟨_, rfl, rfl⟩) fun _ => ?_
  exact Prog.Issues.forEach fun m _ => (issues_stmt _).mpr ⟨_, rfl, rfl⟩

theorem stagePackRows_orderly (f : Fence) (pack : FinishedPack PackKey) :
    Orderly Cmd.sealing (stagePackRows f pack) := by
  refine .begin rfl fun t => Prog.Issues.bind ?_ fun _ => issues_commit.mpr ⟨rfl, .inr rfl⟩
  refine (insertOneBodyPack_issues t f pack).mono ?_
  rintro _ ⟨x, rfl, hx⟩
  exact ⟨hx, .inr rfl⟩

theorem sealOpen_orderly (s : PackSession) : Orderly Cmd.sealing (sealOpen host s) := by
  rw [sealOpen]
  split_ifs
  · exact .ok _
  · cases s.writer with
    | none => exact .ok _
    | some w =>
      refine .bind (.store rfl) fun done => ?_
      cases done with
      | false => exact .ok _
      | true =>
        refine .bind (stagePackRows_orderly _ _).attempt fun r => ?_
        cases r <;> exact .ok _

theorem append_orderly (s : PackSession) (kind : PackMemberKind) (tagged : Text) (data : Bytes) :
    Orderly Cmd.sealing (s.append host kind tagged data) := by
  rw [PackSession.append]
  by_cases ha : s.aborted = true
  · rw [if_pos ha]
    exact .ok _
  · rw [if_neg ha]
    refine .bind (.now rfl) fun nowSecs => ?_
    dsimp only
    by_cases hp : tagged ∈ s.packed
    · rw [if_pos hp]
      exact .ok _
    · rw [if_neg hp]
      -- The roll, or none, and then the member.
      split_ifs <;>
        refine .bind (by first | exact sealOpen_orderly host _ | exact .ok _) fun r => ?_
      all_goals
        obtain ⟨rolled, s'⟩ := r
        cases rolled with
        | error e => exact .ok _
        | ok _ =>
          refine .bind (.store rfl) fun filed => ?_
          cases filed with
          | false => exact .ok _
          | true =>
            first
              | exact sealOpen_orderly host _
              | exact .ok _

theorem packAppend_orderly (f : Fence) (kind : PackMemberKind) (hex : Text) (data : Bytes) :
    Orderly Cmd.sealing (packAppend host replica f kind hex data) := by
  refine .bind (.store rfl) fun id => ?_
  refine .bind (.store rfl) fun s => ?_
  refine .bind (.orFail _) fun s => ?_
  refine .bind (append_orderly host s kind _ data) fun r => ?_
  refine .bind (.store rfl) fun _ => ?_
  exact .orError _

theorem putBlob_orderly (p : Put) : Orderly Cmd.sealing (putBlob host p) := by
  refine .bind (.orBadRequest _) fun hash => ?_
  refine .bind (.orBadRequest _) fun durable => ?_
  dsimp only
  split_ifs
  · exact .err _
  · refine .bind (.store rfl) fun already => ?_
    refine .bind (.store rfl) fun _ => ?_
    split
    · exact .bind (packAppend_orderly host _ _ _ _ _) fun _ => .ok _
    · exact .ok _

theorem putTree_orderly (p : Put) : Orderly Cmd.sealing (putTree host p) := by
  refine .bind (.orBadRequest _) fun hash => ?_
  refine .bind (.orBadRequest _) fun durable => ?_
  dsimp only
  by_cases hhash : host.hashHex p.body ≠ hash
  · rw [if_pos hhash]
    exact .err _
  rw [if_neg hhash]
  refine .bind (.orBadRequest _) fun entries => ?_
  by_cases hcanon : canonicalTreeBytes host entries ≠ p.body
  · rw [if_pos hcanon]
    exact .err _
  rw [if_neg hcanon]
  refine .bind (.store rfl) fun already => ?_
  refine .bind (.store rfl) fun _ => ?_
  cases p.claim with
  | none => exact .ok _
  | some f =>
    refine .bind (.store rfl) fun done => ?_
    refine .bind (.succeeded _) fun _ => ?_
    cases durable with
    | true => exact .bind (packAppend_orderly host _ _ _ _ _) fun _ => .ok _
    | false => exact .ok _

theorem sealFencePacks_orderly (f : Fence) (root publishedRoot : Text) :
    Orderly Cmd.sealing (sealFencePacks host replica f root publishedRoot) := by
  refine .bind (.store rfl) fun found => ?_
  have hcommit : ∀ sealedPacks : List (FinishedPack PackKey), Orderly Cmd.sealing (do
      let staged ← ask (.staged f)
      let packs := staged ++ (sealedPacks.filter fun p => !staged.any fun e => e.key == p.key).map
        fun p => ⟨p.key, p.bytes, p.members⟩
      if packs = [] then pure (sealedPacks, none)
      else do
        let bytes := host.commitJson f (taggedAddress root) (taggedAddress publishedRoot) packs
        succeeded (← store (.putCommitPack f bytes))
        pure (sealedPacks, some bytes.length)) := by
    intro sealedPacks
    refine .bind (.ask rfl) fun staged => ?_
    dsimp only
    split_ifs
    · exact .ok _
    · refine .bind (.store rfl) fun done => ?_
      exact .bind (.succeeded _) fun _ => .ok _
  cases found with
  | none => exact hcommit []
  | some id =>
    refine .bind (.store rfl) fun s => ?_
    refine .bind (.orFail _) fun s => ?_
    refine .bind (sealOpen_orderly host s) fun r => ?_
    refine .bind (.store rfl) fun _ => ?_
    exact .bind (.orError _) fun _ => hcommit _

theorem sealIdlePacksOnce_orderly (lingerMs : ℤ) :
    Orderly Cmd.sealing (sealIdlePacksOnce host replica lingerMs) := by
  refine .bind (.store rfl) fun ids => ?_
  refine .bind (.now rfl) fun nowSecs => ?_
  refine .forEach fun id _ => ?_
  refine .bind (.store rfl) fun s => ?_
  cases s with
  | none => exact .ok _
  | some s =>
    dsimp only
    split_ifs
    · exact .store rfl
    · exact .bind (sealOpen_orderly host s) fun r => .store rfl

theorem abortAbandonedSessions_orderly : Orderly Cmd.sealing (abortAbandonedSessions replica) := by
  refine .bind (.now rfl) fun nowSecs => ?_
  refine .bind (.store rfl) fun ids => ?_
  refine .forEach fun id _ => ?_
  refine .bind (.store rfl) fun s => ?_
  cases s with
  | none => exact .ok _
  | some s =>
    dsimp only
    split_ifs
    · exact .store rfl
    · exact .bind (.store rfl) fun _ => .store rfl

end sealing

/-- The row statements of a record transaction, besides staging. -/
def Stmt.recording (f : Fence) : Stmt → Bool
  | .setCommitted _ | .lockPack _ .share => true
  | .insertBorrow b => b.borrower = f
  | .upsertRecord r => r.fence = f
  | x => x.staging

/-- The row statements of a reclaim. -/
def Stmt.reclaiming : Stmt → Bool
  | .lockPack _ .update | .deleteMembers _ | .deletePack _ => true
  | _ => false

/-- The row statements of an expiry. -/
def Stmt.expiring (f : Fence) : Stmt → Bool
  | .lockPack _ .update | .deleteMembers _ | .deletePack _ | .deleteBorrow _ => true
  | .deleteRecord f' => f' = f
  | _ => false

/-- The queries of a record transaction, a reclaim and an expiry. -/
def Query.recording : Query → Bool
  | .uncommitted _ | .closure _ _ | .holders _ _ => true
  | _ => false

def Query.reclaiming : Query → Bool
  | .doomed _ | .stagedAmong _ => true
  | _ => false

def Query.expiring (f : Fence) : Query → Bool
  | .packsOf f' | .successOf f' | .hasRecord f' | .borrowed f' | .borrowsOf f' => f' = f
  | _ => false

/-- Quiet commands, and a transaction of these queries and statements. -/
def Cmd.within (q : Query → Bool) (s : Stmt → Bool) : Cmd → Bool
  | .ask (some _) x => q x
  | .stmt _ x => s x
  | .commit _ => true
  | c => c.quiet

/-- The commands a call may issue. -/
def Call.issues : Call → Cmd → Bool
  | .putBlob _ | .putTree _ | .sealIdle _ _ | .abortAbandoned _ => Cmd.sealing
  | .postDrain _ claim _ => fun c => c.sealing ||
      claim.any fun f => c.within Query.recording (Stmt.recording f)
  | .sweepResidue => Cmd.within (fun | .residue _ => true | _ => false)
      (fun | .deleteResidue _ _ _ => true | _ => false)
  | .reclaimStaging => Cmd.within Query.reclaiming Stmt.reclaiming
  | .scanOrphans _ _ => fun | .store (.deleteObject _) => true | c => c.quiet
  | .expire f _ _ => Cmd.within (Query.expiring f) (Stmt.expiring f)
  | _ => Cmd.quiet

theorem Cmd.within_of_quiet {q : Query → Bool} {s : Stmt → Bool} {c : Cmd} (hc : c.quiet = true) :
    c.within q s = true := by
  cases c with
  | ask t x =>
    cases t with
    | some t => cases hc
    | none => exact hc
  | stmt t x => cases hc
  | commit t => rfl
  | clock | runRow | begin | rollback | store => exact hc

theorem Call.issues_of_quiet (l : Call) {c : Cmd} (hc : c.quiet = true) : l.issues c = true := by
  have hs := Cmd.sealing_of_quiet hc
  cases l with
  | putBlob | putTree | sealIdle | abortAbandoned => exact hs
  | postDrain => simp [issues, hs]
  | sweepResidue | reclaimStaging | expire => exact Cmd.within_of_quiet hc
  | scanOrphans =>
    simp only [issues]
    split
    · rfl
    · exact hc
  | read | restart | disconnect | evict => exact hc

/-- A program of commands in `K` whose statements all run in transaction `t`. -/
abbrev InTx {α : Type} (K : Cmd → Bool) (t : ℕ) (p : Eff α) : Prop :=
  p.Issues fun c => K c = true ∧ (c.tx = none ∨ c.tx = some t)

section intx

variable {t : ℕ} {K : Cmd → Bool}

theorem InTx.stmt {x : Stmt} (hK : K (.stmt t x) = true) : InTx K t (stmt t x) :=
  (issues_stmt x).mpr ⟨hK, .inr rfl⟩

theorem InTx.askIn {q : Query} (hK : K (.ask (some t) q) = true) : InTx K t (askIn t q) :=
  (issues_askIn q).mpr ⟨hK, .inr rfl⟩

theorem InTx.commit (hK : K (.commit t) = true) : InTx K t (commit t) :=
  issues_commit.mpr ⟨hK, .inr rfl⟩

theorem InTx.rollback (hK : K (.rollback t) = true) : InTx K t (rollback t) :=
  issues_rollback.mpr ⟨hK, .inl rfl⟩

theorem insertPackRows_issues (f : Fence) (sealedPacks : List (FinishedPack PackKey))
    (commitPack : Option ℕ) : (insertPackRows t f sealedPacks commitPack).Issues fun c =>
      c = .ask (some t) (.uncommitted f) ∨
        ∃ x, c = .stmt t x ∧ (x.staging = true ∨ ∃ p, x = .setCommitted p) := by
  have hrows : Prog.Issues (fun c => c = .ask (some t) (.uncommitted f) ∨
        ∃ x, c = .stmt t x ∧ (x.staging = true ∨ ∃ p, x = .setCommitted p)) (do
      let rows ← askIn t (.uncommitted f)
      Prog.forEach rows fun p => stmt t (.setCommitted p) : Eff Unit) := by
    refine Prog.Issues.bind ((issues_askIn _).mpr (.inl rfl)) fun rows => ?_
    exact Prog.Issues.forEach fun p _ => (issues_stmt _).mpr (.inr ⟨_, rfl, .inr ⟨p, rfl⟩⟩)
  refine Prog.Issues.bind (Prog.Issues.forEach fun pack _ => ?_) fun _ => ?_
  · refine (insertOneBodyPack_issues t f pack).mono ?_
    rintro c ⟨x, hc, hx⟩
    exact .inr ⟨x, hc, .inl hx⟩
  · cases commitPack with
    | none => exact hrows
    | some bytes =>
      refine Prog.Issues.bind ((issues_stmt _).mpr (.inr ⟨_, rfl, .inl rfl⟩)) fun _ => hrows

theorem recheckClosurePresent_issues (tagged : List Text) (f : Fence) :
    (recheckClosurePresent t tagged f).Issues fun c =>
      c = .ask (some t) (.closure tagged f) ∨ ∃ p, c = .stmt t (.lockPack p .share) := by
  rw [recheckClosurePresent]
  split_ifs
  · trivial
  · refine Prog.Issues.bind ((issues_askIn _).mpr (.inl rfl)) fun rows => ?_
    refine Prog.Issues.bind (Prog.Issues.collect fun row _ => ?_) fun found => trivial
    exact Prog.Issues.bind ((issues_stmt _).mpr (.inr ⟨_, rfl⟩)) fun _ => trivial

theorem recordBorrowEdges_issues (f : Fence) (tagged : List Text) (stamp : ℤ) :
    (recordBorrowEdges t f tagged stamp).Issues fun c =>
      c = .ask (some t) (.holders tagged f) ∨
        ∃ b : BorrowRow, c = .stmt t (.insertBorrow b) ∧ b.borrower = f := by
  rw [recordBorrowEdges]
  split_ifs
  · trivial
  · refine Prog.Issues.bind ((issues_askIn _).mpr (.inl rfl)) fun owners => ?_
    refine Prog.Issues.forEach fun owner _ => ?_
    exact Prog.Issues.bind ((issues_stmt _).mpr (.inr ⟨_, rfl, rfl⟩)) fun _ => trivial

theorem stillAVictim_issues (f : Fence) (locked : List PackRow) (packTtlSecs : Option Text → ℤ)
    (victim : Victim) : (stillAVictim t f locked packTtlSecs victim).Issues fun c =>
      c.quiet = true ∨ c = .ask (some t) (.successOf f) ∨ c = .ask (some t) (.hasRecord f) := by
  cases victim with
  | recorded nowSecs =>
    refine Prog.Issues.bind ((issues_askIn _).mpr (.inr (.inl rfl))) fun success => ?_
    exact Prog.Issues.bind ⟨.inl rfl, fun _ => trivial⟩ fun run => trivial
  | recordless =>
    refine Prog.Issues.bind ((issues_ask _).mpr (.inl rfl)) fun epoch => ?_
    exact Prog.Issues.bind ((issues_askIn _).mpr (.inr (.inr rfl))) fun recorded => trivial

end intx

section calls

variable (host : Host) (replica : ℕ) (f : Fence)

theorem recordSuccess_orderly (record : DrainRecord) (closure : Closure)
    (sealedPacks : List (FinishedPack PackKey)) (commitPack : Option ℕ) :
    Orderly (Cmd.within Query.recording (Stmt.recording f))
      (recordSuccess replica f record closure sealedPacks commitPack) := by
  refine .bind (.now rfl) fun postedAt => .bind (.now rfl) fun stamp => .begin rfl fun t => ?_
  refine Prog.Issues.bind ((insertPackRows_issues f sealedPacks commitPack).mono ?_) fun _ => ?_
  · rintro c (rfl | ⟨x, rfl, hx | ⟨p, rfl⟩⟩)
    · exact ⟨rfl, .inr rfl⟩
    · exact ⟨by cases x <;> simp_all [Cmd.within, Stmt.recording, Stmt.staging], .inr rfl⟩
    · exact ⟨rfl, .inr rfl⟩
  refine Prog.Issues.bind ((recheckClosurePresent_issues _ f).mono ?_) fun present => ?_
  · rintro c (rfl | ⟨p, rfl⟩) <;> exact ⟨rfl, .inr rfl⟩
  cases closure.members.find? fun m => decide (taggedAddress m.2 ∉ present) with
  | some m => exact Prog.Issues.bind (InTx.rollback rfl) fun _ => trivial
  | none =>
    refine Prog.Issues.bind ((recordBorrowEdges_issues f _ stamp).mono ?_) fun _ => ?_
    · rintro c (rfl | ⟨b, rfl, hb⟩)
      · exact ⟨rfl, .inr rfl⟩
      · exact ⟨by simp [Cmd.within, Stmt.recording, hb], .inr rfl⟩
    refine Prog.Issues.bind (InTx.stmt (by simp [Cmd.within, Stmt.recording])) fun _ => ?_
    refine Prog.Issues.bind (InTx.commit rfl) fun _ => ?_
    exact Prog.Issues.bind ((issues_store _).mpr ⟨rfl, .inl rfl⟩) fun _ => trivial

theorem postDrain_orderly (claim : Option Fence) (record : DrainRecord) :
    Orderly (Call.postDrain replica claim record).issues
      (postDrain host replica claim record) := by
  cases claim with
  | none => exact .err _
  | some f =>
    have hquiet : ∀ c : Cmd, c.quiet = true →
        (Call.postDrain replica (some f) record).issues c = true :=
      fun c hc => Call.issues_of_quiet _ hc
    have hwithin : ∀ c : Cmd, c.within Query.recording (Stmt.recording f) = true →
        (Call.postDrain replica (some f) record).issues c = true := by
      intro c hc
      simp [Call.issues, hc]
    refine .bind (.ask (hquiet _ rfl)) fun existing => ?_
    split_ifs
    · exact .ok _
    · refine .mono (K := Cmd.within Query.recording (Stmt.recording f)) ?_ hwithin
      refine .bind (.now rfl) fun postedAt => .begin rfl fun t => ?_
      refine Prog.Issues.bind (InTx.stmt (by simp [Cmd.within, Stmt.recording])) fun _ => ?_
      exact Prog.Issues.bind (InTx.commit rfl) fun _ => trivial
    · refine .bind ((validateRecord_quiet host replica f record).orderly hquiet) fun r => ?_
      cases r with
      | error why => exact .ok _
      | ok r =>
        have hseal := sealFencePacks_orderly host replica f r.1.root r.1.effective
        refine .bind (hseal.mono fun c hc => by simp [Call.issues, hc]) fun packs => ?_
        refine .bind ((lostMembers_quiet f _ _ _).orderly hquiet) fun lostTrees => ?_
        refine .bind ((lostMembers_quiet f _ _ _).orderly hquiet) fun lostBlobs => ?_
        split_ifs
        · exact .ok _
        · exact (recordSuccess_orderly replica f _ _ _ _).mono hwithin

theorem expireOneFence_orderly (victim : Victim) (packTtlSecs : Option Text → ℤ) :
    Orderly (Call.expire f victim packTtlSecs).issues (expireOneFence f victim packTtlSecs) := by
  have hask : ∀ t q, q.expiring f = true →
      (Call.expire f victim packTtlSecs).issues (.ask (some t) q) = true := fun _ _ hq => hq
  refine .begin rfl fun t => ?_
  refine Prog.Issues.bind (InTx.askIn (hask _ _ (by simp [Query.expiring]))) fun rows => ?_
  refine Prog.Issues.bind (Prog.Issues.collect fun p _ => InTx.stmt rfl) fun found => ?_
  refine Prog.Issues.bind ((stillAVictim_issues f _ packTtlSecs victim).mono ?_) fun still => ?_
  · rintro c (hc | rfl | rfl)
    · exact ⟨Call.issues_of_quiet _ hc, .inl (Cmd.tx_of_quiet hc)⟩
    · exact ⟨hask _ _ (by simp [Query.expiring]), .inr rfl⟩
    · exact ⟨hask _ _ (by simp [Query.expiring]), .inr rfl⟩
  cases still with
  | false => exact Prog.Issues.bind (InTx.rollback rfl) fun _ => trivial
  | true =>
    refine Prog.Issues.bind (InTx.askIn (hask _ _ (by simp [Query.expiring]))) fun borrowed => ?_
    cases borrowed with
    | true => exact Prog.Issues.bind (InTx.rollback rfl) fun _ => trivial
    | false =>
      refine Prog.Issues.bind (InTx.stmt rfl) fun _ => ?_
      refine Prog.Issues.bind (InTx.askIn (hask _ _ (by simp [Query.expiring]))) fun rows => ?_
      refine Prog.Issues.bind (Prog.Issues.forEach fun p _ => InTx.stmt rfl) fun _ => ?_
      refine Prog.Issues.bind
        (InTx.stmt (by simp [Call.issues, Cmd.within, Stmt.expiring])) fun _ => ?_
      refine Prog.Issues.bind (InTx.askIn (hask _ _ (by simp [Query.expiring]))) fun edges => ?_
      refine Prog.Issues.bind (Prog.Issues.forEach fun b _ => InTx.stmt rfl) fun _ => ?_
      exact Prog.Issues.bind (InTx.commit rfl) fun _ => trivial

theorem reclaimStaleStagingOnce_orderly :
    Orderly Call.reclaimStaging.issues reclaimStaleStagingOnce := by
  refine .begin rfl fun t => ?_
  refine Prog.Issues.bind (issues_now.mpr ⟨rfl, .inl rfl⟩) fun nowSecs => ?_
  refine Prog.Issues.bind (InTx.askIn rfl) fun rows => ?_
  refine Prog.Issues.bind (Prog.Issues.collect fun p _ => InTx.stmt rfl) fun locked => ?_
  dsimp only
  split_ifs
  · exact Prog.Issues.bind (InTx.commit rfl) fun _ => trivial
  · refine Prog.Issues.bind (InTx.stmt rfl) fun _ => ?_
    refine Prog.Issues.bind (InTx.askIn rfl) fun staged => ?_
    refine Prog.Issues.bind (Prog.Issues.forEach fun p _ => InTx.stmt rfl) fun _ => ?_
    exact Prog.Issues.bind (InTx.commit rfl) fun _ => trivial

theorem sweepFenceResidue_orderly : Orderly Call.sweepResidue.issues sweepFenceResidue := by
  refine .bind (.now rfl) fun nowSecs => ?_
  refine .bind (.store rfl) fun swept => ?_
  refine .bind (.succeeded _) fun _ => ?_
  refine .bind (.ask rfl) fun epoch => ?_
  refine .begin rfl fun t => ?_
  refine Prog.Issues.bind (InTx.askIn rfl) fun fences => ?_
  refine Prog.Issues.bind (Prog.Issues.forEach fun f _ => InTx.stmt rfl) fun _ => ?_
  exact InTx.commit rfl

theorem reclaimOrphanPacksOnce_orderly (skip : List PackKey) :
    Orderly (Call.scanOrphans replica skip).issues (reclaimOrphanPacksOnce replica skip) := by
  refine .bind (.store rfl) fun pending => ?_
  refine .bind (.store rfl) fun listed => ?_
  refine .bind (.orFail _) fun listed => ?_
  refine .bind (.now rfl) fun pgNow => ?_
  refine .bind (.outside (Prog.Issues.collect fun keys _ => (issues_ask _).mpr ⟨rfl, rfl⟩))
    fun rowed => ?_
  refine .bind (.outside (Prog.Issues.collect fun fences _ => (issues_ask _).mpr ⟨rfl, rfl⟩))
    fun live => ?_
  refine .bind (.outside (Prog.Issues.foldEach fun next k _ => ?_)) fun next => .store rfl
  split_ifs
  · trivial
  · exact Prog.Issues.bind ((issues_store _).mpr ⟨rfl, rfl⟩) fun gone => by cases gone <;> trivial
  · trivial

/-- Every call keeps to its own commands, in transactions it began itself. -/
theorem body_orderly (l : Call) : Orderly l.issues (l.body host) := by
  cases l with
  | putBlob p => exact .bind (putBlob_orderly host p) fun _ => .ok _
  | putTree p => exact .bind (putTree_orderly host p) fun _ => .ok _
  | read replica kind hex =>
    exact .bind ((viaPackThenLoose_quiet host replica kind hex).orderly fun _ hc => hc) fun _ => .ok _
  | postDrain replica claim record =>
    exact .bind (postDrain_orderly host replica claim record) fun _ => .ok _
  | sealIdle replica lingerMs =>
    exact .bind (sealIdlePacksOnce_orderly host replica lingerMs) fun _ => .ok _
  | abortAbandoned replica => exact .bind (abortAbandonedSessions_orderly replica) fun _ => .ok _
  | sweepResidue => exact .bind sweepFenceResidue_orderly fun _ => .ok _
  | reclaimStaging => exact .bind reclaimStaleStagingOnce_orderly fun _ => .ok _
  | scanOrphans replica skip =>
    exact .bind (reclaimOrphanPacksOnce_orderly replica skip) fun _ => .ok _
  | expire f victim ttl => exact .bind (expireOneFence_orderly f victim ttl) fun _ => .ok _
  | restart replica => exact .bind (.store rfl) fun _ => .ok _
  | disconnect t => exact .bind (.outside (issues_rollback.mpr ⟨rfl, rfl⟩)) fun _ => .ok _
  | evict replica kind hex => exact .bind (.store rfl) fun _ => .ok _

end calls

end Scarab.Depot
