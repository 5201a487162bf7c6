import Scarab.DepotOrderly

/-!
# What one command does to the Depot's tables

Every step of a run either leaves the tables alone, begins a transaction, runs a row
statement inside one, or ends one. Committed rows change at a commit only.
-/
namespace Scarab.Depot

open RowStore Interleave

section statements

variable {db db' : Db RowKey Row} {t : ℕ} {now : ℤ} {p q : PackRow}

theorem currentPack_eq_some (h : currentPack t p db = some q) :
    Row.pack q ∈ db.view Row.key t ∧ q.key = p.key ∧ q.born = p.born ∧ q.fence = p.fence := by
  have hmem := List.mem_of_find?_eq_some h
  have htest := List.find?_some h
  simp only [Bool.and_eq_true, beq_iff_eq] at htest
  exact ⟨mem_packRows.mp hmem, htest.1.1, htest.1.2, htest.2⟩

/-- The rows a statement may lock. -/
def Stmt.Locks : Stmt → RowKey → LockMode → Prop
  | .lockPack p mode, k, m => k = .pack p.key ∧ m = mode
  | .setCommitted p, k, m => k = .pack p.key ∧ m = .noKeyUpdate
  | .insertPack key _ _ _, k, m => k = .pack key ∧ m = .update
  | .insertMember x, k, m =>
      k = .member x.address x.packKey ∧ m = .update ∨ k = .pack x.packKey ∧ m = .keyShare
  | .insertBorrow b, k, m => k = .borrow b.borrower b.owner ∧ m = .update
  | .upsertRecord r, k, m => k = .record r.fence ∧ m = .update
  | .deleteMembers keys, k, m => ∃ a, ∃ key ∈ keys, k = .member a key ∧ m = .update
  | .deletePack p, k, m => k = .pack p.key ∧ m = .update
  | .deleteRecord f, k, m => k = .record f ∧ m = .update
  | .deleteResidue f _ _, k, m => k = .record f ∧ m = .update
  | .deleteBorrow b, k, m => k = .borrow b.borrower b.owner ∧ m = .update

/-- The versions a statement may write, on the tables it ran on. -/
def Stmt.Writes (t : ℕ) (db : Db RowKey Row) : Stmt → RowKey → Option Row → Prop
  | .lockPack _ _, _, _ => False
  | .setCommitted p, k, v => ∃ q, Row.pack q ∈ db.view Row.key t ∧ q.key = p.key ∧
      q.born = p.born ∧ k = .pack p.key ∧ v = some (.pack { q with committed := true })
  | .insertPack key f kind bytes, k, v => (∀ r ∈ db.view Row.key t, r.key ≠ .pack key) ∧
      k = .pack key ∧ ∃ now, v = some (.pack ⟨key, f, kind, now, bytes, false, t⟩)
  | .insertMember m, k, v => k = .member m.address m.packKey ∧ v = some (.member m)
  | .insertBorrow b, k, v => k = .borrow b.borrower b.owner ∧ v = some (.borrow b)
  | .upsertRecord r, k, v => k = .record r.fence ∧ v = some (.record r)
  | .deleteMembers keys, k, v => ∃ a, ∃ key ∈ keys, k = .member a key ∧ v = none
  | .deletePack p, k, v => k = .pack p.key ∧ v = none ∧
      ∀ m, Row.member m ∈ db.view Row.key t → m.packKey ≠ p.key
  | .deleteRecord f, k, v => k = .record f ∧ v = none
  | .deleteResidue f cutoff epoch, k, v => k = .record f ∧ v = none ∧
      ∃ r, Row.record r ∈ db.view Row.key t ∧ r.fence = f ∧ r.isResidue cutoff epoch = true
  | .deleteBorrow b, k, v => k = .borrow b.borrower b.owner ∧ v = none

theorem deleteAll_grown {keys : List RowKey} {L : RowKey → LockMode → Prop}
    {W : RowKey → Option Row → Prop} (h : deleteAll t keys db = some db')
    (hL : ∀ k ∈ keys, L k .update) (hW : ∀ k ∈ keys, W k none) :
    Db.Grown Row.key t L W db db' := by
  induction keys generalizing db with
  | nil =>
    obtain rfl := Option.some.inj h
    exact .refl
  | cons k ks ih =>
    obtain ⟨db₁, hd, hrest⟩ := Option.bind_eq_some_iff.mp h
    refine (Db.Grown.delete hd (hL k List.mem_cons_self) (hW k List.mem_cons_self)).trans ?_
    exact ih hrest (fun k' hk' => hL k' (List.mem_cons_of_mem _ hk'))
      fun k' hk' => hW k' (List.mem_cons_of_mem _ hk')

theorem not_mem_view_of_insertNew {r : Row} (h : db.insertNew Row.key t r = some (true, db')) :
    ∀ r' ∈ db.view Row.key t, r'.key ≠ r.key := by
  intro r' hr' hkey
  have hany : (db.view Row.key t).any (fun r' => Row.key r' == Row.key r) = true :=
    Db.any_view_key.mpr ⟨r', hr', hkey⟩
  rw [Db.insertNew, if_pos hany] at h
  split_ifs at h
  simp at h

/-- A statement that gets a row lock, in the mode it asks for, and writes nothing. -/
theorem Stmt.lockPack_grown {mode : LockMode} {a : (Stmt.lockPack p mode).Ans}
    (h : (Stmt.lockPack p mode).exec now t db = some (a, db')) :
    Db.Grown Row.key t (Stmt.lockPack p mode).Locks ((Stmt.lockPack p mode).Writes t db) db db' := by
  simp only [exec] at h
  split_ifs at h
  · obtain ⟨db₁, ha, heq⟩ := Option.map_eq_some_iff.mp h
    obtain ⟨-, rfl⟩ := Prod.mk.inj heq
    exact .acquire ha ⟨rfl, rfl⟩
  · obtain ⟨-, rfl⟩ := Prod.mk.inj (Option.some.inj h)
    exact .refl

/-- The row is locked, read again under the lock and written if it is still uncommitted. -/
theorem Stmt.setCommitted_grown {a : (Stmt.setCommitted p).Ans}
    (h : (Stmt.setCommitted p).exec now t db = some (a, db')) :
    Db.Grown Row.key t (Stmt.setCommitted p).Locks ((Stmt.setCommitted p).Writes t db) db db' := by
  simp only [exec] at h
  cases hc : currentPack t p db with
  | none =>
    simp only [hc] at h
    obtain ⟨-, rfl⟩ := Prod.mk.inj (Option.some.inj h)
    exact .refl
  | some q₀ =>
    simp only [hc] at h
    obtain ⟨db₁, ha, heq⟩ := Option.map_eq_some_iff.mp h
    have hlock : Db.Grown Row.key t (Stmt.setCommitted p).Locks
        ((Stmt.setCommitted p).Writes t db) db db₁ := .acquire ha ⟨rfl, rfl⟩
    obtain ⟨-, -, hdb₁⟩ := Db.acquire_eq_some.mp ha
    have hview : db₁.view Row.key t = db.view Row.key t := by rw [hdb₁]; rfl
    cases hq : currentPack t p db₁ with
    | none =>
      simp only [hq] at heq
      obtain ⟨-, rfl⟩ := Prod.mk.inj heq
      exact hlock
    | some q =>
      simp only [hq] at heq
      obtain ⟨hmem, hkey, hborn, -⟩ := currentPack_eq_some hq
      rw [hview] at hmem
      split_ifs at heq
      · obtain ⟨-, rfl⟩ := Prod.mk.inj heq
        exact hlock
      · obtain ⟨-, rfl⟩ := Prod.mk.inj heq
        refine hlock.trans (.write ⟨q, hmem, hkey, hborn, by rw [hkey], rfl⟩ ?_ ?_)
        · exact ⟨_, by rw [hdb₁]; exact List.mem_cons_self, rfl, by rw [hkey], .inr ⟨rfl, rfl⟩⟩
        · rintro _ ⟨⟩
          rfl

theorem Stmt.insertPack_grown {key : PackKey} {f : Fence} {kind : PackRowKind} {bytes : ℕ}
    {a : (Stmt.insertPack key f kind bytes).Ans}
    (h : (Stmt.insertPack key f kind bytes).exec now t db = some (a, db')) :
    Db.Grown Row.key t (Stmt.insertPack key f kind bytes).Locks
      ((Stmt.insertPack key f kind bytes).Writes t db) db db' := by
  simp only [exec] at h
  obtain ⟨⟨b, db₁⟩, hi, heq⟩ := Option.map_eq_some_iff.mp h
  obtain ⟨-, rfl⟩ := Prod.mk.inj heq
  cases b with
  | false =>
    unfold Db.insertNew at hi
    split_ifs at hi
    · obtain ⟨-, rfl⟩ := Prod.mk.inj (Option.some.inj hi)
      exact .refl
    · simp at hi
  | true =>
    exact .insertNew hi ⟨rfl, rfl⟩ ⟨not_mem_view_of_insertNew hi, rfl, now, rfl⟩

/-- A new member row also holds the pack it names, as its foreign key does. -/
theorem Stmt.insertMember_grown {m : MemberRow} {a : (Stmt.insertMember m).Ans}
    (h : (Stmt.insertMember m).exec now t db = some (a, db')) :
    Db.Grown Row.key t (Stmt.insertMember m).Locks ((Stmt.insertMember m).Writes t db) db db' := by
  simp only [exec] at h
  cases hi : db.insertNew Row.key t (.member m) with
  | none => simp [hi] at h
  | some r =>
    obtain ⟨b, db₁⟩ := r
    have hgrown : Db.Grown Row.key t (Stmt.insertMember m).Locks
        ((Stmt.insertMember m).Writes t db) db db₁ :=
      .insertNew hi (.inl ⟨rfl, rfl⟩) ⟨rfl, rfl⟩
    rw [hi] at h
    cases b with
    | false =>
      obtain ⟨-, rfl⟩ := Prod.mk.inj (Option.some.inj h)
      exact hgrown
    | true =>
      obtain ⟨db₂, hr, heq⟩ := Option.map_eq_some_iff.mp h
      obtain ⟨-, rfl⟩ := Prod.mk.inj heq
      unfold referencePack at hr
      split_ifs at hr
      exact hgrown.trans (.acquire hr (.inr ⟨rfl, rfl⟩))

theorem Stmt.deleteMembers_grown {keys : List PackKey} {a : (Stmt.deleteMembers keys).Ans}
    (h : (Stmt.deleteMembers keys).exec now t db = some (a, db')) :
    Db.Grown Row.key t (Stmt.deleteMembers keys).Locks ((Stmt.deleteMembers keys).Writes t db)
      db db' := by
  obtain ⟨db₁, hd, heq⟩ := Option.map_eq_some_iff.mp h
  obtain ⟨-, rfl⟩ := Prod.mk.inj heq
  refine deleteAll_grown hd ?_ ?_ <;>
  · intro k hk
    simp only [List.mem_map, List.mem_filter, decide_eq_true_eq] at hk
    obtain ⟨m, ⟨-, hm⟩, rfl⟩ := hk
    exact ⟨m.address, m.packKey, hm, rfl, rfl⟩

/-- A pack goes only once the transaction sees no member of it. -/
theorem Stmt.deletePack_grown {a : (Stmt.deletePack p).Ans}
    (h : (Stmt.deletePack p).exec now t db = some (a, db')) :
    Db.Grown Row.key t (Stmt.deletePack p).Locks ((Stmt.deletePack p).Writes t db) db db' := by
  simp only [exec] at h
  cases hc : currentPack t p db with
  | none =>
    simp only [hc] at h
    obtain ⟨-, rfl⟩ := Prod.mk.inj (Option.some.inj h)
    exact .refl
  | some q =>
    simp only [hc] at h
    split_ifs at h with hm
    obtain ⟨db₁, hd, heq⟩ := Option.map_eq_some_iff.mp h
    obtain ⟨-, rfl⟩ := Prod.mk.inj heq
    refine .delete hd ⟨rfl, rfl⟩ ⟨rfl, rfl, ?_⟩
    intro m hmem hkey
    exact hm (List.any_eq_true.mpr ⟨m, mem_memberRows.mpr hmem, by simp [hkey]⟩)

theorem Stmt.deleteResidue_grown {f : Fence} {cutoff epoch : ℤ}
    {a : (Stmt.deleteResidue f cutoff epoch).Ans}
    (h : (Stmt.deleteResidue f cutoff epoch).exec now t db = some (a, db')) :
    Db.Grown Row.key t (Stmt.deleteResidue f cutoff epoch).Locks
      ((Stmt.deleteResidue f cutoff epoch).Writes t db) db db' := by
  simp only [exec] at h
  cases hr : (recordRows (db.view Row.key t)).find? fun r => r.fence == f with
  | none =>
    simp only [hr] at h
    obtain ⟨-, rfl⟩ := Prod.mk.inj (Option.some.inj h)
    exact .refl
  | some r =>
    simp only [hr] at h
    split_ifs at h with hres
    · obtain ⟨db₁, hd, heq⟩ := Option.map_eq_some_iff.mp h
      obtain ⟨-, rfl⟩ := Prod.mk.inj heq
      have hf : r.fence = f := by simpa using List.find?_some hr
      exact .delete hd ⟨rfl, rfl⟩
        ⟨rfl, rfl, r, mem_recordRows.mp (List.mem_of_find?_eq_some hr), hf, hres⟩
    · obtain ⟨db₁, ha, heq⟩ := Option.map_eq_some_iff.mp h
      obtain ⟨-, rfl⟩ := Prod.mk.inj heq
      exact .acquire ha ⟨rfl, rfl⟩

/-- A row statement takes the locks and writes the versions it may, and nothing else. -/
theorem Stmt.exec_grown {x : Stmt} {a : x.Ans} (h : x.exec now t db = some (a, db')) :
    Db.Grown Row.key t x.Locks (x.Writes t db) db db' := by
  cases x with
  | lockPack => exact lockPack_grown h
  | setCommitted => exact setCommitted_grown h
  | insertPack => exact insertPack_grown h
  | insertMember => exact insertMember_grown h
  | insertBorrow b => exact .insertNew h ⟨rfl, rfl⟩ ⟨rfl, rfl⟩
  | upsertRecord r =>
    obtain ⟨db₁, hu, heq⟩ := Option.map_eq_some_iff.mp h
    obtain ⟨-, rfl⟩ := Prod.mk.inj heq
    exact .upsert hu ⟨rfl, rfl⟩ ⟨rfl, rfl⟩
  | deleteMembers => exact deleteMembers_grown h
  | deletePack => exact deletePack_grown h
  | deleteRecord f =>
    obtain ⟨db₁, hd, heq⟩ := Option.map_eq_some_iff.mp h
    obtain ⟨-, rfl⟩ := Prod.mk.inj heq
    exact .delete hd ⟨rfl, rfl⟩ ⟨rfl, rfl⟩
  | deleteResidue => exact deleteResidue_grown h
  | deleteBorrow b =>
    obtain ⟨db₁, hd, heq⟩ := Option.map_eq_some_iff.mp h
    obtain ⟨-, rfl⟩ := Prod.mk.inj heq
    exact .delete hd ⟨rfl, rfl⟩ ⟨rfl, rfl⟩

end statements

section steps

variable {host : Host} {cond : Config (depot host) → Entry (depot host) → Prop}
variable {g g₁ : Config (depot host)} {e : Entry (depot host)} {w : World}

theorem Store.exec_db (x : Store) (a : Answer) (d : World) : (x.exec host a d).2.db = d.db := by
  cases x with
  | appendLedger | sweepLedger | finishPack | putCommitPack | deleteObject =>
    simp only [exec, Answer.attempt, World.putObject]
    split_ifs <;> rfl
  | tieredGet replica kind hex =>
    simp only [exec]
    split
    · rfl
    · split <;> rfl
  | openSession replica f =>
    simp only [exec]
    split <;> rfl
  | lockSession id =>
    simp only [exec]
    split_ifs
    · rfl
    · split <;> rfl
  | _ => rfl

/-- What a step does to the tables. -/
inductive Moves (db : Db RowKey Row) : Occurrence (depot host) → Db RowKey Row → Prop
  | quiet {o : Occurrence (depot host)} : Moves db o db
  | begins : Moves db (.did .begin (some db.nextTx)) db.start.2
  | runs {t : ℕ} {x : Stmt} {now : ℤ} {a : x.Ans} {db' : Db RowKey Row} (opened : t ∈ db.opened)
      (exec : x.exec now t db = some (a, db')) : Moves db (.did (.stmt t x) (some a)) db'
  | closes {o : Occurrence (depot host)} (t : ℕ) : Moves db o (db.close t)
  | commits {t : ℕ} {r : Option Unit} (opened : t ∈ db.opened) :
      Moves db (.did (.commit t) r) (db.commit Row.key t)

theorem respond_moves (c : Cmd) (a : Answer) (d : World) :
    @Moves host d.db (.did c (respond host c a d).1) (respond host c a d).2.db := by
  cases c with
  | clock => exact .quiet
  | runRow => exact .quiet
  | begin =>
    simp only [respond]
    split_ifs
    · exact .quiet
    · exact .begins
  | ask t q =>
    cases t with
    | none => exact .quiet
    | some t =>
      simp only [respond]
      split_ifs
      · exact .closes t
      · exact .quiet
  | stmt t x =>
    simp only [respond]
    split_ifs with hfail
    · exact .closes t
    · rw [not_or, not_not] at hfail
      split
      · next r db' hexec => exact .runs hfail.2 hexec
      · exact .closes t
  | commit t =>
    simp only [respond]
    split_ifs with hopen hfail hlost
    · exact .commits hopen
    · exact .closes t
    · exact .commits hopen
    · exact .quiet
  | rollback t => exact .closes t
  | store x =>
    have hdb := @Store.exec_db host x a d
    simp only [respond, hdb]
    exact .quiet

theorem step_moves (h : Step g e g₁) : Moves g.state.db e.what g₁.state.db := by
  cases h with
  | start | finish | fail | crash => exact .quiet
  | @act pid l c k a r s proc resp =>
    obtain ⟨rfl, rfl⟩ := Prod.mk.inj resp.symm
    exact respond_moves c a g.state

theorem Moves.sound {db db' : Db RowKey Row} {o : Occurrence (depot host)}
    (h : Moves db o db') (hs : db.Sound Row.key) : db'.Sound Row.key := by
  cases h with
  | quiet => exact hs
  | begins => exact hs.start
  | runs _ hexec => exact (Stmt.exec_grown hexec).sound hs
  | closes t => exact hs.close
  | commits _ => exact hs.commit

/-- The committed rows change at a commit only. -/
theorem Moves.rows {db db' : Db RowKey Row} {o : Occurrence (depot host)} (h : Moves db o db') :
    db'.rows = db.rows ∨ ∃ t r, o = .did (.commit t) r ∧ t ∈ db.opened ∧
      db' = db.commit Row.key t := by
  cases h with
  | quiet | begins | closes => exact .inl rfl
  | runs _ hexec => exact .inl (Stmt.exec_grown hexec).rows
  | commits hopen => exact .inr ⟨_, _, rfl, hopen, rfl⟩

theorem reach_sound (h : Reach cond w g) (hw : w.db.Sound Row.key) : g.state.db.Sound Row.key :=
  h.keeps (P := fun g : Config (depot host) => g.state.db.Sound Row.key)
    (fun _ _ _ _ hs _ ih => (step_moves hs).sound ih) hw

end steps

section runs

variable {host : Host} {cond : Config (depot host) → Entry (depot host) → Prop}
variable {g g₀ g₁ : Config (depot host)} {e : Entry (depot host)} {w : World}
variable {db db' : Db RowKey Row} {o : Occurrence (depot host)}

theorem Moves.nextTx_le (h : Moves db o db') : db.nextTx ≤ db'.nextTx := by
  cases h with
  | quiet | closes | commits => exact le_rfl
  | begins => exact Nat.le_succ _
  | runs _ hexec => exact (Stmt.exec_grown hexec).nextTx.ge

/-- Every pending version was written by a statement of its transaction. -/
theorem reach_written {v : Write RowKey Row} (h : Reach cond w g) (hw : w.db.writes = [])
    (hv : v ∈ g.state.db.writes) : ∃ e ∈ g.log, ∃ (x : Stmt) (a : x.Ans),
      e.what = .did (.stmt v.tx x) (some a) ∧ x.Writes v.tx e.before.db v.key v.row := by
  induction h generalizing v with
  | refl => simp [Config.init, hw] at hv
  | @tail g₁ g₂ e init step _ ih =>
    have hold : v ∈ g₁.state.db.writes → ∃ e ∈ g₂.log, ∃ (x : Stmt) (a : x.Ans),
        e.what = .did (.stmt v.tx x) (some a) ∧ x.Writes v.tx e.before.db v.key v.row := by
      intro hv
      obtain ⟨e', he', hrest⟩ := ih hv
      exact ⟨e', by rw [step.log_eq]; exact List.mem_cons_of_mem _ he', hrest⟩
    have hmoves := step_moves step
    generalize hdb : g₂.state.db = db' at hmoves hv
    generalize hwhat : e.what = o at hmoves
    cases hmoves with
    | quiet | begins => exact hold hv
    | closes | commits => exact hold (Db.mem_close_writes.mp hv).1
    | @runs t x now a _ _ hexec =>
      rcases (Stmt.exec_grown hexec).writesNew v hv with hv | ⟨ht, hwrites⟩
      · exact hold hv
      · refine ⟨e, by rw [step.log_eq]; exact List.mem_cons_self, x, a, ?_, ?_⟩
        · rw [hwhat, ht]
        · rw [step.before_eq, ht]
          exact hwrites

end runs

section owners

variable {host : Host} {cond : Config (depot host) → Entry (depot host) → Prop}
variable {g : Config (depot host)} {w : World}

theorem begun_once {e e' : Entry (depot host)} {t : ℕ} (h : Reach cond w g) (he : e ∈ g.log)
    (he' : e' ∈ g.log) (hw : e.what = .did .begin (some t)) (hw' : e'.what = .did .begin (some t)) :
    e.pid = e'.pid := by
  have hboth : (∀ e ∈ g.log, ∀ t, e.what = .did .begin (some t) → t < g.state.db.nextTx) ∧
      ∀ e ∈ g.log, ∀ e' ∈ g.log, ∀ t, e.what = .did .begin (some t) →
        e'.what = .did .begin (some t) → e.pid = e'.pid := by
    refine h.keeps (P := fun g : Config (depot host) =>
      (∀ e ∈ g.log, ∀ t, e.what = .did .begin (some t) → t < g.state.db.nextTx) ∧
      ∀ e ∈ g.log, ∀ e' ∈ g.log, ∀ t, e.what = .did .begin (some t) →
        e'.what = .did .begin (some t) → e.pid = e'.pid) ?_
      ⟨by simp [Config.init], by simp [Config.init]⟩
    intro g₁ x g₂ _ step _ ih
    have hnew : ∀ t, x.what = .did .begin (some t) →
        t = g₁.state.db.nextTx ∧ g₂.state.db.nextTx = g₁.state.db.nextTx + 1 := by
      intro t hx
      cases step with
      | start | finish | fail | crash => cases hx
      | @act pid l c k a r s proc resp =>
        obtain ⟨rfl, hr⟩ : c = .begin ∧ HEq r (some t) := by simpa using hx
        obtain rfl := eq_of_heq hr
        simp only [depot, respond] at resp
        split_ifs at resp
        · cases (Prod.mk.inj resp).1
        · obtain ⟨hr, rfl⟩ := Prod.mk.inj resp
          exact ⟨(Option.some.inj hr).symm, rfl⟩
    rw [step.log_eq]
    refine ⟨?_, ?_⟩
    · intro e he t ht
      rcases List.mem_cons.mp he with rfl | he
      · obtain ⟨rfl, hn⟩ := hnew t ht
        omega
      · exact (ih.1 e he t ht).trans_le (step_moves step).nextTx_le
    · intro e he e' he' t ht ht'
      rcases List.mem_cons.mp he with rfl | hin <;> rcases List.mem_cons.mp he' with rfl | hin'
      · rfl
      · exact absurd (ih.1 e' hin' t ht') (by rw [(hnew t ht).1]; exact lt_irrefl _)
      · exact absurd (ih.1 e hin t ht) (by rw [(hnew t ht').1]; exact lt_irrefl _)
      · exact ih.2 e hin e' hin' t ht ht'
  exact hboth.2 e he e' he' t hw hw'

theorem reach_orderly (h : Reach cond w g) : g.Justified (fun (l : Call) (h : Past) (c : Cmd) =>
    l.issues c = true ∧ ∀ t, c.tx = some t → h.Began t) fun _ _ _ => True :=
  h.justified fun l => body_orderly host l []

theorem Past.Began.entry {pid t : ℕ} (h : Past.Began (ownOf g.log pid) t) :
    ∃ e ∈ g.log, e.pid = pid ∧ e.what = .did .begin (some t) :=
  mem_ownOf.mp h

theorem Past.Began.mono {h h' : Past} {t : ℕ} (hb : h.Began t) (hs : h ⊆ h') : h'.Began t := hs hb

/-- A transaction has one owner. -/
theorem owner_unique {pid pid' t : ℕ} (h : Reach cond w g) (hb : Past.Began (ownOf g.log pid) t)
    (hb' : Past.Began (ownOf g.log pid') t) : pid = pid' := by
  obtain ⟨e, he, rfl, hw⟩ := hb.entry
  obtain ⟨e', he', rfl, hw'⟩ := hb'.entry
  exact begun_once h he he' hw hw'

/-- A command of a transaction comes from a call that began it. -/
theorem step_began {e : Entry (depot host)} {g₁ : Config (depot host)} {c : Cmd} {r : Resp c}
    {t : ℕ} (h : Reach cond w g) (hs : Step g e g₁) (hw : e.what = .did c r) (ht : c.tx = some t) :
    Past.Began (ownOf g.log e.pid) t := by
  obtain ⟨l, -, -, hj⟩ := hs.justified (reach_orderly h) hw
  exact hj t ht

/-- Every pending version was written by a statement of the transaction's owner. -/
theorem written_by {v : Write RowKey Row} {pid : ℕ} (h : Reach cond w g) (hw : w.db.writes = [])
    (hv : v ∈ g.state.db.writes) (hb : Past.Began (ownOf g.log pid) v.tx) :
    ∃ g₀ e g₁, ∃ (x : Stmt) (a : x.Ans), Reach cond w g₀ ∧ Step g₀ e g₁ ∧ Runs cond g₁ g ∧
      e.pid = pid ∧ e.what = .did (.stmt v.tx x) (some a) ∧
      x.Writes v.tx g₀.state.db v.key v.row := by
  obtain ⟨e, he, x, a, hwhat, hwrites⟩ := reach_written h hw hv
  obtain ⟨newer, older, hlog⟩ := List.append_of_mem he
  obtain ⟨g₀, g₁, hr, hs, -, hrun, hold⟩ := h.at_entry hlog
  refine ⟨g₀, e, g₁, x, a, hr, hs, hrun, ?_, hwhat, by rw [← hs.before_eq]; exact hwrites⟩
  have hbegan := step_began hr hs hwhat rfl
  refine owner_unique h (hbegan.mono (ownOf_subset ?_)) hb
  rw [hold, hlog]
  intro x hx
  simp [hx]

end owners
end Scarab.Depot
