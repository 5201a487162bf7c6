import Scarab.DepotTransactions

/-!
# A success drain record is written once

A POST looks for a success record of its fence first and writes its own, by an upsert, much
later. What it overwrites is decided by the POSTs in between: a success record is kept by
every other POST if, when it is stored, none of them is between its look and its commit.
-/
namespace Scarab.Depot

open RowStore Interleave

/-- The call found no success record of the fence. -/
def Past.FoundOpen (h : Past) (f : Fence) : Prop :=
  ∃ existing : Option RecordRow,
    (⟨.ask none (.record f), some existing⟩ : Exchange Cmd Resp) ∈ h ∧
      existing.any RecordRow.success = false

/-- The call has sent the commit of a transaction in which it wrote a record. -/
def Past.Recorded (h : Past) : Prop :=
  ∃ newer older t r a b,
    h = newer ++ (⟨.stmt t (.upsertRecord r), a⟩ : Exchange Cmd Resp) :: older ∧
      (⟨.commit t, b⟩ : Exchange Cmd Resp) ∈ newer

/-- The calls that may delete a fence's success record. -/
def Call.expires (f : Fence) : Call → Bool
  | .expire f' _ _ => f' = f
  | .sweepResidue => true
  | _ => false

section discipline

/-- Why a POST may write its record, and commit. -/
def RecordRule (h : Past) : Cmd → Prop
  | .stmt _ (.upsertRecord r) => h.FoundOpen r.fence
  | .commit _ => ¬ h.Recorded
  | _ => True

/-- The call has written no record. -/
def Past.Unwritten (h : Past) : Prop :=
  ∀ t r a, (⟨.stmt t (.upsertRecord r), a⟩ : Exchange Cmd Resp) ∉ h

/-- Commands that write no record. -/
def Cmd.recordless : Cmd → Bool
  | .stmt _ (.upsertRecord _) => false
  | _ => true

variable {h h' : Past}

theorem Past.Unwritten.not_recorded (hu : h.Unwritten) : ¬ h.Recorded := by
  rintro ⟨newer, older, t, r, a, b, rfl, -⟩
  exact hu t r a (by simp)

theorem Past.FoundOpen.mono {f : Fence} (hf : h.FoundOpen f) (hs : h ⊆ h') : h'.FoundOpen f := by
  obtain ⟨existing, hmem, hno⟩ := hf
  exact ⟨existing, hs hmem, hno⟩

theorem Cmd.recordless_of_sealing {c : Cmd} (hc : c.sealing = true) : c.recordless = true := by
  cases c with
  | stmt t x => cases x <;> first | rfl | cases hc
  | clock | runRow | begin | ask | rollback | store | commit => rfl

/-- A program that writes no record, run by a call that has written none. -/
theorem wp_recordless {α : Type} {p : Eff α} (hp : p.Issues fun c => c.recordless = true)
    (hu : h.Unwritten) : p.wp RecordRule h fun h' _ => Past.Unwritten h' := by
  have hkeep : ∀ h' : Past, Prog.Since (fun c => c.recordless = true) h h' → h'.Unwritten := by
    intro h' hs t r a hmem
    rcases hs.mem hmem with hmem | hk
    · exact hu t r a hmem
    · cases hk
  refine Prog.wp_mono (hp.wp fun h' c hs hc => ?_) fun h' _ _ hs => hkeep h' hs
  cases c with
  | stmt t x => cases x <;> trivial
  | commit t => exact (hkeep h' hs).not_recorded
  | clock | runRow | begin | ask | rollback | store => trivial

/-- The upsert and the commit of a record transaction. -/
theorem wp_upsert_commit {α : Type} {t : ℕ} {r : RecordRow} {k : Unit → Eff α}
    (hu : h.Unwritten) (hf : h.FoundOpen r.fence)
    (hk : ∀ h', (k ()).wp RecordRule h' fun _ _ => True) :
    ((stmt t (.upsertRecord r)).bind fun _ => (commit t).bind k).wp RecordRule h
      fun _ _ => True := by
  rw [Prog.wp_bind_iff, wp_stmt]
  refine ⟨hf, fun a => ?_⟩
  rw [Prog.wp_bind_iff, wp_commit]
  refine ⟨?_, fun _ => hk _⟩
  rintro ⟨newer, older, t', r', a', b, heq, hcommit⟩
  -- The upsert is the newest exchange, so no commit can have followed it.
  cases newer with
  | nil => cases hcommit
  | cons x newer =>
    obtain ⟨-, heq⟩ := List.cons.inj heq
    exact hu t' r' a' (by rw [heq]; simp)

theorem wp_recordSuccess (replica : ℕ) {f : Fence} (record : DrainRecord) (closure : Closure)
    (sealedPacks : List (FinishedPack PackKey)) (commitPack : Option ℕ) (hu : h.Unwritten)
    (hf : h.FoundOpen f) :
    (recordSuccess replica f record closure sealedPacks commitPack).wp RecordRule h
      fun _ _ => True := by
  refine Prog.wp_bind (wp_recordless (issues_now.mpr rfl) hu) fun h₁ postedAt hs₁ hu₁ => ?_
  refine Prog.wp_bind (wp_recordless (issues_now.mpr rfl) hu₁) fun h₂ stamp hs₂ hu₂ => ?_
  refine Prog.wp_bind (wp_recordless (issues_begin.mpr rfl) hu₂) fun h₃ t hs₃ hu₃ => ?_
  refine Prog.wp_bind (wp_recordless
    ((insertPackRows_issues f sealedPacks commitPack).mono ?_) hu₃) fun h₄ _ hs₄ hu₄ => ?_
  · rintro c (rfl | ⟨x, rfl, hx | ⟨p, rfl⟩⟩)
    · rfl
    · cases x <;> first | rfl | cases hx
    · rfl
  refine Prog.wp_bind (wp_recordless
    ((recheckClosurePresent_issues closure.tagged f).mono ?_) hu₄) fun h₅ present hs₅ hu₅ => ?_
  · rintro c (rfl | ⟨p, rfl⟩) <;> rfl
  cases closure.members.find? fun m => decide (taggedAddress m.2 ∉ present) with
  | some m =>
    refine Prog.wp_bind (wp_recordless (issues_rollback.mpr rfl) hu₅) fun _ _ _ _ => ?_
    trivial
  | none =>
    refine Prog.wp_bind (wp_recordless
      ((recordBorrowEdges_issues f closure.tagged stamp).mono ?_) hu₅) fun h₆ _ hs₆ hu₆ => ?_
    · rintro c (rfl | ⟨b, rfl, -⟩) <;> rfl
    have hsub := ((((hs₁.trans hs₂).trans hs₃).trans hs₄).trans hs₅).trans hs₆
    exact wp_upsert_commit hu₆ (hf.mono hsub.subset) fun h' => ⟨trivial, fun _ => trivial⟩

theorem wp_postDrain (host : Host) (replica : ℕ) (claim : Option Fence) (record : DrainRecord) :
    (postDrain host replica claim record).wp RecordRule [] fun _ _ => True := by
  cases claim with
  | none => trivial
  | some f =>
    rw [postDrain, Prog.bind_eq, Prog.wp_bind_iff, wp_ask]
    refine ⟨trivial, fun existing => ?_⟩
    have hu : Past.Unwritten [⟨.ask none (.record f), some existing⟩] := by
      intro t r a hmem
      simp at hmem
    by_cases hex : existing.any RecordRow.success = true
    · rw [if_pos hex]
      trivial
    rw [if_neg hex]
    have hf : Past.FoundOpen [⟨.ask none (.record f), some existing⟩] f :=
      ⟨existing, List.mem_cons_self, by simpa using hex⟩
    split_ifs
    · refine Prog.wp_bind (wp_recordless (issues_now.mpr rfl) hu) fun h₁ postedAt hs₁ hu₁ => ?_
      refine Prog.wp_bind (wp_recordless (issues_begin.mpr rfl) hu₁) fun h₂ t hs₂ hu₂ => ?_
      exact wp_upsert_commit hu₂ (hf.mono (hs₁.trans hs₂).subset) fun h' => trivial
    · have hquiet : ∀ c : Cmd, c.quiet = true → c.recordless = true :=
        fun c hc => Cmd.recordless_of_sealing (Cmd.sealing_of_quiet hc)
      refine Prog.wp_bind (wp_recordless
        ((validateRecord_quiet host replica f record).mono hquiet) hu) fun h₁ r hs₁ hu₁ => ?_
      cases r with
      | error why => trivial
      | ok r =>
        have hseal := (sealFencePacks_orderly host replica f r.1.root r.1.effective).issues
        refine Prog.wp_bind (wp_recordless (hseal.mono fun c => Cmd.recordless_of_sealing) hu₁)
          fun h₂ packs hs₂ hu₂ => ?_
        refine Prog.wp_bind (wp_recordless ((lostMembers_quiet f _ _ _).mono hquiet) hu₂)
          fun h₃ lostTrees hs₃ hu₃ => ?_
        refine Prog.wp_bind (wp_recordless ((lostMembers_quiet f _ _ _).mono hquiet) hu₃)
          fun h₄ lostBlobs hs₄ hu₄ => ?_
        split_ifs
        · trivial
        · have hsub := ((hs₁.trans hs₂).trans hs₃).trans hs₄
          exact wp_recordSuccess replica _ _ _ _ hu₄ (hf.mono hsub.subset)

theorem wp_body_records (host : Host) (l : Call) : (l.body host).wp
    (fun h c => ∀ replica claim record, l = .postDrain replica claim record → RecordRule h c) []
      fun _ _ => True := by
  cases l with
  | postDrain replica claim record =>
    refine Prog.wp_bind (Prog.wp_weaken (wp_postDrain host replica claim record) ?_)
      fun _ _ _ _ => trivial
    exact fun _ _ _ hrule _ _ _ _ => hrule
  | _ => exact Prog.wp_of_forall fun _ _ _ _ _ h => by cases h

end discipline

section runs

variable {host : Host} {cond : Config (depot host) → Entry (depot host) → Prop}
variable {g g₁ : Config (depot host)} {e : Entry (depot host)} {w : World}

/-- The statements that write a drain record. -/
theorem Stmt.Writes.record {t : ℕ} {db : Db RowKey Row} {x : Stmt} {f : Fence} {v : Option Row}
    (h : x.Writes t db (.record f) v) :
    (∃ r : RecordRow, x = .upsertRecord r ∧ r.fence = f ∧ v = some (.record r)) ∨
      (x = .deleteRecord f ∨ ∃ cutoff epoch, x = .deleteResidue f cutoff epoch) ∧ v = none := by
  cases x with
  | lockPack => cases h
  | setCommitted =>
    obtain ⟨_, _, _, _, hk, _⟩ := h
    cases hk
  | insertPack =>
    obtain ⟨-, hk, -⟩ := h
    cases hk
  | deleteMembers =>
    obtain ⟨_, _, _, hk, _⟩ := h
    cases hk
  | insertMember | insertBorrow | deletePack | deleteBorrow => cases h.1
  | upsertRecord r =>
    obtain ⟨hk, rfl⟩ := h
    exact .inl ⟨r, rfl, (RowKey.record.inj hk).symm, rfl⟩
  | deleteRecord f' =>
    obtain ⟨hk, rfl⟩ := h
    obtain rfl := RowKey.record.inj hk
    exact .inr ⟨.inl rfl, rfl⟩
  | deleteResidue f' cutoff epoch =>
    obtain ⟨hk, rfl, -⟩ := h
    obtain rfl := RowKey.record.inj hk
    exact .inr ⟨.inr ⟨cutoff, epoch, rfl⟩, rfl⟩

/-- When a step stores a new success record, every other POST in progress that found none has
sent its own commit. -/
def PostsApart (g : Config (depot host)) (e : Entry (depot host)) : Prop :=
  ∀ r : RecordRow, r.success = true → Row.record r ∉ e.before.db.rows →
    Row.record r ∈ e.after.db.rows → ∀ pid ≠ e.pid, g.procs pid ≠ none →
      Past.FoundOpen (ownOf g.log pid) r.fence → Past.Recorded (ownOf g.log pid)

/-- A success record is taken away by an expiry or a residue sweep only. -/
def WrittenOnce (g : Config (depot host)) : Prop :=
  ∀ e ∈ g.log, ∀ r : RecordRow, r.success = true → Row.record r ∈ e.before.db.rows →
    Row.record r ∉ e.after.db.rows → ∃ l, StartedAs g.log e.pid l ∧ l.expires r.fence = true

/-- While a success record is stored, every POST in progress that found none has sent its own
commit. -/
def Settled (g : Config (depot host)) : Prop :=
  ∀ r : RecordRow, r.success = true → Row.record r ∈ g.state.db.rows → ∀ pid,
    g.procs pid ≠ none → Past.FoundOpen (ownOf g.log pid) r.fence →
      Past.Recorded (ownOf g.log pid)

theorem reach_records (h : Reach cond w g) : g.Justified (fun (l : Call) (h : Past) (c : Cmd) =>
    ∀ replica claim record, l = .postDrain replica claim record → RecordRule h c)
      fun _ _ _ => True :=
  h.justified (wp_body_records host)

theorem Past.Recorded.cons {h : Past} (hr : h.Recorded) (x : Exchange Cmd Resp) :
    Past.Recorded (x :: h) := by
  obtain ⟨newer, older, t, r, a, b, rfl, hb⟩ := hr
  exact ⟨x :: newer, older, t, r, a, b, rfl, List.mem_cons_of_mem _ hb⟩

/-- A commit that changes a record does so by a statement of its own call. -/
theorem record_written {t : ℕ} {reply : Option Unit} {v : Write RowKey Row} {f : Fence}
    (h : Reach cond w g) (hw : w.db.writes = []) (hs : Step g e g₁)
    (hwhat : e.what = .did (.commit t) reply) (hv : v ∈ g.state.db.writes) (htx : v.tx = t)
    (hkey : v.key = .record f) :
    ∃ l, StartedAs g.log e.pid l ∧
      ((∃ r : RecordRow, r.fence = f ∧ v.row = some (.record r) ∧
          (∃ a, (⟨.stmt t (.upsertRecord r), some a⟩ : Exchange Cmd Resp) ∈ ownOf g.log e.pid) ∧
          Past.FoundOpen (ownOf g.log e.pid) f ∧ ¬ Past.Recorded (ownOf g.log e.pid)) ∨
        v.row = none ∧ l.expires f = true) := by
  subst htx
  have hbegan := step_began h hs hwhat rfl
  obtain ⟨g₀, e₀, g₂, x, a, hr₀, hs₀, hrun, hpid, hwhat₀, hwrites⟩ := written_by h hw hv hbegan
  obtain ⟨l, hl, hissue⟩ := hs₀.justified (reach_orderly hr₀) hwhat₀
  obtain ⟨l₁, hl₁, hrule⟩ := hs₀.justified (reach_records hr₀) hwhat₀
  obtain ⟨l₂, hl₂, hrule₂⟩ := hs.justified (reach_records h) hwhat
  obtain ⟨newer, hlog⟩ := hrun.log_eq
  rw [hs₀.log_eq] at hlog
  have hsub : g₀.log ⊆ g.log := by
    intro y hy
    rw [hlog]
    simp [hy]
  have hstarted : ∀ {l}, StartedAs g₀.log e₀.pid l → StartedAs g.log e.pid l := by
    rintro l ⟨y, hy, hyp, hyw⟩
    exact ⟨y, hsub hy, hyp.trans hpid, hyw⟩
  obtain rfl := (reach_records h).once _ _ _ (hstarted hl) (hstarted hl₁)
  obtain rfl := (reach_records h).once _ _ _ (hstarted hl) hl₂
  refine ⟨l, hl₂, ?_⟩
  rw [hkey] at hwrites
  rcases hwrites.record with ⟨r, rfl, hf, hrow⟩ | ⟨hx, hrow⟩
  · -- Only a POST writes a record, and its rule backs the upsert and the commit.
    obtain ⟨replica, claim, record, rfl⟩ :
        ∃ replica claim record, l = .postDrain replica claim record := by
      cases l with
      | postDrain replica claim record => exact ⟨_, _, _, rfl⟩
      | _ => cases hissue.1
    have hopen : Past.FoundOpen (ownOf g₀.log e₀.pid) r.fence := hrule _ _ _ rfl
    refine .inl ⟨r, hf, hrow, ⟨a, ?_⟩, ?_, hrule₂ _ _ _ rfl⟩
    · refine mem_ownOf.mpr ⟨e₀, by rw [hlog]; simp, hpid, hwhat₀⟩
    · rw [← hf, ← hpid]
      exact hopen.mono (ownOf_subset hsub)
  · refine .inr ⟨hrow, ?_⟩
    have hissue := hissue.1
    rcases hx with rfl | ⟨cutoff, epoch, rfl⟩
    · cases l with
      | expire f' => simpa [Call.issues, Cmd.within, Stmt.expiring, Call.expires, eq_comm] using hissue
      | postDrain _ claim _ => cases claim <;> cases hissue
      | _ => cases hissue
    · cases l with
      | sweepResidue => rfl
      | postDrain _ claim _ => cases claim <;> cases hissue
      | _ => cases hissue

theorem ownOf_did {c : Cmd} {r : Resp c} (hs : Step g e g₁) (hw : e.what = .did c r) :
    ownOf g₁.log e.pid = ⟨c, r⟩ :: ownOf g.log e.pid := by
  rw [hs.log_eq]
  simp [ownOf, hw]

/-- A look at a stored success record finds it. -/
theorem FoundOpen_of_step {c : Cmd} {reply : Resp c} {r : RecordRow} (hs : Step g e g₁)
    (hw : e.what = .did c reply) (hsound : g.state.db.Sound Row.key) (hsucc : r.success = true)
    (hr : Row.record r ∈ g.state.db.rows) (hopen : Past.FoundOpen (ownOf g₁.log e.pid) r.fence) :
    Past.FoundOpen (ownOf g.log e.pid) r.fence := by
  rw [ownOf_did hs hw] at hopen
  obtain ⟨existing, hmem, hno⟩ := hopen
  rcases List.mem_cons.mp hmem with heq | hmem
  · obtain ⟨rfl, hreply⟩ := Sigma.mk.inj heq
    obtain rfl := eq_of_heq hreply
    exfalso
    cases hs with
    | start | finish | fail | crash => cases hw
    | @act pid l c' k a r' s proc resp =>
      obtain ⟨rfl, hr'⟩ : c' = .ask none (.record r.fence) ∧ HEq r' (some existing) := by
        simpa using hw
      obtain rfl := eq_of_heq hr'
      simp only [depot, respond] at resp
      have hfound : existing = (recordRows g.state.db.rows).find? fun x => x.fence == r.fence := by
        have hfst := (Prod.mk.inj resp).1
        split_ifs at hfst
        exact (Option.some.inj hfst).symm
      cases hex : existing with
      | none =>
        rw [hfound, List.find?_eq_none] at hex
        exact absurd (hex r (mem_recordRows.mpr hr)) (by simp)
      | some r' =>
        rw [hfound] at hex
        have hmem := mem_recordRows.mp (List.mem_of_find?_eq_some hex)
        have hfence : r'.fence = r.fence := by simpa using List.find?_some hex
        have hsame := hsound.unique _ hmem _ hr (by simp [Row.key, hfence])
        obtain rfl := Row.record.inj hsame
        rw [hfound, hex] at hno
        simp [hsucc] at hno
  · exact ⟨existing, hmem, hno⟩

theorem Settled.step (h : Reach cond w g) (hw : w.db.Sound Row.key) (hw' : w.db.writes = [])
    (hs : Step g e g₁) (hapart : PostsApart g e) (hset : Settled g) : Settled g₁ := by
  intro r hsucc hr pid hproc hopen
  by_cases hne : pid = e.pid
  · -- The stepping call itself: it looked, or it committed.
    subst hne
    cases hwhat : e.what with
    | started l =>
      cases hs with
      | start l =>
        have hnil : ownOf g.log g.next = [] :=
          ownOf_eq_nil ((reach_orderly h).fresh g.next le_rfl).2
        have hcons : ownOf (⟨g.next, g.state, g.state, .started l⟩ :: g.log) g.next =
            ownOf g.log g.next := by
          simp [ownOf]
        obtain ⟨existing, hmem, -⟩ := hopen
        rw [Config.record, hcons, hnil] at hmem
        cases hmem
      | act | finish | fail | crash => cases hwhat
    | returned | crashed =>
      cases hs with
      | start | act => cases hwhat
      | finish | fail | crash => simp [Config.record] at hproc
    | did c reply =>
      by_cases hold : Row.record r ∈ g.state.db.rows
      · have hopen₀ := FoundOpen_of_step hs hwhat (reach_sound h hw) hsucc hold hopen
        rw [ownOf_did hs hwhat]
        refine (hset r hsucc hold e.pid ?_ hopen₀).cons _
        cases hs with
        | start | finish | fail | crash => cases hwhat
        | act proc => simp [proc]
      · rcases (step_moves hs).rows with hrows | ⟨t, reply', hcommit, -, hdb⟩
        · exact absurd (hrows ▸ hr) hold
        rw [hdb] at hr
        rcases Db.mem_view.mp hr with ⟨hr, -⟩ | ⟨v, hv, htx, hrow⟩
        · exact absurd hr hold
        have hkey := (reach_sound h hw).keyed v hv _ hrow
        obtain ⟨l, -, ⟨r', -, hrow', ⟨a, hup⟩, -⟩ | ⟨hnone, -⟩⟩ :=
          record_written h hw' hs hcommit hv htx hkey.symm
        · rw [ownOf_did hs hcommit]
          obtain ⟨newer, older, hsplit⟩ := List.append_of_mem hup
          exact ⟨_ :: newer, older, t, r', _, reply', by rw [hsplit]; rfl, List.mem_cons_self⟩
        · rw [hnone] at hrow
          cases hrow
  · have hproc₀ : g.procs pid ≠ none := by
      cases hs with
      | start l => simpa [Config.record, Function.update_of_ne hne] using hproc
      | act | finish | fail | crash => simpa [Config.record, Function.update_of_ne hne] using hproc
    rw [hs.log_eq, ownOf_cons_ne (Ne.symm hne)] at hopen ⊢
    by_cases hold : Row.record r ∈ g.state.db.rows
    · exact hset r hsucc hold pid hproc₀ hopen
    · refine hapart r hsucc ?_ ?_ pid hne hproc₀ hopen
      · rwa [hs.before_eq]
      · rwa [hs.after_eq]

/-- Success records are written once in every run whose POSTs stay apart. -/
theorem writtenOnce_of_postsApart (hw : w.db.Sound Row.key) (hw' : w.db.writes = [])
    (h : Reach PostsApart w g) : WrittenOnce g ∧
      ∀ r r' : RecordRow, Row.record r ∈ g.state.db.rows → Row.record r' ∈ g.state.db.rows →
        r.fence = r'.fence → r = r' := by
  have hset : ∀ g : Config (depot host), Reach PostsApart w g → Settled g := by
    intro g h
    refine Runs.keeps (P := fun g : Config (depot host) => Settled g)
      (fun g₁ e g₂ hrun hs hc ih => ih.step hrun hw hw' hs hc) h ?_
    intro r _ _ pid hproc
    exact absurd rfl hproc
  refine ⟨?_, ?_⟩
  · intro e he r hsucc hbefore hafter
    obtain ⟨newer, older, hlog⟩ := List.append_of_mem he
    obtain ⟨g₀, g₁, hr₀, hs, -, -, rfl⟩ := h.at_entry hlog
    rw [hs.before_eq] at hbefore
    rw [hs.after_eq] at hafter
    rcases (step_moves hs).rows with hrows | ⟨t, reply, hcommit, -, hdb⟩
    · exact absurd (hrows ▸ hbefore) hafter
    have hsound := reach_sound hr₀ hw
    rw [hdb, Db.commit_rows, Db.mem_view] at hafter
    push Not at hafter
    obtain ⟨v, hv, htx, hkey⟩ := hafter.1 hbefore
    obtain ⟨l, ⟨x, hx, hxp, hxw⟩, hcase⟩ := record_written hr₀ hw' hs hcommit hv htx hkey
    rcases hcase with ⟨r', -, -, -, hopen, hnot⟩ | ⟨-, hexp⟩
    · exfalso
      refine hnot (hset g₀ hr₀ r hsucc hbefore e.pid ?_ hopen)
      cases hs with
      | start | finish | fail | crash => cases hcommit
      | act proc => simp [proc]
    · exact ⟨l, ⟨x, by rw [hlog]; simp [hx], hxp, hxw⟩, hexp⟩
  · intro r r' hr hr' hf
    have hsame := (reach_sound h hw).unique _ hr _ hr' (by simp [Row.key, hf])
    exact Row.record.inj hsame

end runs

/-- Only the call `pid` changes the tables, and the others that look for a record find a success. -/
def onlyPost (pid : ℕ) (e : Entry (depot sampleHost)) : Bool :=
  decide (e.pid = pid) || decide (e.before.db.rows = e.after.db.rows) &&
    match e.what with
    | .did (.ask none (.record _)) found =>
        found.all fun existing => existing.any RecordRow.success
    | _ => true

/-- The call was answered that the record is already there. -/
def refused (pid : ℕ) (e : Entry (depot sampleHost)) : Bool :=
  match e.what with
  | .returned (.ok (.reply .conflict)) => decide (e.pid = pid)
  | _ => false

/-- A step of a call other than an expiry or a residue sweep takes a success record away. -/
def overwrites (g : Config (depot sampleHost)) : Bool :=
  g.log.any (fun e => (recordRows e.before.db.rows).any fun r => r.success &&
    decide (Row.record r ∉ e.after.db.rows)) &&
  g.log.all fun e => match e.what with
    | .started l => !l.expires fenceF
    | _ => true

theorem postsApart_of_onlyPost {pid : ℕ} {w : World} {g : Config (depot sampleHost)}
    (hr : Reach (fun _ _ => True) w g) (hlog : ∀ e ∈ g.log, onlyPost pid e = true) :
    Reach PostsApart w g := by
  refine hr.of_log hlog fun g e g₁ _ _ hold he => ?_
  intro r _ hbefore hafter i hne _ hopen
  have hpid : e.pid = pid := by
    by_contra hpid
    simp only [onlyPost, hpid, decide_false, Bool.false_or, Bool.and_eq_true,
      decide_eq_true_eq] at he
    rw [he.1] at hbefore
    exact hbefore hafter
  obtain ⟨existing, hmem, hnone⟩ := hopen
  obtain ⟨x, hx, rfl, hxw⟩ := mem_ownOf.mp hmem
  have hfirst := hold x hx
  simp [onlyPost, hxw, hpid ▸ hne, hnone] at hfirst

theorem not_writtenOnce_of_overwrites {g : Config (depot sampleHost)}
    (hf : ∀ e ∈ g.log, ∀ r, Row.record r ∈ e.before.db.rows → r.fence = fenceF)
    (h : overwrites g = true) : ¬ WrittenOnce g := by
  intro honce
  simp only [overwrites, Bool.and_eq_true, List.any_eq_true, mem_recordRows, decide_eq_true_eq,
    List.all_eq_true] at h
  obtain ⟨⟨e, he, r, hr, hsucc, hgone⟩, hnone⟩ := h
  obtain ⟨l, ⟨x, hx, -, hxw⟩, hexp⟩ := honce e he r hsucc hr hgone
  have hstart := hnone x hx
  rw [hf e he r hr] at hexp
  simp [hxw, hexp] at hstart

/-- A PUT, the POST of what it stored, and an error POST of the fence beside it, which is refused. -/
theorem writtenOnce_of_postsApart_single : ∃ g : Config (depot sampleHost),
    Reach PostsApart (World.fresh 0) g ∧ g.log.any (refused 2) = true ∧
      (recordRows g.state.db.rows).any RecordRow.success = true ∧ WrittenOnce g := by
  obtain ⟨g, hg, htest⟩ := Reach.of_play (M := depot sampleHost) (World.fresh 0)
    [.start (.putTree (putEmptyTree fenceF .durable)), .runOut 0 60 calm,
      .start (.postDrain 0 (some fenceF) emptyRecord), .acts 1 3 calm,
      .start (.postDrain 0 (some fenceF) failedRecord), .runOut 1 60 calm, .runOut 2 60 calm]
    (fun g => g.log.all (onlyPost 1) && (g.log.any (refused 2) &&
      (recordRows g.state.db.rows).any RecordRow.success)) (by decide +kernel)
  simp only [Bool.and_eq_true, List.all_eq_true] at htest
  obtain ⟨hlog, hrefused, hstored⟩ := htest
  have hr := postsApart_of_onlyPost hg hlog
  exact ⟨g, hr, hrefused, hstored, (writtenOnce_of_postsApart Db.sound_empty rfl hr).1⟩

/-- An error POST that looked before a success was stored writes over it. -/
theorem success_overwritten : ¬ ∀ g : Config (depot sampleHost),
    Reach (fun _ _ => True) (World.fresh 0) g → WrittenOnce g := by
  intro hall
  obtain ⟨g, hg, htest⟩ := Reach.of_play (M := depot sampleHost) (World.fresh 0)
    [.start (.putTree (putEmptyTree fenceF .durable)), .runOut 0 60 calm,
      .start (.postDrain 0 (some fenceF) failedRecord), .acts 1 1 calm,
      .start (.postDrain 0 (some fenceF) emptyRecord), .runOut 2 60 calm, .runOut 1 60 calm]
    (fun g => overwrites g && g.log.all fun e => (recordRows e.before.db.rows).all fun r =>
      decide (r.fence = fenceF))
    (by decide +kernel)
  simp only [Bool.and_eq_true, List.all_eq_true, mem_recordRows, decide_eq_true_eq] at htest
  exact not_writtenOnce_of_overwrites htest.2 htest.1 (hall g hg)

end Scarab.Depot
