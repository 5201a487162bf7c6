import Scarab.EngineMessages

/-!
# Every ending is announced once

A run's posts are deduplicated forever under a key that carries the generation read before
the commit. The commit is guarded on that generation and each reopening opens the next, so
a terminal status is entered at most once in a generation and its key is always new.
-/
namespace Scarab.Engine

open Interleave

variable {run : RunId} {db₀ : Db} {cond : Config engine → Entry engine → Prop}
  {g g₁ : Config engine} {e : Entry engine} {t : RunTransition}

/-- The post of one ending of a run. -/
def endingPost (t : RunTransition) (kind : OutboxKind) (key : Text) (generation : ℕ)
    (at_ : Timestamp) : OutboxMessage := ⟨t.run, kind, .status t.to_ generation, key, at_⟩

/-- The commit added exactly one row of the kind, an ending's post with this generation. -/
def AddsOne (kind : OutboxKind) (t : RunTransition) (generation : ℕ) (e : Entry engine) : Prop :=
  ∃ row at_ key, e.post.outbox.ofKind kind = e.pre.outbox.ofKind kind ++ [row] ∧
    row.msg = endingPost t kind key generation at_ ∧ row.pending = true

/-- Each ending of a run is announced by exactly one new row of each kind due, a lost commit
adds none, and the generations of a run's successive endings increase. -/
structure EndingsAnnounced (g : Config engine) : Prop where
  changed : ∀ e ∈ g.log, ∀ t, e.Did (.commitRunTransition t) () → t.to_.isTerminal = true →
    AddsOne .runStatusChanged t (e.pre.generations t.run) e
  finished : ∀ e ∈ g.log, ∀ t, e.Did (.commitRunTransition t) () →
    t.to_ = .succeeded ∨ t.to_ = .failed → t.from_ ≠ .pending →
    AddsOne .runFinished t (e.pre.generations t.run) e
  lost : ∀ e ∈ g.log, ∀ t x, e.what = .did (.write (.commitRunTransition t)) (.error x) →
    e.post.outbox = e.pre.outbox
  increasing : ∀ newer later between earlier older t t',
    g.log = newer ++ later :: (between ++ earlier :: older) →
    later.Did (.commitRunTransition t) () → earlier.Did (.commitRunTransition t') () →
    t.run = t'.run → t.to_.isTerminal = true → t'.to_.isTerminal = true →
    earlier.pre.generations t'.run < later.pre.generations t.run

/-- The moves that end a run leave a live status and post the ending, behind the services'
teardown if there is one. -/
theorem RunMove.ending {l : Call} {h : Past} (hm : RunMove l h t) (hto : t.to_.isTerminal = true) :
    t.from_.isTerminal = false ∧ ∃ at_ intents, (∀ m ∈ intents, IsServicesIntent t.run m) ∧
      t.outbox = intents ++ ([endingPost t .runStatusChanged
        (runStatusPostKey t.run t.posted t.to_) t.posted at_] ++
          if (t.to_ = .succeeded ∨ t.to_ = .failed) ∧ t.from_ ≠ .pending then
            [endingPost t .runFinished (runFinishedKey t.run t.posted t.to_) t.posted at_]
          else []) := by
  cases hm with
  | start | resume | suspend | reopen => cases hto
  | settle run from_ steps at_ generation live => exact ⟨live, at_, [], by simp, rfl⟩
  | cancel leader run from_ at_ intent generation live steps services =>
    exact ⟨live, at_, [intent], fun m hm => List.mem_singleton.mp hm ▸ services, rfl⟩
  | overBudget leader run at_ | uncreated leader run cutoff runs reason at_ =>
    exact ⟨rfl, at_, [], by simp, rfl⟩
  | deadLetter run from_ at_ generation live => exact ⟨live, at_, [], by simp, rfl⟩

theorem IsServicesIntent.label_eq {m : OutboxMessage} (h : IsServicesIntent run m) :
    label m.key = "cancel".toList := by
  obtain ⟨-, -, -, nonce, hk⟩ := h
  simp [hk]

/-- The key of a post, of either kind. -/
def IsPostKey (key : Text) (run : RunId) (generation : ℕ) (to_ : RunStatus) : Prop :=
  key = runStatusPostKey run generation to_ ∨ key = runFinishedKey run generation to_

theorem IsPostKey.inj {key : Text} {run' : RunId} {n n' : ℕ} {to_ to_' : RunStatus}
    (h : IsPostKey key run n to_) (h' : IsPostKey key run' n' to_') :
    run = run' ∧ n = n' ∧ to_ = to_' := by
  rcases h with h | h <;> rcases h' with h' | h'
  · exact runStatusPostKey_inj (h.symm.trans h')
  · have hlabel := congrArg label (h.symm.trans h')
    simp at hlabel
  · have hlabel := congrArg label (h.symm.trans h')
    simp at hlabel
  · exact runFinishedKey_inj (h.symm.trans h')

/-- Only a move of the run queues a message under a key of its posts. -/
theorem Sends.of_postKey {l : Call} {h : Past} {db : Db} {t : Tx} {m : OutboxMessage} {n : ℕ}
    {to_ : RunStatus} (hsend : Sends l h db t m) (hk : IsPostKey m.key run n to_) :
    ∃ t', t = .commitRunTransition t' ∧ t'.run = run ∧ t'.posted = n ∧ t'.to_ = to_ := by
  have hlabel : label m.key = "status".toList ∨ label m.key = "finished".toList := by
    rcases hk with hk | hk <;> simp [hk]
  cases hsend with
  | post t' m post =>
    have hpost : IsPostKey m.key t'.run t'.posted t'.to_ :=
      post.imp (fun h => h.2) fun h => h.2
    obtain ⟨h1, h2, h3⟩ := hpost.inj hk
    exact ⟨t', rfl, h1, h2, h3⟩
  | launch | cancel | supersede | late =>
    simp [cancelAttemptIntent, supersedeTeardownIntent, lateLaunchTeardown] at hlabel
  | services t' m intent =>
    obtain ⟨-, -, -, nonce, hkey⟩ := intent
    simp [hkey] at hlabel

/-- What a run's move does to its status and its generation. -/
theorem run_after_move {db db' : Db} {w : Answer}
    (h : (Tx.commitRunTransition t).exec w db = .ok ((), db')) :
    db.runs t.run = t.from_ ∧ db'.runs t.run = t.to_ ∧ db'.generations t.run = t.posted ∧
      db.generations t.run = t.generation := by
  obtain ⟨-, hfrom, hgen, rfl⟩ := Db.commitRunTransition_ok (Tx.done_eq_ok h)
  refine ⟨hfrom, ?_, ?_, hgen⟩
  · simp [Db.journal]
  · rw [RunTransition.posted, ← hgen, Db.enqueueAll_eq]
    simp [Db.journal]

/-- A generation has been left, or the run has ended in it as `to_`. -/
def EndedIn (db : Db) (run : RunId) (n : ℕ) (to_ : RunStatus) : Prop :=
  n < db.generations run ∨ n = db.generations run ∧ db.runs run = to_

/-- The step moves the run, or leaves its status and generation alone. -/
theorem step_generation (hr : Reach cond db₀ g) (hs : Step g e g₁) (run : RunId) :
    g₁.db.runs run = g.db.runs run ∧ g₁.db.generations run = g.db.generations run ∨
      g₁.db.generations run =
        g.db.generations run + if (g.db.runs run).isTerminal then 1 else 0 := by
  rcases hr.step_run hs run with hsame | ⟨t, l, -, -, -, -, hfrom, -, -, -, hgen⟩
  · exact .inl hsame
  · right
    rw [hgen, hfrom]

/-- Once a run has ended in a generation, it leaves that status only to the next one. -/
theorem EndedIn.step {n : ℕ} {to_ : RunStatus} (hto : to_.isTerminal = true)
    (hr : Reach cond db₀ g) (hs : Step g e g₁) (h : EndedIn g.db run n to_) :
    EndedIn g₁.db run n to_ := by
  rcases step_generation hr hs run with ⟨hst, hgen⟩ | hgen
  · rwa [EndedIn, hst, hgen]
  · left
    rcases h with h | ⟨rfl, hst⟩
    · omega
    · rw [hst, hto] at hgen
      simp [hgen]

theorem EndedIn.runs {n : ℕ} {to_ : RunStatus} (hto : to_.isTerminal = true)
    (hr : Reach cond db₀ g) (hrun : Runs cond g g₁) (h : EndedIn g.db run n to_) :
    EndedIn g₁.db run n to_ :=
  hrun.keeps (P := fun g' => EndedIn g'.db run n to_)
    (fun _ _ _ hpre hs _ ih => ih.step hto (hr.extend hpre) hs) h

/-- A row under the key of an ending's post stands for an ending of that generation. -/
theorem endedIn_of_row (hfresh : db₀.Fresh) (hr : Reach cond db₀ g) {x : OutboxEntry} {n : ℕ}
    {to_ : RunStatus} (hto : to_.isTerminal = true) (hx : x ∈ g.db.outbox.entries)
    (hk : IsPostKey x.msg.key run n to_) : EndedIn g.db run n to_ := by
  induction hr generalizing x with
  | refl =>
    rw [show (Config.init db₀).db.outbox.entries = [] from hfresh.outbox] at hx
    cases hx
  | @tail g₁ g₂ e init hs hm ih =>
    have hr : Reach cond db₀ g₁ := init
    rcases hr.row_cases hs hx with ⟨y, hy, hkeep⟩ | ⟨-, -, t, a, l, -, -, ⟨w, hexec⟩, hsend⟩
    · rw [hkeep.msg] at hk
      exact (ih hy hk).step hto hr hs
    · obtain ⟨t', rfl, rfl, rfl, rfl⟩ := hsend.of_postKey hk
      obtain ⟨-, hst, hgen, -⟩ := run_after_move hexec
      exact .inr ⟨hgen.symm, hst⟩

/-- The keys of an ending's posts are new when it commits. -/
theorem postKey_new (hfresh : db₀.Fresh) (hr : Reach cond db₀ g) {w : Answer} {db' : Db}
    (hexec : (Tx.commitRunTransition t).exec w g.db = .ok ((), db'))
    (hto : t.to_.isTerminal = true) (hlive : t.from_.isTerminal = false) {key : Text}
    (hk : IsPostKey key t.run t.posted t.to_) : key ∉ g.db.outbox.entries.map (·.msg.key) := by
  intro hmem
  obtain ⟨x, hx, rfl⟩ := List.mem_map.mp hmem
  obtain ⟨hfrom, -, -, hgen⟩ := run_after_move hexec
  have hposted : t.posted = g.db.generations t.run := by simp [RunTransition.posted, hlive, hgen]
  rcases endedIn_of_row hfresh hr hto hx hk with hlt | ⟨-, hst⟩
  · omega
  · rw [hfrom] at hst
    rw [hst, hto] at hlive
    cases hlive

/-- The ending's only message of a kind becomes one new row. -/
theorem addsOne_of_ending (hfresh : db₀.Fresh) (hr : Reach cond db₀ g) (hs : Step g e g₁)
    (hd : e.Did (.commitRunTransition t) ()) (hto : t.to_.isTerminal = true) {kind : OutboxKind}
    {key : Text} (at_ : Timestamp) (hk : IsPostKey key t.run t.posted t.to_)
    (hlive : t.from_.isTerminal = false)
    (hone : t.outbox.filter (·.kind = kind) = [endingPost t kind key t.posted at_])
    (hne : ∀ m ∈ t.outbox, m.kind ≠ kind → m.key ≠ key) :
    AddsOne kind t (e.pre.generations t.run) e := by
  obtain ⟨w, hexec⟩ := hs.write_eq hd
  obtain ⟨-, -, -, hgen⟩ := run_after_move hexec
  have hout := (Tx.exec_frame hexec).outbox rfl
  obtain ⟨row, hrow, hmsg, hp⟩ := Outbox.ofKind_foldl_enqueue (o := g.db.outbox) hone
    (postKey_new hfresh hr hexec hto hlive hk) hne
  have hposted : t.posted = e.pre.generations t.run := by
    rw [Entry.pre, hs.before_eq]
    simp [RunTransition.posted, hlive, ← hgen]
  refine ⟨row, at_, key, ?_, by rw [hmsg, hposted], hp⟩
  rw [Entry.post, Entry.pre, hs.after_eq, hs.before_eq, ← hrow]
  exact congrArg (Outbox.ofKind · kind) hout

/-- An ending is announced by one new row of each kind due. -/
theorem step_announced (hfresh : db₀.Fresh) (hr : Reach cond db₀ g) (hs : Step g e g₁)
    (hd : e.Did (.commitRunTransition t) ()) (hto : t.to_.isTerminal = true) :
    AddsOne .runStatusChanged t (e.pre.generations t.run) e ∧
      ((t.to_ = .succeeded ∨ t.to_ = .failed) → t.from_ ≠ .pending →
        AddsOne .runFinished t (e.pre.generations t.run) e) := by
  obtain ⟨l, -, hmove, -⟩ := hs.justified hr.backed hd
  obtain ⟨hlive, at_, intents, hint, hout⟩ := hmove.ending hto
  have hkind : ∀ m ∈ intents, m.kind = .cancelRun := fun m hm => (hint m hm).2.1
  have hother : ∀ kind, kind ≠ .cancelRun → intents.filter (·.kind = kind) = [] := by
    intro kind hne
    refine List.filter_eq_nil_iff.mpr fun m hm => ?_
    simpa [hkind m hm] using hne.symm
  have hlabel : ∀ m ∈ t.outbox, label m.key = "cancel".toList ∨
      (m.kind = .runStatusChanged ∧ label m.key = "status".toList) ∨
        (m.kind = .runFinished ∧ label m.key = "finished".toList) := by
    intro m hm
    rw [hout, List.mem_append, List.mem_append] at hm
    rcases hm with hm | hm | hm
    · exact .inl (hint m hm).label_eq
    · rw [List.mem_singleton.mp hm]
      exact .inr (.inl ⟨rfl, label_runStatusPostKey _ _ _⟩)
    · split_ifs at hm
      · rw [List.mem_singleton.mp hm]
        exact .inr (.inr ⟨rfl, label_runFinishedKey _ _ _⟩)
      · cases hm
  constructor
  · refine addsOne_of_ending hfresh hr hs hd hto at_ (.inl rfl) hlive ?_ fun m hm hne hk => ?_
    · rw [hout, List.filter_append, hother _ (by simp)]
      split_ifs <;> simp [endingPost]
    · have := hlabel m hm
      simp [hk, hne] at this
  · intro hends hfrom
    refine addsOne_of_ending hfresh hr hs hd hto at_ (.inr rfl) hlive ?_ fun m hm hne hk => ?_
    · rw [hout, List.filter_append, hother _ (by simp), if_pos ⟨hends, hfrom⟩]
      simp [endingPost]
    · have := hlabel m hm
      simp [hk, hne] at this

/-- Every ending of a run is announced exactly once, each under its own generation. -/
theorem endingsAnnounced (hfresh : db₀.Fresh) (hr : Reach cond db₀ g) : EndingsAnnounced g := by
  refine ⟨fun e he t hd hto => ?_, fun e he t hd hto hfrom => ?_, fun e he t x hw => ?_,
    fun newer later between earlier older t t' hlog hd hd' hrun hto hto' => ?_⟩
  · obtain ⟨newer, older, hlog⟩ := List.append_of_mem he
    obtain ⟨g₀, g₁, hr₀, hs, -⟩ := hr.at_entry hlog
    exact (step_announced hfresh hr₀ hs hd hto).1
  · obtain ⟨newer, older, hlog⟩ := List.append_of_mem he
    obtain ⟨g₀, g₁, hr₀, hs, -⟩ := hr.at_entry hlog
    have hterm : t.to_.isTerminal = true := by rcases hto with h | h <;> rw [h] <;> rfl
    exact (step_announced hfresh hr₀ hs hd hterm).2 hto hfrom
  · obtain ⟨newer, older, hlog⟩ := List.append_of_mem he
    obtain ⟨g₀, g₁, hr₀, hs, -⟩ := hr.at_entry hlog
    have hsame : g₁.db = g₀.db := by
      rcases hr₀.step_cases hs with hsame | ⟨t', a, hc⟩
      · exact hsame
      · have hdid := hc.did
        rw [Entry.Did, hw] at hdid
        cases hdid
    rw [Entry.post, Entry.pre, hs.after_eq, hs.before_eq]
    exact congrArg Db.outbox hsame
  · obtain ⟨g₀, g₁, hr₀, hs, -, -, hlog₀⟩ := hr.at_entry hlog
    obtain ⟨g₂, g₃, hr₂, hs₂, hm₂, hrun₂, -⟩ := hr₀.at_entry hlog₀
    obtain ⟨w, hexec⟩ := hs.write_eq hd
    obtain ⟨w', hexec'⟩ := hs₂.write_eq hd'
    obtain ⟨hfrom, -, -, -⟩ := run_after_move hexec
    obtain ⟨-, hst', hgen', hpre'⟩ := run_after_move hexec'
    obtain ⟨l, -, hmove, -⟩ := hs.justified hr₀.backed hd
    obtain ⟨l', -, hmove', -⟩ := hs₂.justified hr₂.backed hd'
    have hlive := (hmove.ending hto).1
    have hlive' := (hmove'.ending hto').1
    have hposted : t'.posted = g₂.db.generations t'.run := by
      simp [RunTransition.posted, hlive', hpre']
    have hended : EndedIn g₃.db t'.run t'.posted t'.to_ := .inr ⟨hgen'.symm, hst'⟩
    rw [Entry.pre, Entry.pre, hs.before_eq, hs₂.before_eq, hrun]
    rcases hended.runs hto' (hr₂.next hs₂ hm₂) hrun₂ with hlt | ⟨-, hst⟩
    · rwa [hposted] at hlt
    · rw [← hrun, hfrom] at hst
      rw [hst, hto'] at hlive
      cases hlive

/-- A run that ends, is brought back by a rerun, and ends again in the next generation. -/
theorem endingsAnnounced_twice : ∃ g, Reach (fun _ _ => True) oneStepDb g ∧
    g.db.runs runR = .succeeded ∧ g.db.generations runR = 1 ∧ EndingsAnnounced g := by
  obtain ⟨g, hg, htest⟩ := Reach.of_play (M := engine) oneStepDb
    [.start (.admitRun plainConfig [] runR), .runOut 0 60 (calm .succeeded none),
      .start (.reconcile plainConfig []), .runOut 1 60 (calm .succeeded none),
      .start (.advance runR), .runOut 2 60 (calm .succeeded none),
      .start (.rerunStep false runR stepA none), .runOut 3 60 (calm .succeeded none),
      .start (.admitRun plainConfig [] runR), .runOut 4 60 (calm .succeeded none),
      .start (.reconcile plainConfig []), .runOut 5 60 (calm .succeeded none),
      .start (.advance runR), .runOut 6 60 (calm .succeeded none)]
    (fun g => decide (g.db.runs runR = .succeeded ∧ g.db.generations runR = 1))
    (by decide +kernel)
  have hend := of_decide_eq_true htest
  exact ⟨g, hg, hend.1, hend.2, endingsAnnounced (createdDb_fresh _ _ _) hg⟩

end Scarab.Engine
