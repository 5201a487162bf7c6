import Scarab.EngineEvolution

/-!
# What every run keeps of the outbox

Which messages a commit queues, how the delivery state of a row changes, and what a claim
hands out: a claimed message is a row of the outbox for as long as the run goes on.
-/
namespace Scarab.Engine

open Interleave

/-- The generation a run is in after the transition. -/
def RunTransition.posted (t : RunTransition) : ℕ :=
  t.generation + if t.from_.isTerminal then 1 else 0

/-- A post about the run's move, for observers only. -/
def IsPost (t : RunTransition) (m : OutboxMessage) : Prop :=
  m.kind = .runStatusChanged ∧ m.key = runStatusPostKey t.run t.posted t.to_ ∨
    m.kind = .runFinished ∧ m.key = runFinishedKey t.run t.posted t.to_

/-- Why a unit is torn down. -/
inductive TeardownCause where
  | cancelled
  | lateLaunch
  | rerun (target : StepId)

/-- The message that tears one Attempt's unit down. -/
def teardownMessage (run : RunId) (step : StepId) (attempt : AttemptId) (at_ : Timestamp) :
    TeardownCause → OutboxMessage
  | .cancelled => cancelAttemptIntent run step attempt at_
  | .lateLaunch => lateLaunchTeardown run step attempt at_
  | .rerun target => supersedeTeardownIntent run target ⟨step, attempt⟩ at_

def OutboxKind.isTeardown : OutboxKind → Bool
  | .cancelAttempt | .supersedeTeardown => true
  | .launchStep | .runStatusChanged | .runFinished | .cancelRun => false

/-- What a backed commit puts in the outbox. -/
inductive Sends (l : Call) (h : Past) (db : Db) : Tx → OutboxMessage → Prop
  | launch (leader : LeaderTerm) (limit : ℕ) (now : Timestamp) (run : RunId) (step : StepId)
      (listed : { db.stepRun run step with status := .running } ∈ db.claimable limit) :
      Sends l h db (.claimReadySteps leader limit now)
        ⟨run, .launchStep, .launch ⟨run, step, (db.steps run step).attempts.next⟩,
          launchKey run step (db.steps run step).attempts.next, now⟩
  | cancel (run : RunId) (s : StepRun) (at_ : Timestamp) (a : Attempt) (saw : h.SawStep run s)
      (running : s.status = .running) (latest : inFlightAttempt s = some a) :
      Sends l h db (.commitStepTransition (cancelCommit run s at_))
        (cancelAttemptIntent run s.step a.id at_)
  | supersede (run : RunId) (target : StepId) (s : StepRun) (by_ : Option Text) (at_ : Timestamp)
      (a : Attempt) (saw : h.SawStep run s) (known : ∃ x, h.SawStep run x ∧ x.step = target)
      (running : s.status = .running) (latest : inFlightAttempt s = some a) :
      Sends l h db (.commitStepTransition (rearmCommit run target s by_ at_))
        (supersedeTeardownIntent run target ⟨s.step, a.id⟩ at_)
  | late (id : ℕ) (msg : OutboxMessage) (intent : LaunchIntent) (at_ : Timestamp)
      (claimed : h.Claimed .launchStep id msg) (payload : msg.payload = .launch intent)
      (no : h.Unwanted intent.run intent.step intent.attempt) :
      Sends l h db
        (.enqueueOutbox (lateLaunchTeardown intent.run intent.step intent.attempt at_))
        (lateLaunchTeardown intent.run intent.step intent.attempt at_)
  | services (t : RunTransition) (m : OutboxMessage) (intent : IsServicesIntent t.run m) :
      Sends l h db (.commitRunTransition t) m
  | post (t : RunTransition) (m : OutboxMessage) (post : IsPost t m) :
      Sends l h db (.commitRunTransition t) m

section sends

variable {l : Call} {h : Past} {db : Db} {t : Tx} {m : OutboxMessage}

theorem mem_runTransition_outbox {leader : Option LeaderTerm} {run : RunId} {from_ to_ : RunStatus}
    {at_ : Timestamp} {notify : Bool} {intents : List OutboxMessage}
    {preceding : List EventPayload} {generation : ℕ}
    (hm : m ∈ (runTransition leader run from_ to_ at_ notify intents preceding generation).outbox) :
    m ∈ intents ∨ IsPost
      (runTransition leader run from_ to_ at_ notify intents preceding generation) m := by
  simp only [runTransition, List.mem_append] at hm
  simp only [IsPost, RunTransition.posted, runTransition]
  generalize hposted : generation + (if from_.isTerminal then 1 else 0) = posted at hm
  rcases hm with hm | hm
  · exact .inl hm
  · right
    split_ifs at hm
    · rcases List.mem_append.mp hm with hm | hm
      · rw [List.mem_singleton] at hm
        exact .inl ⟨by rw [hm], by subst hposted hm; rfl⟩
      · rw [List.mem_singleton] at hm
        exact .inr ⟨by rw [hm], by subst hposted hm; rfl⟩
    · rw [List.append_nil, List.mem_singleton] at hm
      exact .inl ⟨by rw [hm], by subst hposted hm; rfl⟩
    · cases hm

theorem RunMove.sends {t : RunTransition} (hmove : RunMove l h t) (hm : m ∈ t.outbox) :
    Sends l h db (.commitRunTransition t) m := by
  cases hmove with
  | cancel leader run from_ at_ intent generation live steps services =>
    rcases mem_runTransition_outbox hm with hm | hpost
    · rw [List.mem_singleton] at hm
      exact .services _ m (hm ▸ services)
    · exact .post _ m hpost
  | start | resume | suspend | reopen | settle | overBudget | deadLetter | uncreated =>
    rcases mem_runTransition_outbox hm with hm | hpost
    · cases hm
    · exact .post _ m hpost

theorem StepMove.sends {t : StepTransition} (hmove : StepMove l h t) (hm : m ∈ t.outbox) :
    Sends l h db (.commitStepTransition t) m := by
  cases hmove with
  | rearm run target s by_ at_ reruns saw live known =>
    simp only [rearmCommit, Option.mem_toList, Option.map_eq_some_iff] at hm
    obtain ⟨a, ha, rfl⟩ := hm
    split_ifs at ha with hrun
    exact .supersede run target s by_ at_ a saw known hrun ha
  | cancel run s at_ saw live =>
    simp only [cancelCommit, Option.mem_toList, Option.map_eq_some_iff] at hm
    obtain ⟨a, ha, rfl⟩ := hm
    split_ifs at ha with hrun
    exact .cancel run s at_ a saw hrun ha
  | succeed | fail | retry | unneeded | revive | skip | unready | unchanged => cases hm

/-- Every message a backed commit queues is one of these. -/
theorem Backed.sends (hb : Backed l h (.write t)) (hm : m ∈ t.newMessages db) :
    Sends l h db t m := by
  cases t with
  | commitStepTransition t => exact StepMove.sends hb hm
  | commitRunTransition t => exact hb.1.sends hm
  | enqueueOutbox msg =>
    obtain ⟨id, claimed, intent, at_, hc, hp, hu, rfl⟩ := hb
    obtain rfl := List.mem_singleton.mp hm
    exact .late id claimed intent at_ hc hp hu
  | claimReadySteps leader limit now =>
    obtain ⟨s, hs, hm⟩ := List.mem_flatMap.mp hm
    have heq := (Db.mem_claimable hs).1
    obtain rfl := List.mem_singleton.mp hm
    have hatt : s.attempts = (db.steps s.run s.step).attempts.entries := by
      rw [heq]
      rfl
    have hsend := Sends.launch (l := l) (h := h) leader limit now s.run s.step (heq ▸ hs)
    rwa [Attempts.next, ← hatt] at hsend
  | _ => cases hm

/-- A launch message carries its Attempt's key. -/
theorem Sends.of_launchStep (hsend : Sends l h db t m) (hk : m.kind = .launchStep) :
    ∃ run step attempt, m.payload = .launch ⟨run, step, attempt⟩ ∧
      m.key = launchKey run step attempt := by
  cases hsend with
  | launch leader limit now run step listed => exact ⟨run, step, _, rfl, rfl⟩
  | cancel | supersede | late => cases hk
  | services t m intent =>
    rw [intent.2.1] at hk
    cases hk
  | post t m post => rcases post with ⟨h, -⟩ | ⟨h, -⟩ <;> simp [h] at hk

/-- A launch goes out with the claim that mints its Attempt. -/
theorem Db.claimed_of_listed {limit : ℕ} {now : Timestamp} {run : RunId} {step : StepId}
    (hs : { db.stepRun run step with status := .running } ∈ db.claimable limit) :
    ((db.claimable limit).foldl (Db.launchClaimed now) db).steps run step =
      Db.claimedRec now (db.steps run step) := by
  have hatt : ∀ s ∈ db.claimable limit,
      s.attempts = (db.steps s.run s.step).attempts.entries := by
    intro s hs
    rw [(Db.mem_claimable hs).1]
    rfl
  rcases Db.foldl_launchClaimed_steps hatt (fun run step => .inl rfl) run step with
    ⟨-, hno⟩ | ⟨heq, -⟩
  · exact absurd ⟨rfl, rfl⟩ (hno _ hs)
  · exact heq

theorem Db.launch_mem_newMessages (leader : LeaderTerm) (now : Timestamp) {limit : ℕ} {run : RunId}
    {step : StepId} (hs : { db.stepRun run step with status := .running } ∈ db.claimable limit) :
    ⟨run, .launchStep, .launch ⟨run, step, (db.steps run step).attempts.next⟩,
      launchKey run step (db.steps run step).attempts.next, now⟩ ∈
        (Tx.claimReadySteps leader limit now).newMessages db :=
  List.mem_flatMap.mpr ⟨_, hs, List.mem_singleton.mpr rfl⟩

/-- Only the claim that mints an Attempt queues a message under its launch key. -/
theorem Sends.of_launchKey (hsend : Sends l h db t m) {run : RunId} {step : StepId}
    {attempt : AttemptId} (hkey : m.key = launchKey run step attempt) :
    m.kind = .launchStep ∧ m.payload = .launch ⟨run, step, attempt⟩ ∧
      ∃ leader limit now, t = .claimReadySteps leader limit now ∧
        attempt = (db.steps run step).attempts.next ∧
        { db.stepRun run step with status := .running } ∈ db.claimable limit := by
  have hlabel : label m.key = "launch".toList := by rw [hkey, label_launchKey]
  cases hsend with
  | launch leader limit now run' step' listed =>
    obtain ⟨rfl, rfl, rfl⟩ := launchKey_inj hkey
    exact ⟨rfl, rfl, leader, limit, now, rfl, rfl, listed⟩
  | cancel | supersede | late =>
    simp [cancelAttemptIntent, supersedeTeardownIntent, lateLaunchTeardown] at hlabel
  | services t m intent =>
    obtain ⟨-, -, -, nonce, hk⟩ := intent
    simp [hk] at hlabel
  | post t m post =>
    rcases post with ⟨-, hk⟩ | ⟨-, hk⟩ <;> simp [hk] at hlabel

end sends

/-- What a transaction keeps of a row, and which ones retire or poison it. -/
structure OutboxEntry.Leads (t : Tx) (x y : OutboxEntry) : Prop where
  id : y.id = x.id
  msg : y.msg = x.msg
  dispatched : y.dispatched = x.dispatched ∨ t = .markDispatched x.id ∧ y.dispatched = true
  deadLettered : y.deadLettered = x.deadLettered ∨
    t = .deadLetterOutbox x.id ∧ y.deadLettered = true

theorem OutboxEntry.leads_refl (t : Tx) (x : OutboxEntry) : x.Leads t x :=
  ⟨rfl, rfl, .inl rfl, .inl rfl⟩

/-- A delivery-state update leads every row on when it does so for those it picks. -/
theorem Outbox.update_leads {t : Tx} {o : Outbox} {p : OutboxEntry → Bool}
    {f : OutboxEntry → OutboxEntry}
    (hf : ∀ x : OutboxEntry, p x = true → x.Leads t { f x with id := x.id, msg := x.msg }) :
    (∀ x ∈ o.entries, ∃ y ∈ (o.update p f).entries, x.Leads t y) ∧
      ∀ y ∈ (o.update p f).entries, ∃ x ∈ o.entries, x.Leads t y := by
  have hone : ∀ x : OutboxEntry, x.Leads t (if p x then { f x with id := x.id, msg := x.msg } else x) := by
    intro x
    split_ifs with hp
    · exact hf x hp
    · exact x.leads_refl t
  refine ⟨fun x hx => ⟨_, Outbox.mem_update_of_mem hx p f, hone x⟩, fun y hy => ?_⟩
  obtain ⟨x, hx, rfl⟩ := Outbox.mem_update hy
  exact ⟨x, hx, hone x⟩

section exec

variable {w : Answer} {db db' : Db} {t : Tx} {a : t.Ans}

theorem Tx.exec_delivery (h : t.exec w db = .ok (a, db')) (ht : t.isDelivery = true) :
    (∀ x ∈ db.outbox.entries, ∃ y ∈ db'.outbox.entries, x.Leads t y) ∧
      ∀ y ∈ db'.outbox.entries, ∃ x ∈ db.outbox.entries, x.Leads t y := by
  cases t with
  | claimOutbox owner kind limit =>
    obtain rfl : (db.claimOutbox owner kind limit w.lapsed).2 = db' :=
      congrArg Prod.snd (Except.ok.inj h)
    exact Outbox.update_leads fun x _ => ⟨rfl, rfl, .inl rfl, .inl rfl⟩
  | markDispatched id =>
    obtain rfl : db.setEntry id _ = db' := Except.ok.inj (Tx.done_eq_ok h)
    refine Outbox.update_leads fun x hx => ⟨rfl, rfl, .inr ⟨?_, rfl⟩, .inl rfl⟩
    rw [of_decide_eq_true hx]
  | recordOutboxFailure id =>
    obtain rfl : (db.recordOutboxFailure id).2 = db' := congrArg Prod.snd (Except.ok.inj h)
    exact Outbox.update_leads fun x _ => ⟨rfl, rfl, .inl rfl, .inl rfl⟩
  | deadLetterOutbox id =>
    obtain rfl : db.setEntry id _ = db' := Except.ok.inj (Tx.done_eq_ok h)
    refine Outbox.update_leads fun x hx => ⟨rfl, rfl, .inl rfl, .inr ⟨?_, rfl⟩⟩
    rw [of_decide_eq_true hx]
  | _ => simp [Tx.isDelivery] at ht

/-- A transaction leads every row on; what it adds is a new message, under a new key. -/
theorem Tx.exec_rows (h : t.exec w db = .ok (a, db')) :
    (∀ x ∈ db.outbox.entries, ∃ y ∈ db'.outbox.entries, x.Leads t y) ∧
      ∀ y ∈ db'.outbox.entries, (∃ x ∈ db.outbox.entries, x.Leads t y) ∨
        y.msg ∈ t.newMessages db ∧ y.pending = true ∧
          y.msg.key ∉ db.outbox.entries.map (·.msg.key) := by
  cases ht : t.isDelivery with
  | true =>
    obtain ⟨hkept, hback⟩ := Tx.exec_delivery h ht
    exact ⟨hkept, fun y hy => .inl (hback y hy)⟩
  | false =>
    rw [(Tx.exec_frame h).outbox ht]
    refine ⟨fun x hx => ⟨x, Outbox.mem_foldl_enqueue_of_mem _ hx, x.leads_refl t⟩, fun y hy => ?_⟩
    rcases Outbox.mem_foldl_enqueue hy with hold | hnew
    · exact .inl ⟨y, hold, y.leads_refl t⟩
    · exact .inr hnew

theorem Db.mem_claimOutbox {owner : Text} {kind : OutboxKind} {limit : ℕ} {lapsed : List ℕ}
    {id : ℕ} {msg : OutboxMessage} (h : (id, msg) ∈ (db.claimOutbox owner kind limit lapsed).1) :
    ∃ x ∈ db.outbox.entries, x.id = id ∧ x.msg = msg ∧ msg.kind = kind := by
  simp only [Db.claimOutbox, List.mem_map] at h
  obtain ⟨x, hx, heq⟩ := h
  obtain ⟨hmem, hfree⟩ := List.mem_filter.mp (List.mem_of_mem_take hx)
  obtain ⟨rfl, rfl⟩ := Prod.mk.inj heq
  simp only [Bool.and_eq_true, decide_eq_true_eq] at hfree
  exact ⟨x, hmem, rfl, rfl, hfree.1.2⟩

end exec
end Scarab.Engine

namespace Scarab.Interleave

open Engine

variable {cond : Config engine → Entry engine → Prop} {g g₁ : Config engine} {e : Entry engine}
  {db₀ : Db} {x y : OutboxEntry} {pid id : ℕ} {kind : OutboxKind} {msg : OutboxMessage}

/-- What a step of a run keeps of a row, and which ones retire or poison it. -/
structure Entry.Keeps (e : Entry engine) (x y : OutboxEntry) : Prop where
  id : y.id = x.id
  msg : y.msg = x.msg
  dispatched : y.dispatched = x.dispatched ∨
    e.Did (.markDispatched x.id) () ∧ y.dispatched = true
  deadLettered : y.deadLettered = x.deadLettered ∨
    e.Did (.deadLetterOutbox x.id) () ∧ y.deadLettered = true

theorem Entry.keeps_refl (e : Entry engine) (x : OutboxEntry) : e.Keeps x x :=
  ⟨rfl, rfl, .inl rfl, .inl rfl⟩

theorem Entry.Keeps.of_leads {t : Tx} {a : t.Ans} (hd : e.Did t a) (h : x.Leads t y) :
    e.Keeps x y := by
  refine ⟨h.id, h.msg, h.dispatched.imp_right fun ⟨ht, hy⟩ => ⟨?_, hy⟩,
    h.deadLettered.imp_right fun ⟨ht, hy⟩ => ⟨?_, hy⟩⟩
  · subst ht
    exact hd
  · subst ht
    exact hd

theorem Reach.row_kept (hr : Reach cond db₀ g) (hs : Step g e g₁)
    (hx : x ∈ g.db.outbox.entries) : ∃ y ∈ g₁.db.outbox.entries, e.Keeps x y := by
  rcases hr.step_cases hs with hsame | ⟨t, a, hc⟩
  · exact ⟨x, by rwa [hsame], e.keeps_refl x⟩
  · obtain ⟨w, hexec⟩ := hc.exec
    obtain ⟨y, hy, hl⟩ := (Tx.exec_rows hexec).1 x hx
    exact ⟨y, hy, .of_leads hc.did hl⟩

/-- A row was there before the step, or holds a message the step's commit queued. -/
theorem Reach.row_cases (hr : Reach cond db₀ g) (hs : Step g e g₁)
    (hy : y ∈ g₁.db.outbox.entries) :
    (∃ x ∈ g.db.outbox.entries, e.Keeps x y) ∨
      y.pending = true ∧ y.msg.key ∉ g.db.outbox.entries.map (·.msg.key) ∧
        ∃ t a l, e.Did t a ∧ StartedAs g.log e.pid l ∧ (∃ w, t.exec w g.db = .ok (a, g₁.db)) ∧
          Sends l (ownOf g.log e.pid) g.db t y.msg := by
  rcases hr.step_cases hs with hsame | ⟨t, a, hc⟩
  · exact .inl ⟨y, by rwa [← hsame], e.keeps_refl y⟩
  · obtain ⟨w, hexec⟩ := hc.exec
    obtain ⟨l, hl, hb⟩ := hc.backed
    rcases (Tx.exec_rows hexec).2 y hy with ⟨x, hx, hlead⟩ | ⟨hm, hp, hk⟩
    · exact .inl ⟨x, hx, .of_leads hc.did hlead⟩
    · exact .inr ⟨hp, hk, t, a, l, hc.did, hl, ⟨w, hexec⟩, hb.sends hm⟩

/-- A row stays, under its id, with its message. -/
theorem Reach.rows_kept (hr : Reach cond db₀ g) (hrun : Runs cond g g₁)
    (hx : x ∈ g.db.outbox.entries) :
    ∃ y ∈ g₁.db.outbox.entries, y.id = x.id ∧ y.msg = x.msg := by
  refine hrun.keeps (P := fun g' => ∃ y ∈ g'.db.outbox.entries, y.id = x.id ∧ y.msg = x.msg)
    (fun g' e g'' hpre hs _ ih => ?_) ⟨x, hx, rfl, rfl⟩
  obtain ⟨y, hy, hid, hmsg⟩ := ih
  obtain ⟨z, hz, hk⟩ := (hr.extend hpre).row_kept hs hy
  exact ⟨z, hz, hk.id.trans hid, hk.msg.trans hmsg⟩

/-- What holds of every message a commit queues holds of every row. -/
theorem Reach.of_sent {P : OutboxMessage → Prop} (hfresh : db₀.Fresh)
    (hP : ∀ (g : Config engine) pid t l m, Reach cond db₀ g →
      Sends l (ownOf g.log pid) g.db t m → P m)
    (hr : Reach cond db₀ g) (hx : x ∈ g.db.outbox.entries) : P x.msg := by
  induction hr generalizing x with
  | refl =>
    rw [show (Config.init db₀).db.outbox.entries = [] from hfresh.outbox] at hx
    cases hx
  | @tail g₁ g₂ e init hs hm ih =>
    have hr : Reach cond db₀ g₁ := init
    rcases hr.row_cases hs hx with ⟨y, hy, hk⟩ | ⟨-, -, t, a, l, -, -, -, hsend⟩
    · rw [hk.msg]
      exact ih hy
    · exact hP g₁ e.pid t l x.msg hr hsend

/-- The launch message under an Attempt's key is that Attempt's, and the Attempt exists. -/
theorem Reach.launch_row (hfresh : db₀.Fresh) (hr : Reach cond db₀ g)
    (hx : x ∈ g.db.outbox.entries) {run : RunId} {step : StepId} {attempt : AttemptId}
    (hkey : x.msg.key = launchKey run step attempt) :
    x.msg.kind = .launchStep ∧ x.msg.payload = .launch ⟨run, step, attempt⟩ ∧
      g.db.Minted run step attempt ∧ run ∈ g.db.runIds ∧ step ∈ g.db.stepIds run := by
  induction hr generalizing x with
  | refl =>
    rw [show (Config.init db₀).db.outbox.entries = [] from hfresh.outbox] at hx
    cases hx
  | @tail g₁ g₂ e init hs hm ih =>
    have hr : Reach cond db₀ g₁ := init
    rcases hr.row_cases hs hx with ⟨y, hy, hk⟩ | ⟨-, -, t, a, l, -, -, ⟨w, hexec⟩, hsend⟩
    · obtain ⟨h1, h2, h3, h4⟩ := ih hy (by rw [← hk.msg, hkey])
      rw [hk.msg, (hr.step_shape hs).1, (hr.step_shape hs).2.1]
      exact ⟨h1, h2, hr.minted (Runs.refl.tail hs hm) h3, h4⟩
    · obtain ⟨hkind, hpay, leader, limit, now, rfl, rfl, listed⟩ := hsend.of_launchKey hkey
      obtain ⟨-, hrun, hstep, -⟩ := Db.mem_claimable listed
      rw [(hr.step_shape hs).1, (hr.step_shape hs).2.1]
      refine ⟨hkind, hpay, ?_, hrun, hstep⟩
      have hrow : g₂.db.steps run step = Db.claimedRec now (g₁.db.steps run step) := by
        rw [(Db.claimReadySteps_ok hexec).2]
        exact Db.claimed_of_listed listed
      simp [Db.Minted, hrow, Db.claimedRec]

/-- The latest Attempt of a Running step has its launch message in the outbox. -/
theorem Reach.launch_queued (hfresh : db₀.Fresh) (hr : Reach cond db₀ g) {run : RunId}
    {step : StepId} (hst : (g.db.steps run step).status = .running) :
    ∃ attempt, (g.db.steps run step).attempts.frontier = some attempt ∧
      ∃ x ∈ g.db.outbox.entries, x.msg.key = launchKey run step attempt := by
  induction hr with
  | refl =>
    rw [show ((Config.init db₀).db.steps run step).status = .pending from
      (hfresh.steps run step).1] at hst
    cases hst
  | @tail g₁ g₂ e init hs hm ih =>
    have hr : Reach cond db₀ g₁ := init
    -- the row and its latest Attempt as they were, and the messages kept
    have hsame : (g₁.db.steps run step).status = .running →
        (g₂.db.steps run step).attempts.frontier = (g₁.db.steps run step).attempts.frontier →
        ∃ attempt, (g₂.db.steps run step).attempts.frontier = some attempt ∧
          ∃ x ∈ g₂.db.outbox.entries, x.msg.key = launchKey run step attempt := by
      intro hst hf
      obtain ⟨attempt, ha, x, hx, hkey⟩ := ih hst
      obtain ⟨y, hy, -, hmsg⟩ := hr.rows_kept (Runs.refl.tail hs hm) hx
      exact ⟨attempt, hf.trans ha, y, hy, by rw [hmsg, hkey]⟩
    rcases hr.step_row hs run step with heq | ⟨t, a, l, hd, -, hb, -, heff⟩
    · rw [heq] at hst
      exact hsame hst (by rw [heq])
    · generalize hrec : g₂.db.steps run step = r at heff hst hsame ⊢
      cases heff with
      | moved t hrun hstep from_ frontier => exact absurd hst (StepMove.to_ne_running hb)
      | promoted | waitOpened leader startedAt at_ pending => simp_all
      | resolved res attempt minted attempts pending wait =>
        simp only [Db.resolvedRec] at hst
        split_ifs at hst
      | claimed leader limit now ready listed =>
        obtain ⟨w, hexec⟩ := hs.write_eq hd
        refine ⟨(g₁.db.steps run step).attempts.next, by simp [Attempts.frontier, Db.claimedRec], ?_⟩
        have hkey := Outbox.key_mem_foldl_enqueue (o := g₁.db.outbox)
          (Db.launch_mem_newMessages leader now listed)
        rw [← (Tx.exec_frame hexec).outbox rfl] at hkey
        obtain ⟨x, hx, hkey⟩ := List.mem_map.mp hkey
        exact ⟨x, hx, hkey⟩
      | signed | output | results | ingested => exact hsame hst rfl
      | closed | failed => exact hsame hst (by simp)

/-- A message a call claimed is a row of the outbox, and of the kind claimed. -/
theorem Reach.claimed (hr : Reach cond db₀ g)
    (hc : Past.Claimed (ownOf g.log pid) kind id msg) :
    ∃ x ∈ g.db.outbox.entries, x.id = id ∧ x.msg = msg ∧ msg.kind = kind := by
  obtain ⟨owner, limit, msgs, hdid, hmem⟩ := hc
  obtain ⟨g₀, e, g₁, newer, hr₀, hs, hm, hrun, -, -, hw⟩ := hr.moment hdid
  obtain ⟨w, hexec⟩ := hs.write_eq hw
  have hans : (g₀.db.claimOutbox owner kind limit w.lapsed).1 = msgs :=
    congrArg Prod.fst (Except.ok.inj hexec)
  rw [← hans] at hmem
  obtain ⟨x, hx, rfl, rfl, hk⟩ := Db.mem_claimOutbox hmem
  obtain ⟨y, hy, hid, hmsg⟩ := hr₀.rows_kept (Runs.refl.tail hs hm |>.trans hrun) hx
  exact ⟨y, hy, hid, hmsg, hk⟩

/-- A claimed launch message carries the key of the Attempt it launches. -/
theorem Reach.claimed_launch (hfresh : db₀.Fresh) (hr : Reach cond db₀ g) {intent : LaunchIntent}
    (hc : Past.Claimed (ownOf g.log pid) .launchStep id msg) (hp : msg.payload = .launch intent) :
    msg.key = launchKey intent.run intent.step intent.attempt := by
  obtain ⟨y, hy, -, rfl, hk⟩ := hr.claimed hc
  obtain ⟨run, step, attempt, hpay, hkey⟩ := Reach.of_sent
    (P := fun m => m.kind = .launchStep → ∃ run step attempt,
      m.payload = .launch ⟨run, step, attempt⟩ ∧ m.key = launchKey run step attempt)
    hfresh (fun _ _ _ _ _ _ hsend => hsend.of_launchStep) hr hy hk
  rw [hpay] at hp
  cases hp
  exact hkey

/-- A draining call claims its messages first: whatever else it exchanged came later. -/
theorem Reach.claimed_before (hr : Reach cond db₀ g) (hk : kind ≠ .cancelRun)
    (hc : Past.Claimed (ownOf g.log pid) kind id msg) {x : Exchange Cmd Resp}
    (hx : x ∈ ownOf g.log pid) (hne : ∀ owner limit, x.1 ≠ .write (.claimOutbox owner kind limit)) :
    ∃ g₀ e g₁ newer, Reach cond db₀ g₀ ∧ Step g₀ e g₁ ∧ cond g₀ e ∧ Runs cond g₁ g ∧
      g.log = newer ++ e :: g₀.log ∧ e.pid = pid ∧ e.what = .did x.1 x.2 ∧
      Past.Claimed (ownOf g₀.log pid) kind id msg := by
  obtain ⟨owner, limit, msgs, hdid, hmem⟩ := hc
  obtain ⟨h₁, h₂, hsplit⟩ := List.append_of_mem hdid
  obtain ⟨g₀, e, g₁, newer, hr₀, hs, -, -, -, hp, hw, -, hown⟩ := hr.moment_split hsplit
  obtain ⟨l, -, hb⟩ := hs.justified hr₀.backed hw
  have hnil : h₂ = [] := by
    rw [← hown, ← hp]
    exact hb.resolve_left hk
  rw [hnil] at hsplit
  have hx' : x ∈ h₁ := by
    rw [hsplit] at hx
    rcases List.mem_append.mp hx with hx | hx
    · exact hx
    · rw [List.mem_singleton] at hx
      exact absurd (congrArg Sigma.fst hx) (hne owner limit)
  obtain ⟨n₁, n₂, rfl⟩ := List.append_of_mem hx'
  rw [List.append_assoc, List.cons_append] at hsplit
  obtain ⟨g₀, e, g₁, newer, hr₀, hs, hm, hrun, hlog, hp, hw, -, hown⟩ := hr.moment_split hsplit
  refine ⟨g₀, e, g₁, newer, hr₀, hs, hm, hrun, hlog, hp, hw, owner, limit, msgs, ?_, hmem⟩
  rw [Past.Did, hown]
  simp

end Scarab.Interleave

namespace Scarab.Engine

open Interleave

/-- The Attempt was minted, and is not the in-flight one of a live run. -/
def Db.Abandoned (db : Db) (run : RunId) (step : StepId) (attempt : AttemptId) : Prop :=
  db.Minted run step attempt ∧
    (¬db.InFlight run step attempt ∨ (db.runs run).isTerminal = true)

/-- The step brings a run back while one of its Attempts is in flight. -/
def ReopensInFlight (run : RunId) (g : Config engine) (e : Entry engine) : Prop :=
  (g.db.runs run).isTerminal = true ∧ (e.post.runs run).isTerminal = false ∧
    ∃ step attempt, g.db.InFlight run step attempt

variable {run : RunId} {step : StepId} {attempt : AttemptId} {db : Db}

theorem Db.not_inFlight_of_wantedIn (hstep : step ∈ db.stepIds run)
    (hw : Past.wantedIn (db.stepsOfRun run) step attempt = false) :
    ¬db.InFlight run step attempt := by
  rintro ⟨hst, a, hl, hid, ho⟩
  have hlast : (db.steps run step).attempts.entries.getLast? = some a := hl
  simp [Past.wantedIn, find?_stepsOfRun hstep, Db.stepRun, hst, hlast, hid, ho] at hw

theorem Db.not_inFlight_of_stale (hs : staleObservation (db.attemptsOfStep run step) attempt = true)
    (hstep : step ∈ db.stepIds run) : ¬db.InFlight run step attempt := by
  rintro ⟨hst, a, hl, rfl, ho⟩
  have hlast : (db.steps run step).attempts.entries.getLast? = some a := hl
  have hfind := Attempts.find?_eq_some.mpr ⟨Attempts.last?_mem hl, rfl⟩
  rw [Attempts.find?] at hfind
  simp [staleObservation, Db.attemptsOfStep, hstep, hlast, hfind, ho,
    AttemptOutcome.byIntent] at hs

/-- A refused verdict on an Attempt found it no longer in flight. -/
theorem Db.not_inFlight_of_refused {t : StepTransition} {e : DbError}
    (h : db.commitStepTransition t = .error e) (hrun : t.run = run) (hs : t.step = step)
    (hfrom : t.from_ = .running) (hf : t.frontier = .is (some attempt))
    (hstep : step ∈ db.stepIds run) : ¬db.InFlight run step attempt := by
  subst hrun hs
  rintro ⟨hst, a, hl, hid, -⟩
  rcases Db.commitStepTransition_error h with hno | hno | ⟨x, hx, hno⟩
  · exact hno hstep
  · exact hno (hst.trans hfrom.symm)
  · rw [hf] at hx
    cases hx
    exact hno (Attempts.frontier_eq_some.mpr ⟨a, hl, hid⟩)

end Scarab.Engine

namespace Scarab.Interleave

open Engine

variable {cond : Config engine → Entry engine → Prop} {g g₁ : Config engine} {e : Entry engine}
  {db₀ : Db} {pid id : ℕ} {msg : OutboxMessage} {run : RunId} {step : StepId}
  {attempt : AttemptId}

/-- While no run is brought back over an in-flight Attempt, an abandoned one stays so. -/
theorem Reach.abandoned (hcond : ∀ g e, cond g e → ¬ReopensInFlight run g e)
    (hr : Reach cond db₀ g) (hrun : Runs cond g g₁) (ha : g.db.Abandoned run step attempt) :
    g₁.db.Abandoned run step attempt := by
  refine hrun.keeps (P := fun g' => g'.db.Abandoned run step attempt)
    (fun g' e g'' hpre hs hc ih => ?_) ha
  have hr' := hr.extend hpre
  refine ⟨hr'.minted (Runs.refl.tail hs hc) ih.1, ?_⟩
  by_cases hf : g''.db.InFlight run step attempt
  · have hf' := hr'.step_inFlight hs ih.1 hf
    have hterm := ih.2.resolve_left (not_not_intro hf')
    right
    by_contra hlive
    refine hcond g' e hc ⟨hterm, ?_, step, attempt, hf'⟩
    rw [Entry.post, hs.after_eq]
    simpa using hlive
  · exact .inl hf

/-- What a delivery of a launch message claimed before it looked at the Attempt. -/
theorem Reach.at_delivery (hfresh : db₀.Fresh) (hr : Reach cond db₀ g)
    (hc : Past.Claimed (ownOf g.log pid) .launchStep id msg)
    (hk : msg.key = launchKey run step attempt) {x : Exchange Cmd Resp}
    (hx : x ∈ ownOf g.log pid)
    (hne : ∀ owner limit, x.1 ≠ .write (.claimOutbox owner .launchStep limit)) :
    ∃ g₀ e g₁, Reach cond db₀ g₀ ∧ Step g₀ e g₁ ∧ cond g₀ e ∧ Runs cond g₁ g ∧
      e.what = .did x.1 x.2 ∧ g₀.db.Minted run step attempt ∧ run ∈ g₀.db.runIds ∧
      step ∈ g₀.db.stepIds run := by
  obtain ⟨g₀, e, g₁, newer, hr₀, hs, hm, hrun, -, -, hw, hc₀⟩ :=
    hr.claimed_before (by simp) hc hx hne
  obtain ⟨y, hy, -, hmsg, -⟩ := hr₀.claimed hc₀
  obtain ⟨-, -, hmint, hrun', hstep⟩ := hr₀.launch_row hfresh hy (by rw [hmsg, hk])
  exact ⟨g₀, e, g₁, hr₀, hs, hm, hrun, hw, hmint, hrun', hstep⟩

/-- The Attempt was abandoned at some state before this one. -/
def WasAbandoned (cond : Config engine → Entry engine → Prop) (db₀ : Db) (g : Config engine)
    (run : RunId) (step : StepId) (attempt : AttemptId) : Prop :=
  ∃ g₀, Reach cond db₀ g₀ ∧ Runs cond g₀ g ∧ g₀.db.Abandoned run step attempt

theorem Reach.unwanted (hfresh : db₀.Fresh) (hr : Reach cond db₀ g)
    (hc : Past.Claimed (ownOf g.log pid) .launchStep id msg)
    (hk : msg.key = launchKey run step attempt)
    (hu : Past.Unwanted (ownOf g.log pid) run step attempt) :
    WasAbandoned cond db₀ g run step attempt := by
  cases hu with
  | moved steps saw gone =>
    obtain ⟨g₀, e, g₁, hr₀, hs, hm, hrun, hw, hmint, -, hstep⟩ :=
      hr.at_delivery hfresh hc hk saw (by simp)
    obtain ⟨rfl, -⟩ := hs.read_eq hw
    exact ⟨g₀, hr₀, (Runs.refl.tail hs hm).trans hrun, hmint,
      .inl (Db.not_inFlight_of_wantedIn hstep gone)⟩
  | settled status saw ended =>
    obtain ⟨g₀, e, g₁, hr₀, hs, hm, hrun, hw, hmint, hknown, -⟩ :=
      hr.at_delivery hfresh hc hk saw (by simp)
    obtain ⟨rfl, -⟩ := hs.read_eq hw
    refine ⟨g₀, hr₀, (Runs.refl.tail hs hm).trans hrun, hmint, .inr ?_⟩
    simpa [Query.eval, Db.runStatus, hknown] using ended

theorem Reach.leftBehind (hfresh : db₀.Fresh) (hr : Reach cond db₀ g)
    (hc : Past.Claimed (ownOf g.log pid) .launchStep id msg)
    (hk : msg.key = launchKey run step attempt)
    (hl : Past.LeftBehind (ownOf g.log pid) run step attempt) :
    WasAbandoned cond db₀ g run step attempt := by
  -- a verdict that landed moved the step off Running; one that was refused found it gone
  have htried : ∀ t : StepTransition, t.run = run → t.step = step → t.from_ = .running →
      t.to_ ≠ .running → t.frontier = .is (some attempt) →
      Past.Did (ownOf g.log pid) (.commitStepTransition t) () ∨
        Past.Lost (ownOf g.log pid) (.commitStepTransition t) →
      WasAbandoned cond db₀ g run step attempt := by
    intro t hrun hs hfrom hto hf htried
    subst hrun hs
    rcases htried with hdid | hlost
    · obtain ⟨g₀, e, g₁, hr₀, hs, hm, hrun, hw, hmint, -, hstep⟩ :=
        hr.at_delivery hfresh hc hk hdid (by simp)
      obtain ⟨w, hexec⟩ := hs.write_eq hw
      obtain ⟨-, -, -, hpost⟩ := Db.commitStepTransition_ok (Tx.done_eq_ok hexec)
      refine ⟨g₁, hr₀.next hs hm, hrun, hr₀.minted (Runs.refl.tail hs hm) hmint,
        .inl fun hfl => hto ?_⟩
      have hst := hfl.1
      rw [hpost] at hst
      simpa [Db.journal] using hst
    · obtain ⟨g₀, e, g₁, hr₀, hs, hm, hrun, hw, hmint, -, hstep⟩ :=
        hr.at_delivery hfresh hc hk hlost (by simp)
      obtain ⟨⟨w, hexec⟩, -⟩ := hs.lost_eq hw
      refine ⟨g₀, hr₀, (Runs.refl.tail hs hm).trans hrun, hmint, .inl ?_⟩
      exact Db.not_inFlight_of_refused (Tx.done_eq_error hexec) rfl rfl hfrom hf hstep
  cases hl with
  | finalized to_ failure cause at_ ends tried =>
    refine htried _ rfl rfl rfl ?_ rfl tried
    rcases ends with rfl | rfl <;> simp [finalizeCommit]
  | retried kind cause at_ tried => exact htried _ rfl rfl rfl (by simp [rearmStepCommit]) rfl tried
  | stale attempts saw old =>
    obtain ⟨g₀, e, g₁, hr₀, hs, hm, hrun, hw, hmint, -, hstep⟩ :=
      hr.at_delivery hfresh hc hk saw (by simp)
    obtain ⟨rfl, -⟩ := hs.read_eq hw
    exact ⟨g₀, hr₀, (Runs.refl.tail hs hm).trans hrun, hmint,
      .inl (Db.not_inFlight_of_stale old hstep)⟩

/-- A launch message is retired only once its Attempt has been abandoned. -/
theorem Reach.retired (hfresh : db₀.Fresh) (hr : Reach cond db₀ g)
    (hc : Past.Claimed (ownOf g.log pid) .launchStep id msg)
    (hk : msg.key = launchKey run step attempt)
    (hret : Past.Retired (ownOf g.log pid) run step attempt) :
    WasAbandoned cond db₀ g run step attempt := by
  cases hret with
  | unwanted no late => exact hr.unwanted hfresh hc hk no
  | refused no left => exact hr.leftBehind hfresh hc hk left
  | polled st polled left => exact hr.leftBehind hfresh hc hk left

end Scarab.Interleave
