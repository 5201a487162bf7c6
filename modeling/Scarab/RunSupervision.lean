import Scarab.EngineMessages

/-!
# A Running step is supervised

The launch message of the latest Attempt is what keeps a Running step watched. A delivery
retires it only once it has seen the Attempt abandoned; the poison path and a reopened run
are the two ways to lose it early.
-/
namespace Scarab.Engine

open Interleave

variable {run : RunId} {step : StepId} {attempt : AttemptId} {db₀ : Db} {g : Config engine}

/-- A Running step of a live run has a latest Attempt, which is over or still has its launch
message waiting for delivery. -/
def Supervised (run : RunId) (db : Db) : Prop :=
  ∀ step, (db.steps run step).gateKind = none → (db.steps run step).status = .running →
    (db.runs run).isTerminal = false →
    ∃ a, (db.steps run step).attempts.last? = some a ∧
      (a.outcome ≠ .running ∨ ∃ x ∈ db.outbox.entries, x.msg.kind = .launchStep ∧
        x.msg.key = launchKey run step a.id ∧ x.dispatched = false ∧ x.deadLettered = false)

/-- The steps under which every Running step stays supervised. -/
structure KeepsSupervised (run : RunId) (g : Config engine) (e : Entry engine) : Prop where
  poison : ∀ x ∈ g.db.outbox.entries, e.Did (.deadLetterOutbox x.id) () → ∀ step attempt,
    x.msg.key = launchKey run step attempt → g.db.InFlight run step attempt →
      (g.db.runs run).isTerminal = true
  reopen : ¬ReopensInFlight run g e

theorem OutboxEntry.pending_eq_true {x : OutboxEntry} :
    x.pending = true ↔ x.dispatched = false ∧ x.deadLettered = false := by
  simp [OutboxEntry.pending]

/-- Retiring the launch message of an Attempt shows the Attempt abandoned. -/
theorem abandoned_of_dispatched {e : Entry engine} {g₁ : Config engine} {x : OutboxEntry}
    (hfresh : db₀.Fresh) (hr : Reach (KeepsSupervised run) db₀ g) (hs : Step g e g₁)
    (hx : x ∈ g.db.outbox.entries) (hkey : x.msg.key = launchKey run step attempt)
    (hd : e.Did (.markDispatched x.id) ()) : g.db.Abandoned run step attempt := by
  obtain ⟨hkind, hpay, -⟩ := hr.launch_row hfresh hx hkey
  obtain ⟨l, -, hb⟩ := hs.justified hr.backed hd
  -- the row retired is the message the call claimed
  have hclaimed : ∀ kind msg, Past.Claimed (ownOf g.log e.pid) kind x.id msg →
      msg = x.msg ∧ kind = .launchStep := by
    intro kind msg hc
    obtain ⟨y, hy, hid, rfl, hk⟩ := hr.claimed hc
    obtain rfl := Outbox.eq_of_id hy hx hid
    exact ⟨rfl, hk.symm.trans hkind⟩
  cases hb with
  | launch msg intent claimed payload ended =>
    obtain ⟨rfl, -⟩ := hclaimed _ _ claimed
    rw [hpay] at payload
    cases payload
    obtain ⟨g₀, hr₀, hrun, hab⟩ := hr.retired hfresh claimed hkey ended
    exact hr₀.abandoned (fun g e hk => hk.reopen) hrun hab
  | teardown msg kind items named claimed =>
    obtain ⟨-, rfl⟩ := hclaimed _ _ claimed
    rcases named with h | h <;> cases h
  | services msg claimed => cases (hclaimed _ _ claimed).2

/-- A launch message that is no longer pending belongs to an abandoned Attempt. -/
theorem abandoned_of_retired (hfresh : db₀.Fresh) (hr : Reach (KeepsSupervised run) db₀ g)
    {x : OutboxEntry} (hx : x ∈ g.db.outbox.entries)
    (hkey : x.msg.key = launchKey run step attempt) (hp : x.pending = false) :
    g.db.Abandoned run step attempt := by
  induction hr generalizing x with
  | refl =>
    rw [show (Config.init db₀).db.outbox.entries = [] from hfresh.outbox] at hx
    cases hx
  | @tail g₁ g₂ e init hs hm ih =>
    have hr : Reach (KeepsSupervised run) db₀ g₁ := init
    suffices g₁.db.Abandoned run step attempt from
      hr.abandoned (fun g e hk => hk.reopen) (Runs.refl.tail hs hm) this
    rcases hr.row_cases hs hx with ⟨y, hy, hk⟩ | ⟨hpend, -⟩
    · have hykey : y.msg.key = launchKey run step attempt := by rw [← hk.msg, hkey]
      cases hyp : y.pending with
      | false => exact ih hy hykey hyp
      | true =>
        obtain ⟨hy1, hy2⟩ := OutboxEntry.pending_eq_true.mp hyp
        rcases hk.dispatched with hsame | ⟨hd, -⟩
        · rcases hk.deadLettered with hsame' | ⟨hd, -⟩
          · simp [OutboxEntry.pending, hsame, hsame', hy1, hy2] at hp
          · obtain ⟨-, -, hmint, -⟩ := hr.launch_row hfresh hy hykey
            refine ⟨hmint, ?_⟩
            by_cases hf : g₁.db.InFlight run step attempt
            · exact .inr (hm.poison y hy hd step attempt hykey hf)
            · exact .inl hf
        · exact abandoned_of_dispatched hfresh hr hs hy hykey hd
    · rw [hpend] at hp
      cases hp

/-- While no launch message is poisoned under an in-flight Attempt of a live run and no run
is brought back over one, every Running step is supervised. -/
theorem supervised_of_keepsSupervised (hfresh : db₀.Fresh)
    (hr : Reach (KeepsSupervised run) db₀ g) : Supervised run g.db := by
  intro step _ hst hlive
  obtain ⟨attempt, hf, x, hx, hkey⟩ := hr.launch_queued hfresh hst
  obtain ⟨a, hl, rfl⟩ := Attempts.frontier_eq_some.mp hf
  refine ⟨a, hl, ?_⟩
  by_cases ho : a.outcome = .running
  · right
    refine ⟨x, hx, (hr.launch_row hfresh hx hkey).1, hkey, OutboxEntry.pending_eq_true.mp ?_⟩
    by_contra hp
    obtain ⟨-, hno | hterm⟩ := abandoned_of_retired hfresh hr hx hkey (by simpa using hp)
    · exact hno ⟨hst, a, hl, rfl, ho⟩
    · simp [hlive] at hterm
  · exact .inl ho

/-- The step poisons no message and brings no run back. -/
def steady (e : Entry engine) : Bool :=
  match e.what with
  | .did (.write (.deadLetterOutbox _)) _ => false
  | .did (.write (.commitRunTransition t)) _ => !t.from_.isTerminal
  | _ => true

theorem not_reopens_of_steady {cond : Config engine → Entry engine → Prop}
    {e : Entry engine} {g₁ : Config engine} (hr : Reach cond db₀ g) (hs : Step g e g₁)
    (he : steady e = true) (run : RunId) : ¬ReopensInFlight run g e := by
  rintro ⟨hterm, hlive, -⟩
  rw [Entry.post, hs.after_eq] at hlive
  rcases hr.step_run hs run with ⟨hsame, -⟩ | ⟨t, l, hd, -, -, -, hfrom, -⟩
  · rw [← hsame] at hterm
    exact absurd hterm (by simpa using hlive)
  · simp [steady, hd, ← hfrom, hterm] at he

theorem keepsSupervised_of_steady (run : RunId) (hr : Reach (fun _ _ => True) db₀ g)
    (hlog : ∀ e ∈ g.log, steady e = true) : Reach (KeepsSupervised run) db₀ g := by
  refine hr.of_log hlog fun g e g₁ hg hs _ he =>
    ⟨fun x _ hd => ?_, not_reopens_of_steady hg hs he run⟩
  simp [steady, hd] at he

/-- A step whose unit is still running, and whose message waits for the next delivery. -/
theorem supervised_of_keepsSupervised_running : ∃ g, Reach (KeepsSupervised runR) oneStepDb g ∧
    g.db.runs runR = .running ∧ (g.db.steps runR stepA).status = .running ∧
    Supervised runR g.db := by
  obtain ⟨g, hg, htest⟩ := Reach.of_play (M := engine) oneStepDb
    [.start (.admitRun plainConfig [] runR), .runOut 0 60 (calm .running none),
      .start (.reconcile plainConfig []), .runOut 1 60 (calm .running none)]
    (fun g => g.log.all steady && decide (g.db.runs runR = .running ∧
      (g.db.steps runR stepA).status = .running)) (by decide +kernel)
  simp only [Bool.and_eq_true, List.all_eq_true, decide_eq_true_eq] at htest
  have hr := keepsSupervised_of_steady runR hg htest.1
  exact ⟨g, hr, htest.2.1, htest.2.2, supervised_of_keepsSupervised (createdDb_fresh _ _ _) hr⟩

/-- Every launch fails, and the claim on the message has lapsed before each delivery. -/
def launchFails : Answer where
  fault := none
  expired := false
  lapsed := [2]
  reply
    | .launch _ _ _ _ => ⟨false, .error .unavailable⟩
    | q => calmReply .running none q

/-- One delivery that fails to launch. -/
def failedDelivery (pid : ℕ) : List (Move engine) :=
  [.start (.reconcile plainConfig []), .runOut pid 60 launchFails]

/-- The tenth failed delivery poisons the launch message; a crash before the run is
dead-lettered leaves the step Running with nothing to watch it. -/
theorem not_supervised_after_poison :
    ¬∀ (db₀ : Db) (run : RunId) (g : Config engine), db₀.Fresh →
      Reach (fun _ _ => True) db₀ g → Supervised run g.db := by
  intro hall
  obtain ⟨g, hg, htest⟩ := Reach.of_play (M := engine) oneStepDb
    ([.start (.admitRun plainConfig [] runR), .runOut 0 60 (calm .running none)] ++
      (List.range' 1 9).flatMap failedDelivery ++
      [.start (.reconcile plainConfig []), .acts 10 14 launchFails, .crash 10])
    (fun g => decide (g.db.runs runR = .running ∧
      (g.db.steps runR stepA).gateKind = none ∧ (g.db.steps runR stepA).status = .running ∧
      (g.db.steps runR stepA).attempts.entries.all (·.outcome = .running) ∧
      g.db.outbox.entries.all fun x => x.msg.kind = .launchStep → x.deadLettered))
    (by decide +kernel)
  simp only [decide_eq_true_eq, List.all_eq_true] at htest
  obtain ⟨hrun, hgate, hst, hout, hdead⟩ := htest
  obtain ⟨a, hl, hno | ⟨x, hx, hkind, -, -, hx'⟩⟩ :=
    hall oneStepDb runR g (createdDb_fresh _ _ _) hg stepA hgate hst (by rw [hrun]; rfl)
  · exact hno (hout a (Attempts.last?_mem hl))
  · simp [hdead x hx hkind] at hx'

end Scarab.Engine
