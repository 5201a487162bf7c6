import Scarab.JournalReplay
import Scarab.EngineMessages

/-!
# One launch message for each Attempt

Every Attempt of a step that is no gate has one launch message in the outbox, and no other launch
message is ever there.
-/
namespace Scarab.Engine

open Interleave

theorem Db.minted_iff {db : Db} {run : RunId} {step : StepId} {attempt : AttemptId} :
    db.Minted run step attempt ↔
      1 ≤ attempt.num ∧ attempt.num ≤ (db.steps run step).attempts.entries.length := by
  constructor
  · rintro ⟨a, ha, rfl⟩
    exact Attempts.num_bounds ha
  · rintro ⟨h1, h2⟩
    have hi : attempt.num - 1 < (db.steps run step).attempts.entries.length := by omega
    refine ⟨_, List.getElem_mem hi, ?_⟩
    have hnum := (db.steps run step).attempts.num_getElem hi
    obtain ⟨n⟩ := attempt
    generalize (db.steps run step).attempts.entries[n - 1] = a at hnum
    obtain ⟨⟨m⟩, _, _, _, _⟩ := a
    simp only [AttemptId.mk.injEq]
    simp only at hnum h1
    omega

/-- The launch messages of a store are those of the Attempts of its steps, one for each, under the
key of that Attempt. -/
structure LaunchedOnce (db₀ : Db) (db : Db) : Prop where
  named : ∀ x ∈ db.outbox.entries, x.msg.kind = .launchStep → ∃ run step attempt,
    x.msg.payload = .launch ⟨run, step, attempt⟩ ∧ x.msg.key = launchKey run step attempt ∧
      db.Minted run step attempt ∧ (db₀.steps run step).gateKind = none
  queued : ∀ run step attempt, db.Minted run step attempt → (db₀.steps run step).gateKind = none →
    ∃ x ∈ db.outbox.entries, x.msg.kind = .launchStep ∧
      x.msg.payload = .launch ⟨run, step, attempt⟩ ∧ x.msg.key = launchKey run step attempt
  once : ∀ x ∈ db.outbox.entries, ∀ y ∈ db.outbox.entries, x.msg.kind = .launchStep →
    y.msg.kind = .launchStep → x.msg.payload = y.msg.payload → x = y

variable {cond : Config engine → Entry engine → Prop} {g g₁ : Config engine} {e : Entry engine}
  {db₀ : Db}

/-- A launch message carries the key of an Attempt of a step that is no gate. -/
theorem launch_named (hfresh : db₀.Fresh) (hr : Reach cond db₀ g) {x : OutboxEntry}
    (hx : x ∈ g.db.outbox.entries) (hk : x.msg.kind = .launchStep) : ∃ run step attempt,
      x.msg.payload = .launch ⟨run, step, attempt⟩ ∧ x.msg.key = launchKey run step attempt ∧
        (db₀.steps run step).gateKind = none := by
  refine hr.of_sent (P := fun m => m.kind = .launchStep → ∃ run step attempt,
    m.payload = .launch ⟨run, step, attempt⟩ ∧ m.key = launchKey run step attempt ∧
      (db₀.steps run step).gateKind = none) hfresh (fun g' pid t l m hr' hsend hk' => ?_) hx hk
  cases hsend with
  | launch leader limit now run step listed =>
    obtain ⟨-, -, -, hready⟩ := Db.mem_claimable listed
    exact ⟨run, step, _, rfl, rfl, hr'.not_gate hfresh (.inl hready)⟩
  | cancel | supersede | late => cases hk'
  | services t m intent =>
    rw [intent.2.1] at hk'
    cases hk'
  | post t m post => rcases post with ⟨h, -⟩ | ⟨h, -⟩ <;> simp [h] at hk'

/-- A step mints an Attempt of a step that is no gate only by claiming it. -/
theorem minted_cases (hr : Reach cond db₀ g) (hs : Step g e g₁) {run : RunId} {step : StepId}
    (hgate : (db₀.steps run step).gateKind = none) {attempt : AttemptId}
    (hm : g₁.db.Minted run step attempt) : g.db.Minted run step attempt ∨
      ∃ leader limit now a, e.Did (.claimReadySteps leader limit now) a ∧
        attempt = (g.db.steps run step).attempts.next ∧
        { g.db.stepRun run step with status := .running } ∈ g.db.claimable limit := by
  rw [Db.minted_iff] at hm ⊢
  rcases hr.step_row hs run step with hsame | ⟨t, a, l, hd, -, hb, -, heff⟩
  · rw [hsame] at hm
    exact .inl hm
  · generalize g₁.db.steps run step = r at heff hm
    cases heff with
    | moved t hrun hstep from_ frontier => exact .inl (by simpa using hm)
    | promoted | signed | output | results | ingested => exact .inl hm
    | claimed leader limit now ready listed =>
      simp only [Db.claimedRec, Attempts.entries_record_next, List.length_append,
        List.length_singleton] at hm
      by_cases hlast : attempt.num ≤ (g.db.steps run step).attempts.entries.length
      · exact .inl ⟨hm.1, hlast⟩
      · have hnext : attempt.num = (g.db.steps run step).attempts.entries.length + 1 := by omega
        obtain ⟨n⟩ := attempt
        exact .inr ⟨leader, limit, now, a, hd, congrArg AttemptId.mk hnext, listed⟩
    | waitOpened leader startedAt at_ pending closed => exact absurd hgate (hr.sawGate hb)
    | resolved res attempt' minted attempts pending wait =>
      obtain ⟨steps, gate, hsaw, hmem, rfl, hg, -⟩ := hb
      rw [← hr.sawStep_isGate ⟨steps, hsaw, hmem⟩] at hgate
      simp [StepRun.isGate, hgate] at hg
    | closed | failed => exact .inl (by simpa using hm)

theorem launch_queued (hfresh : db₀.Fresh) (hr : Reach cond db₀ g) {run : RunId} {step : StepId}
    (hgate : (db₀.steps run step).gateKind = none) {attempt : AttemptId}
    (hm : g.db.Minted run step attempt) :
    ∃ x ∈ g.db.outbox.entries, x.msg.key = launchKey run step attempt := by
  induction hr with
  | refl =>
    obtain ⟨-, hat, -⟩ := hfresh.steps run step
    obtain ⟨a, ha, -⟩ := hm
    have hnil : ((Config.init db₀).db.steps run step).attempts.entries = [] := hat
    rw [hnil] at ha
    cases ha
  | @tail g₁ g₂ e init hs hc ih =>
    have hr : Reach cond db₀ g₁ := init
    rcases minted_cases hr hs hgate hm with hold | ⟨leader, limit, now, a, hd, rfl, listed⟩
    · obtain ⟨x, hx, hkey⟩ := ih hold
      obtain ⟨y, hy, hkept⟩ := hr.row_kept hs hx
      exact ⟨y, hy, by rw [hkept.msg, hkey]⟩
    · obtain ⟨w, hexec⟩ := hs.write_eq hd
      have hkey := Outbox.key_mem_foldl_enqueue (o := g₁.db.outbox)
        (Db.launch_mem_newMessages leader now listed)
      rw [← (Tx.exec_frame hexec).outbox rfl] at hkey
      obtain ⟨x, hx, hkey⟩ := List.mem_map.mp hkey
      exact ⟨x, hx, hkey⟩

/-- Whatever interleaves, each Attempt of a step that is no gate has exactly one launch message in
the outbox, from the claim that minted it on, and no launch message names anything else. -/
theorem launchedOnce (hfresh : db₀.Fresh) (hr : Reach cond db₀ g) : LaunchedOnce db₀ g.db where
  named x hx hk := by
    obtain ⟨run, step, attempt, hpay, hkey, hgate⟩ := launch_named hfresh hr hx hk
    exact ⟨run, step, attempt, hpay, hkey, (hr.launch_row hfresh hx hkey).2.2.1, hgate⟩
  queued run step attempt hm hgate := by
    obtain ⟨x, hx, hkey⟩ := launch_queued hfresh hr hgate hm
    obtain ⟨hkind, hpay, -⟩ := hr.launch_row hfresh hx hkey
    exact ⟨x, hx, hkind, hpay, hkey⟩
  once x hx y hy hkx hky hpay := by
    obtain ⟨run, step, attempt, hpx, hkeyx, -⟩ := launch_named hfresh hr hx hkx
    obtain ⟨run', step', attempt', hpy, hkeyy, -⟩ := launch_named hfresh hr hy hky
    rw [hpx, hpy] at hpay
    obtain ⟨rfl, rfl, rfl⟩ : run = run' ∧ step = step' ∧ attempt = attempt' := by
      simpa using hpay
    exact Outbox.eq_of_key hx hy (hkeyx.trans hkeyy.symm)

/-- The step runs, is rerun and runs again: two Attempts, two launch messages. -/
theorem launchedOnce_twice : ∃ g, Reach (fun _ _ => True) oneStepDb g ∧
    (g.db.replayed runR stepA).started = 2 ∧
    (g.db.outbox.ofKind .launchStep).length = 2 ∧ LaunchedOnce oneStepDb g.db := by
  obtain ⟨g, hg, htest⟩ := Reach.of_play (M := engine) oneStepDb
    [.start (.admitRun plainConfig [] runR), .runOut 0 60 (calm .succeeded none),
      .start (.reconcile plainConfig []), .runOut 1 60 (calm .succeeded none),
      .start (.advance runR), .runOut 2 60 (calm .succeeded none),
      .start (.rerunStep false runR stepA none), .runOut 3 60 (calm .succeeded none),
      .start (.admitRun plainConfig [] runR), .runOut 4 60 (calm .succeeded none),
      .start (.reconcile plainConfig []), .runOut 5 60 (calm .succeeded none)]
    (fun g => decide ((g.db.replayed runR stepA).started = 2 ∧
      (g.db.outbox.ofKind .launchStep).length = 2))
    (by decide +kernel)
  obtain ⟨h1, h2⟩ := of_decide_eq_true htest
  exact ⟨g, hg, h1, h2, launchedOnce (createdDb_fresh _ _ _) hg⟩

end Scarab.Engine
