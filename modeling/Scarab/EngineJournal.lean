import Scarab.EngineEvolution

/-!
# What a commit journals

The journal only grows. A run's move, an Attempt's start and a rerun's boundary each come from
one kind of commit.
-/
namespace Scarab.Engine

open Interleave

/-- The event moves no run, starts no Attempt and bounds no Take. -/
@[simp] def EventPayload.isMinor : EventPayload → Bool
  | .runTransitioned _ _ | .attemptStarted _ _ | .runRerunRequested _ _ _ _ => false
  | _ => true

section journal

variable {l : Call} {h : Past} {db : Db}

theorem eventsAt_minor {run : RunId} {at_ : Timestamp} {kinds : List EventPayload}
    (hk : ∀ k ∈ kinds, k.isMinor = true) : ∀ e ∈ eventsAt run at_ kinds, e.kind.isMinor = true := by
  intro e he
  obtain ⟨k, hmem, rfl⟩ := List.mem_map.mp he
  exact hk k hmem

theorem StepMove.minor {t : StepTransition} (hm : StepMove l h t) :
    ∀ e ∈ t.events, e.kind.isMinor = true := by
  cases hm with
  | rearm run target s by_ at_ =>
    refine eventsAt_minor fun k hk => ?_
    rcases List.mem_cons.mp hk with rfl | hk
    · rfl
    · rw [Option.mem_toList, Option.map_eq_some_iff] at hk
      obtain ⟨a, -, rfl⟩ := hk
      rfl
  | _ => exact eventsAt_minor (by simp)

theorem RunMove.events_eq {t : RunTransition} (hm : RunMove l h t) :
    ∃ at_ preceding, t.events =
      eventsAt t.run at_ (preceding ++ [.runTransitioned t.from_ t.to_]) ∧
      ∀ k ∈ preceding, k.isMinor = true := by
  cases hm with
  | overBudget | uncreated => exact ⟨_, _, rfl, by simp⟩
  | _ => exact ⟨_, [], rfl, by simp⟩

theorem gateResolutionEvents_minor {step : StepId} {attempt : AttemptId} {minted : Bool}
    {res : GateResolution} {k : EventPayload}
    (hk : k ∈ gateResolutionEvents step attempt minted res) :
    k.isMinor = true ∨ k = .attemptStarted step attempt ∧ minted = true := by
  cases minted <;> cases hp : res.passed <;> cases he : res.expired <;>
    simp [gateResolutionEvents, hp, he] at hk <;> aesop

/-- An Attempt's start comes with the Attempt: from a claim, or from a wait that is opened or
resolved. -/
inductive Starts (db : Db) : Tx → RunId → StepId → AttemptId → Prop
  | claimed (leader : LeaderTerm) (limit : ℕ) (now : Timestamp) (s : StepRun)
      (listed : s ∈ db.claimable limit) :
      Starts db (.claimReadySteps leader limit now) s.run s.step ⟨s.attempts.length + 1⟩
  | waitOpened (leader : LeaderTerm) (run : RunId) (step : StepId) (startedAt at_ : Timestamp)
      (known : step ∈ db.stepIds run) (pending : (db.steps run step).status = .pending)
      (closed : (db.steps run step).attempts.running? = none) :
      Starts db (.openGateWait leader run step startedAt at_) run step
        (db.steps run step).attempts.next
  | resolved (run : RunId) (step : StepId) (res : GateResolution) (attempt : AttemptId)
      (attempts : Attempts) (known : step ∈ db.stepIds run)
      (pending : (db.steps run step).status = .pending)
      (wait : Db.closeWait (db.steps run step).attempts res = some (attempt, true, attempts)) :
      Starts db (.resolveGateWait run step res) run step attempt

/-- What a backed commit journals is minor, or the event that belongs to its kind. -/
theorem Backed.journals {t : Tx} (hb : Backed l h (.write t)) {e : Event}
    (he : e ∈ t.newEvents db) :
    e.kind.isMinor = true ∨
      (∃ t', t = .commitRunTransition t' ∧ e.kind = .runTransitioned t'.from_ t'.to_ ∧
        e.run = t'.run) ∨
      (∃ step attempt, e.kind = .attemptStarted step attempt ∧ Starts db t e.run step attempt) ∨
      (t = .appendEvent e ∧ ∃ target invalidated by_ widened,
        e.kind = .runRerunRequested target invalidated by_ widened) := by
  cases t with
  | appendEvent event =>
    obtain rfl := List.mem_singleton.mp he
    have hnote := hb.2
    cases hk : e.kind with
    | runRerunRequested => exact .inr (.inr (.inr ⟨rfl, _, _, _, _, rfl⟩))
    | runTransitioned | stepTransitioned | attemptStarted | attemptFinished => simp [hk] at hnote
    | _ => exact .inl rfl
  | commitStepTransition t => exact .inl (StepMove.minor hb e he)
  | commitRunTransition t =>
    obtain ⟨at_, preceding, hevents, hminor⟩ := hb.1.events_eq
    rw [Tx.newEvents, hevents] at he
    obtain ⟨k, hk, rfl⟩ := List.mem_map.mp he
    rcases List.mem_append.mp hk with hk | hk
    · exact .inl (hminor k hk)
    · obtain rfl := List.mem_singleton.mp hk
      exact .inr (.inl ⟨t, rfl, rfl, rfl⟩)
  | promoteStep leader run step signature events =>
    obtain ⟨-, at_, rfl⟩ := hb
    exact .inl (eventsAt_minor (by simp) e he)
  | claimReadySteps leader limit now =>
    obtain ⟨s, hs, hmem⟩ := List.mem_flatMap.mp he
    obtain rfl := List.mem_singleton.mp hmem
    exact .inr (.inr (.inl ⟨_, _, rfl, .claimed leader limit now s hs⟩))
  | openGateWait leader run step startedAt at_ =>
    simp only [Tx.newEvents] at he
    split_ifs at he with hopen
    · obtain rfl := List.mem_singleton.mp he
      exact .inr (.inr (.inl ⟨_, _, rfl, .waitOpened leader run step startedAt at_ hopen.1 hopen.2.1
        hopen.2.2⟩))
    · cases he
  | resolveGateWait run step res =>
    simp only [Tx.newEvents] at he
    split_ifs at he with hpend
    · split at he
      · cases he
      · next attempt minted attempts hclose =>
        obtain ⟨k, hk, rfl⟩ := List.mem_map.mp he
        rcases gateResolutionEvents_minor hk with hminor | ⟨rfl, rfl⟩
        · exact .inl hminor
        · exact .inr (.inr (.inl ⟨_, _, rfl, .resolved run step res attempt attempts hpend.1 hpend.2
            hclose⟩))
    · cases he
  | closeRunningAttempt run step attempt outcome event =>
    simp only [Tx.newEvents] at he
    split_ifs at he
    · obtain ⟨-, -, hevent⟩ := hb
      obtain ⟨by_, at_, rfl⟩ := hevent e (by simpa using he)
      exact .inl rfl
    · cases he
  | _ => cases he

end journal
end Scarab.Engine

namespace Scarab.Interleave

open Engine

variable {cond : Config engine → Entry engine → Prop} {g g₁ : Config engine} {e : Entry engine}
  {db₀ : Db}

/-- A step leaves the journal alone, or appends what its commit journals. -/
theorem Reach.step_events (hr : Reach cond db₀ g) (hs : Step g e g₁) :
    g₁.db = g.db ∨ ∃ t a l, e.Did t a ∧ StartedAs g.log e.pid l ∧
      Backed l (ownOf g.log e.pid) (.write t) ∧ (∃ w, t.exec w g.db = .ok (a, g₁.db)) ∧
      g₁.db.events = g.db.events ++ t.newEvents g.db := by
  rcases hr.step_cases hs with hsame | ⟨t, a, hc⟩
  · exact .inl hsame
  · obtain ⟨w, hexec⟩ := hc.exec
    obtain ⟨l, hl, hb⟩ := hc.backed
    exact .inr ⟨t, a, l, hc.did, hl, hb, ⟨w, hexec⟩, (Tx.exec_frame hexec).events⟩

end Scarab.Interleave
