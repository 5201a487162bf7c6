import Scarab.EngineJournal
import Scarab.EngineHistory

/-!
# The journal replays

Read in order, the journal takes every run and every step from Pending to the status the store
has, each transition from the status the one before it left, and starts the Attempts a step has.
-/
namespace Scarab.Engine

open Interleave

/-- What the journal says of a step: its status, and how many Attempts it has started. -/
structure Replayed where
  status : StepStatus
  started : ℕ
deriving DecidableEq

/-- One event read back for a step. A gate's wait starts while the gate is Pending; the Attempt of
another step takes it from Ready to Running. -/
def replayStep (gate : Bool) (run : RunId) (step : StepId) (s : Replayed) (e : Event) :
    Option Replayed :=
  if e.run ≠ run then some s
  else match e.kind with
    | .stepTransitioned step' from_ to_ =>
        if step' ≠ step then some s
        else if from_ = s.status then some { s with status := to_ }
        else none
    | .attemptStarted step' attempt =>
        if step' ≠ step then some s
        else if attempt.num ≠ s.started + 1 then none
        else if gate then if s.status = .pending then some ⟨.pending, s.started + 1⟩ else none
        else if s.status = .ready then some ⟨.running, s.started + 1⟩ else none
    | _ => some s

/-- One event read back for a run. -/
def replayRun (run : RunId) (s : RunStatus) (e : Event) : Option RunStatus :=
  if e.run ≠ run then some s
  else match e.kind with
    | .runTransitioned from_ to_ => if from_ = s then some to_ else none
    | _ => some s

/-- What the store has of a step. -/
def Db.replayed (db : Db) (run : RunId) (step : StepId) : Replayed :=
  ⟨(db.steps run step).status, (db.steps run step).attempts.entries.length⟩

section fold

variable {σ ε : Type} {f : σ → ε → Option σ} {s s' : σ} {es : List ε} {e : ε}

theorem foldlM_skip (h : ∀ e ∈ es, f s e = some s) : es.foldlM f s = some s := by
  induction es with
  | nil => rfl
  | cons e es ih =>
    rw [List.foldlM_cons, h e List.mem_cons_self]
    exact ih fun x hx => h x (List.mem_cons_of_mem _ hx)

/-- One event of a list does something, and the others nothing. -/
theorem foldlM_once {pre post : List ε} (hpre : ∀ e ∈ pre, f s e = some s) (he : f s e = some s')
    (hpost : ∀ e ∈ post, f s' e = some s') : (pre ++ e :: post).foldlM f s = some s' := by
  rw [List.foldlM_append, foldlM_skip hpre]
  change (e :: post).foldlM f s = some s'
  rw [List.foldlM_cons, he]
  exact foldlM_skip hpost

end fold

/-- The event moves a run or a step, or starts an Attempt. -/
@[simp] def EventPayload.isMark : EventPayload → Bool
  | .runTransitioned _ _ | .stepTransitioned _ _ _ | .attemptStarted _ _ => true
  | _ => false

section events

variable {gate : Bool} {run : RunId} {step : StepId} {s : Replayed} {r : RunStatus} {e : Event}

theorem replayStep_unmarked (h : e.kind.isMark = false) :
    replayStep gate run step s e = some s := by
  obtain ⟨run', k, at_⟩ := e
  cases k <;> simp_all [replayStep]

theorem replayRun_unmarked (h : e.kind.isMark = false) : replayRun run r e = some r := by
  obtain ⟨run', k, at_⟩ := e
  cases k <;> simp_all [replayRun]

/-- An event about another step. -/
theorem replayStep_other {run' : RunId} {step' : StepId} {at_ : Timestamp} {k : EventPayload}
    (hk : (∃ from_ to_, k = .stepTransitioned step' from_ to_) ∨ ∃ a, k = .attemptStarted step' a)
    (hne : ¬(run' = run ∧ step' = step)) :
    replayStep gate run step s ⟨run', k, at_⟩ = some s := by
  by_cases hr : run' = run
  · have hs : step' ≠ step := fun hs => hne ⟨hr, hs⟩
    rcases hk with ⟨from_, to_, rfl⟩ | ⟨a, rfl⟩ <;> simp [replayStep, hr, hs]
  · simp [replayStep, hr]

theorem replayStep_moved {from_ to_ : StepStatus} {at_ : Timestamp} {n : ℕ} :
    replayStep gate run step ⟨from_, n⟩ ⟨run, .stepTransitioned step from_ to_, at_⟩ =
      some ⟨to_, n⟩ := by
  simp [replayStep]

theorem replayStep_claimed {at_ : Timestamp} {n : ℕ} :
    replayStep false run step ⟨.ready, n⟩ ⟨run, .attemptStarted step ⟨n + 1⟩, at_⟩ =
      some ⟨.running, n + 1⟩ := by
  simp [replayStep]

theorem replayStep_opened {at_ : Timestamp} {n : ℕ} :
    replayStep true run step ⟨.pending, n⟩ ⟨run, .attemptStarted step ⟨n + 1⟩, at_⟩ =
      some ⟨.pending, n + 1⟩ := by
  simp [replayStep]

end events

section commits

variable {l : Call} {h : Past} {db db' : Db} {run : RunId} {step : StepId} {gate : Bool}

theorem StepMove.events_eq {t : StepTransition} (hm : StepMove l h t) :
    ∃ at_ pre post, t.events =
      eventsAt t.run at_ (pre ++ .stepTransitioned t.step t.from_ t.to_ :: post) ∧
      ∀ k ∈ pre ++ post, k.isMark = false := by
  cases hm with
  | rearm run target s by_ at_ =>
    refine ⟨at_, [], _, rfl, fun k hk => ?_⟩
    rw [List.nil_append, Option.mem_toList, Option.map_eq_some_iff] at hk
    obtain ⟨a, -, rfl⟩ := hk
    rfl
  | cancel run s at_ => exact ⟨at_, [], [], rfl, by simp⟩
  | succeed run step attempt at_ => exact ⟨at_, [_], [], rfl, by simp⟩
  | fail run step attempt kind cause at_ => exact ⟨at_, [_], [], rfl, by simp⟩
  | retry run step attempt kind cause at_ => exact ⟨at_, [_], [], rfl, by simp⟩
  | unneeded run gate at_ => exact ⟨at_, [_], [], rfl, by simp⟩
  | revive run step at_ => exact ⟨at_, [], [], rfl, by simp⟩
  | skip run step at_ => exact ⟨at_, [], [], rfl, by simp⟩
  | unready run step why at_ => exact ⟨at_, [_], [], rfl, by simp⟩
  | unchanged run step signature at_ => exact ⟨at_, [_], [], rfl, by simp⟩

theorem eventsAt_unmarked {run : RunId} {at_ : Timestamp} {ks : List EventPayload}
    (hk : ∀ k ∈ ks, k.isMark = false) : ∀ e ∈ eventsAt run at_ ks, e.kind.isMark = false := by
  intro e he
  obtain ⟨k, hmem, rfl⟩ := List.mem_map.mp he
  exact hk k hmem

@[simp] theorem Attempts.length_stamp? (a : Attempts) (s : Option (AttemptId × AttemptStamp)) :
    (a.stamp? s).entries.length = a.entries.length := by
  cases s with
  | none => rfl
  | some s => exact Attempts.length_update

/-- A marked event between unmarked ones, about this step or another. -/
theorem foldlM_marked {at_ : Timestamp} {run' : RunId} {pre post : List EventPayload}
    {k : EventPayload} {s s' : Replayed}
    (hq : ∀ k ∈ pre ++ post, k.isMark = false)
    (hk : replayStep gate run step s ⟨run', k, at_⟩ = some s') :
    (eventsAt run' at_ (pre ++ k :: post)).foldlM (replayStep gate run step) s = some s' := by
  have hsplit : eventsAt run' at_ (pre ++ k :: post) =
      eventsAt run' at_ pre ++ ⟨run', k, at_⟩ :: eventsAt run' at_ post := by
    simp [eventsAt]
  rw [hsplit]
  refine foldlM_once (fun e he => ?_) hk fun e he => ?_
  · exact replayStep_unmarked
      (eventsAt_unmarked (fun k hk => hq k (List.mem_append_left _ hk)) e he)
  · exact replayStep_unmarked
      (eventsAt_unmarked (fun k hk => hq k (List.mem_append_right _ hk)) e he)

theorem replayed_moved {t : StepTransition} {w : Answer} {a : (Tx.commitStepTransition t).Ans}
    (hm : StepMove l h t) (hexec : (Tx.commitStepTransition t).exec w db = .ok (a, db')) :
    t.events.foldlM (replayStep gate run step) (db.replayed run step) =
      some (db'.replayed run step) := by
  obtain ⟨-, hfrom, -, hdb⟩ := Db.commitStepTransition_ok (Tx.done_eq_ok hexec)
  have hsteps : db'.steps = (db.setStep t.run t.step { db.steps t.run t.step with
      status := t.to_
      attempts := (db.steps t.run t.step).attempts.stamp? t.stamp }).steps := by
    rw [hdb, Db.enqueueAll_steps]
    rfl
  obtain ⟨at_, pre, post, hev, hq⟩ := hm.events_eq
  rw [hev]
  refine foldlM_marked hq ?_
  by_cases hk : run = t.run ∧ step = t.step
  · obtain ⟨rfl, rfl⟩ := hk
    simp only [Db.replayed, hsteps, Db.steps_setStep, Attempts.length_stamp?, hfrom]
    exact replayStep_moved
  · rw [Db.replayed, Db.replayed, hsteps, Db.steps_setStep_of_ne hk]
    exact replayStep_other (.inl ⟨_, _, rfl⟩) fun hk' => hk ⟨hk'.1.symm, hk'.2.symm⟩

theorem replayed_promoted {leader : LeaderTerm} {run' : RunId} {step' : StepId}
    {signature : Text} {at_ : Timestamp}
    (hexec : db.promoteStep leader run' step' signature
      (eventsAt run' at_ [.stepTransitioned step' .pending .ready]) = .ok db') :
    (eventsAt run' at_ [.stepTransitioned step' .pending .ready]).foldlM
      (replayStep gate run step) (db.replayed run step) = some (db'.replayed run step) := by
  obtain ⟨-, hpending, hdb⟩ := Db.promoteStep_ok hexec
  have hsteps : db'.steps = (db.setStep run' step'
      { db.steps run' step' with status := .ready, input := some signature }).steps := by
    rw [hdb]
    rfl
  have hnone : ∀ k ∈ ([] : List EventPayload) ++ [], k.isMark = false := by simp
  refine foldlM_marked hnone ?_
  by_cases hk : run = run' ∧ step = step'
  · obtain ⟨rfl, rfl⟩ := hk
    simp only [Db.replayed, hsteps, Db.steps_setStep, hpending]
    exact replayStep_moved
  · rw [Db.replayed, Db.replayed, hsteps, Db.steps_setStep_of_ne hk]
    exact replayStep_other (.inl ⟨_, _, rfl⟩) fun hk' => hk ⟨hk'.1.symm, hk'.2.symm⟩

/-- The start of a claimed step. -/
def claimEvent (now : Timestamp) (s : StepRun) : Event :=
  ⟨s.run, .attemptStarted s.step ⟨s.attempts.length + 1⟩, now⟩

theorem claimable_nodup (hruns : db.runIds.Nodup) (hsteps : ∀ run, (db.stepIds run).Nodup)
    (limit : ℕ) : ((db.claimable limit).map fun s => (s.run, s.step)).Nodup := by
  have hall : ((db.runIds.flatMap db.stepsOfRun).map fun s => (s.run, s.step)).Nodup := by
    rw [List.map_flatMap, List.nodup_flatMap]
    constructor
    · intro r _
      rw [Db.stepsOfRun, List.map_map]
      exact (hsteps r).map fun a b hab => (Prod.mk.inj hab).2
    · refine hruns.imp fun {a b} hne => ?_
      intro p ha hb
      simp only [Db.stepsOfRun, List.map_map, List.mem_map, Function.comp_apply] at ha hb
      obtain ⟨x, -, rfl⟩ := ha
      obtain ⟨y, -, hy⟩ := hb
      exact hne (Prod.mk.inj hy).1.symm
  have hsub : ((db.readySteps.take limit).map fun s => (s.run, s.step)).Nodup :=
    hall.sublist (((List.take_sublist _ _).trans List.filter_sublist).map _)
  rw [Db.claimable, List.map_map]
  exact hsub

theorem replayed_claimed {limit : ℕ} {now : Timestamp} (hruns : db.runIds.Nodup)
    (hsteps : ∀ run, (db.stepIds run).Nodup)
    (hgate : (db.steps run step).status = .ready → gate = false) :
    ((db.claimable limit).flatMap fun s => (Db.mintLaunch now s).2.1).foldlM
        (replayStep gate run step) (db.replayed run step) =
      some (((db.claimable limit).foldl (Db.launchClaimed now) db).replayed run step) := by
  have hev : ((db.claimable limit).flatMap fun s => (Db.mintLaunch now s).2.1) =
      (db.claimable limit).map (claimEvent now) := List.map_eq_flatMap.symm
  have hs : ∀ s ∈ db.claimable limit, s.attempts = (db.steps s.run s.step).attempts.entries := by
    intro s hs
    rw [(Db.mem_claimable hs).1]
    rfl
  rw [hev]
  rcases @Db.foldl_launchClaimed_steps _ _ now _ hs (fun run step => .inl rfl) run step with
    ⟨hsame, hnone⟩ | ⟨hclaimed, s, hmem, rfl, rfl⟩
  · rw [Db.replayed, Db.replayed, hsame]
    refine foldlM_skip fun e he => ?_
    obtain ⟨x, hx, rfl⟩ := List.mem_map.mp he
    exact replayStep_other (.inr ⟨_, rfl⟩) (hnone x hx)
  · obtain ⟨-, -, -, hready⟩ := Db.mem_claimable hmem
    obtain ⟨pre, post, hsplit⟩ := List.append_of_mem hmem
    have hnd := claimable_nodup hruns hsteps limit
    rw [hsplit, List.map_append, List.map_cons, List.nodup_append, List.nodup_cons] at hnd
    have hpre : ∀ x ∈ pre, ¬(x.run = s.run ∧ x.step = s.step) := fun x hx hk =>
      hnd.2.2 _ (List.mem_map_of_mem hx) _ List.mem_cons_self (Prod.ext hk.1 hk.2)
    have hpost : ∀ x ∈ post, ¬(x.run = s.run ∧ x.step = s.step) := fun x hx hk =>
      hnd.2.1.1 (List.mem_map.mpr ⟨x, hx, Prod.ext hk.1 hk.2⟩)
    rw [hsplit] at hclaimed ⊢
    rw [List.map_append, List.map_cons]
    refine foldlM_once (fun e he => ?_) ?_ fun e he => ?_
    · obtain ⟨x, hx, rfl⟩ := List.mem_map.mp he
      exact replayStep_other (.inr ⟨_, rfl⟩) (hpre x hx)
    · simp only [Db.replayed, hclaimed, hready, hgate hready, claimEvent, hs s hmem, Db.claimedRec,
        Attempts.entries_record_next, List.length_append, List.length_singleton]
      exact replayStep_claimed
    · obtain ⟨x, hx, rfl⟩ := List.mem_map.mp he
      exact replayStep_other (.inr ⟨_, rfl⟩) (hpost x hx)

theorem replayed_opened {leader : LeaderTerm} {run' : RunId} {step' : StepId}
    {startedAt at_ : Timestamp} {a : Option Attempt}
    (hgate : run = run' → step = step' → gate = true)
    (hexec : db.openGateWait leader run' step' startedAt at_ = .ok (a, db')) :
    (Tx.newEvents db (.openGateWait leader run' step' startedAt at_)).foldlM
      (replayStep gate run step) (db.replayed run step) = some (db'.replayed run step) := by
  rcases Db.openGateWait_ok hexec with ⟨rfl, -, hno⟩ | ⟨hmem, hpending, hclosed, x, -, rfl, hdb⟩
  · rw [Tx.newEvents, if_neg hno]
    rfl
  · rw [Tx.newEvents, if_pos ⟨hmem, hpending, hclosed⟩]
    refine foldlM_once (List.forall_mem_nil _) ?_ (List.forall_mem_nil _)
    have hsteps : db'.steps = (db.setStep run' step' { db.steps run' step' with
        attempts := (db.steps run' step').attempts.record
          ⟨(db.steps run' step').attempts.next, min startedAt at_, none, none, .running⟩ }).steps := by
      rw [hdb]
      rfl
    by_cases hk : run = run' ∧ step = step'
    · obtain ⟨rfl, rfl⟩ := hk
      simp only [Db.replayed, hsteps, Db.steps_setStep, hpending, hgate rfl rfl,
        Attempts.entries_record_next, List.length_append, List.length_singleton]
      exact replayStep_opened
    · rw [Db.replayed, Db.replayed, hsteps, Db.steps_setStep_of_ne hk]
      exact replayStep_other (.inr ⟨_, rfl⟩) fun hk' => hk ⟨hk'.1.symm, hk'.2.symm⟩

/-- A verdict closes a wait, or mints one already closed. -/
theorem closeWait_length {as attempts : Attempts} {res : GateResolution} {attempt : AttemptId}
    {minted : Bool} (hw : Db.closeWait as res = some (attempt, minted, attempts)) :
    attempts.entries.length = as.entries.length + (if minted then 1 else 0) ∧
      (minted = true → attempt = as.next) := by
  simp only [Db.closeWait] at hw
  split at hw
  · split at hw
    · obtain ⟨-, rfl, rfl⟩ : _ ∧ _ ∧ _ := by simpa using hw
      exact ⟨Attempts.length_update, by simp⟩
    · cases hw
  · split at hw
    · obtain ⟨-, rfl, rfl⟩ : _ ∧ _ ∧ _ := by simpa using hw
      exact ⟨Attempts.length_update, by simp⟩
    · obtain ⟨rfl, rfl, rfl⟩ : _ ∧ _ ∧ _ := by simpa using hw
      exact ⟨by rw [Attempts.entries_record_next rfl, List.length_append]; rfl, fun _ => rfl⟩

/-- The events of a verdict: perhaps the start of the Attempt it mints, then the gate's move. -/
theorem replay_resolution {at_ : Timestamp} {attempt : AttemptId} {minted : Bool}
    {res : GateResolution} {n : ℕ} (hgate : minted = true → gate = true)
    (hnum : minted = true → attempt.num = n + 1) :
    ((gateResolutionEvents step attempt minted res).map fun k => (⟨run, k, at_⟩ : Event)).foldlM
        (replayStep gate run step) ⟨.pending, n⟩ =
      some ⟨if res.passed then .succeeded else .failed, n + if minted then 1 else 0⟩ := by
  cases minted with
  | false =>
    cases hp : res.passed <;> cases he : res.expired <;>
      simp [gateResolutionEvents, hp, he, replayStep]
  | true =>
    have hg := hgate rfl
    have hn := hnum rfl
    cases hp : res.passed <;> cases he : res.expired <;>
      simp [gateResolutionEvents, hp, he, replayStep, hg, hn]

theorem replay_resolution_other {at_ : Timestamp} {run' : RunId} {step' : StepId}
    {attempt : AttemptId} {minted : Bool} {res : GateResolution} {s : Replayed}
    (hne : ¬(run' = run ∧ step' = step)) :
    ((gateResolutionEvents step' attempt minted res).map fun k => (⟨run', k, at_⟩ : Event)).foldlM
        (replayStep gate run step) s = some s := by
  refine foldlM_skip fun e he => ?_
  obtain ⟨k, hk, rfl⟩ := List.mem_map.mp he
  cases hm : k.isMark with
  | false => exact replayStep_unmarked hm
  | true =>
    refine replayStep_other ?_ hne
    cases minted <;> cases hp : res.passed <;> cases hx : res.expired <;>
      simp [gateResolutionEvents, hp, hx] at hk <;> aesop

theorem replayed_resolved {run' : RunId} {step' : StepId} {res : GateResolution}
    {a : Option AttemptId} (hgate : run = run' → step = step' → gate = true)
    (hexec : db.resolveGateWait run' step' res = (a, db')) :
    (Tx.newEvents db (.resolveGateWait run' step' res)).foldlM
      (replayStep gate run step) (db.replayed run step) = some (db'.replayed run step) := by
  by_cases hpend : step' ∈ db.stepIds run' ∧ (db.steps run' step').status = .pending
  · rw [Tx.newEvents, if_pos hpend]
    rcases db.resolveGateWait_cases run' step' res with
      hnone | ⟨attempt, minted, attempts, hmem, hpending, hw, hdb⟩
    · cases hw : Db.closeWait (db.steps run' step').attempts res with
      | none =>
        obtain ⟨-, rfl⟩ := Prod.mk.inj (hnone.symm.trans hexec)
        rfl
      | some x =>
        obtain ⟨attempt, minted, attempts⟩ := x
        simp [Db.resolveGateWait, hpend, hw] at hnone
    · obtain ⟨-, rfl⟩ := Prod.mk.inj (hdb.symm.trans hexec)
      obtain ⟨hlen, hnext⟩ := closeWait_length hw
      simp only [hw]
      by_cases hk : run = run' ∧ step = step'
      · obtain ⟨rfl, rfl⟩ := hk
        simp only [Db.replayed, Db.journal, Db.keepGateOutputs_steps, Db.steps_setStep,
          Db.resolvedRec, hlen, hpending]
        refine replay_resolution (fun _ => hgate rfl rfl) fun hm => ?_
        rw [hnext hm]
        rfl
      · simp only [Db.replayed, Db.journal, Db.keepGateOutputs_steps, Db.steps_setStep_of_ne hk]
        exact replay_resolution_other fun hk' => hk ⟨hk'.1.symm, hk'.2.symm⟩
  · rw [Tx.newEvents, if_neg hpend]
    have hsame : db.resolveGateWait run' step' res = (none, db) := by
      rcases db.resolveGateWait_cases run' step' res with
        hnone | ⟨attempt, minted, attempts, hmem, hpending, -, -⟩
      · exact hnone
      · exact absurd ⟨hmem, hpending⟩ hpend
    obtain ⟨-, rfl⟩ := Prod.mk.inj (hsame.symm.trans hexec)
    rfl

theorem replayed_runMove {t : RunTransition} {w : Answer} {a : (Tx.commitRunTransition t).Ans}
    (hm : RunMove l h t) (hexec : (Tx.commitRunTransition t).exec w db = .ok (a, db')) :
    t.events.foldlM (replayStep gate run step) (db.replayed run step) =
        some (db'.replayed run step) ∧
      t.events.foldlM (replayRun run) (db.runs run) = some (db'.runs run) := by
  obtain ⟨-, hfrom, -, hdb⟩ := Db.commitRunTransition_ok (Tx.done_eq_ok hexec)
  obtain ⟨at_, pre, hev, hq⟩ : ∃ at_ pre, t.events =
      eventsAt t.run at_ (pre ++ [.runTransitioned t.from_ t.to_]) ∧
      ∀ k ∈ pre, k.isMark = false := by
    cases hm with
    | overBudget | uncreated => exact ⟨_, _, rfl, by simp⟩
    | _ => exact ⟨_, [], rfl, by simp⟩
  have hsteps : db'.steps = db.steps := by
    rw [hdb, Db.enqueueAll_steps]
    rfl
  have hruns : db'.runs = Function.update db.runs t.run t.to_ := by
    rw [hdb, Db.enqueueAll_runs]
    rfl
  constructor
  · rw [hev, Db.replayed, Db.replayed, hsteps]
    refine foldlM_marked (by simpa using hq) ?_
    unfold replayStep
    split_ifs <;> rfl
  · have hsplit : t.events = eventsAt t.run at_ pre ++
        (⟨t.run, .runTransitioned t.from_ t.to_, at_⟩ : Event) :: [] := by
      rw [hev]
      simp [eventsAt]
    rw [hsplit]
    refine foldlM_once (fun e he => replayRun_unmarked (eventsAt_unmarked hq e he)) ?_ (by simp)
    by_cases hk : t.run = run
    · subst hk
      simp [replayRun, hruns, hfrom]
    · simp [replayRun, hk, hruns, Function.update_of_ne (Ne.symm hk)]

theorem replayed_closed {run' : RunId} {step' : StepId} {attempt : AttemptId}
    {outcome : AttemptOutcome} {event : Option Event} {a : Bool}
    (hevent : ∀ e, event = some e → e.kind.isMark = false)
    (hexec : db.closeRunningAttempt run' step' attempt outcome event = (a, db')) :
    (Tx.newEvents db (.closeRunningAttempt run' step' attempt outcome event)).foldlM
      (replayStep gate run step) (db.replayed run step) = some (db'.replayed run step) := by
  have hsame : db'.replayed run step = db.replayed run step := by
    rcases db.closeRunningAttempt_cases run' step' attempt outcome event with
      ⟨h, -⟩ | ⟨-, -, h⟩
    · obtain ⟨-, rfl⟩ := Prod.mk.inj (h.symm.trans hexec)
      rfl
    · obtain ⟨-, rfl⟩ := Prod.mk.inj (h.symm.trans hexec)
      by_cases hk : run = run' ∧ step = step'
      · obtain ⟨rfl, rfl⟩ := hk
        simp [Db.replayed, Db.journal]
      · simp only [Db.replayed, Db.journal, Db.steps_setStep_of_ne hk]
  rw [hsame]
  refine foldlM_skip fun e he => replayStep_unmarked ?_
  simp only [Tx.newEvents] at he
  split_ifs at he
  · exact hevent e (by simpa using he)
  · cases he

/-- A commit that journals nothing leaves a step's status and its count of Attempts alone. -/
theorem replayed_quiet {t : Tx} {w : Answer} {a : t.Ans} (hnone : ∀ db, t.newEvents db = [])
    (hmoves : ∀ {r}, StepEffect db run step t r → r.status = (db.steps run step).status ∧
      r.attempts.entries.length = (db.steps run step).attempts.entries.length)
    (hexec : t.exec w db = .ok (a, db')) :
    (t.newEvents db).foldlM (replayStep gate run step) (db.replayed run step) =
      some (db'.replayed run step) := by
  have hsame : db'.replayed run step = db.replayed run step := by
    rcases Tx.exec_steps hexec run step with h | ⟨-, heff⟩
    · rw [Db.replayed, Db.replayed, h]
    · obtain ⟨hst, hlen⟩ := hmoves heff
      rw [Db.replayed, Db.replayed, hst, hlen]
  rw [hnone, hsame]
  rfl

end commits

end Scarab.Engine

namespace Scarab.Interleave

open Engine

variable {cond : Config engine → Entry engine → Prop} {g g₁ : Config engine} {e : Entry engine}
  {db₀ : Db}

/-- What one step of a run journals takes each run and each step from where it was to where it
is. -/
theorem Reach.step_replays (hfresh : db₀.Fresh) (hruns : db₀.runIds.Nodup)
    (hsteps : ∀ run, (db₀.stepIds run).Nodup) (hr : Reach cond db₀ g) (hs : Step g e g₁)
    (run : RunId) (step : StepId) :
    ∃ news, g₁.db.events = g.db.events ++ news ∧
      news.foldlM (replayStep (db₀.steps run step).gateKind.isSome run step)
        (g.db.replayed run step) = some (g₁.db.replayed run step) ∧
      news.foldlM (replayRun run) (g.db.runs run) = some (g₁.db.runs run) := by
  rcases hr.step_events hs with hsame | ⟨t, a, l, -, -, hb, ⟨w, hexec⟩, hev⟩
  · exact ⟨[], by rw [hsame, List.append_nil], by rw [hsame]; rfl, by rw [hsame]; rfl⟩
  refine ⟨t.newEvents g.db, hev, ?_⟩
  -- only a run's move moves a run
  have hrun : t.isRunMove = false →
      (t.newEvents g.db).foldlM (replayRun run) (g.db.runs run) = some (g₁.db.runs run) := by
    intro hno
    rw [((Tx.exec_frame hexec).runs hno).1]
    refine foldlM_skip fun x hx => ?_
    have hkind : ∀ from_ to_, x.kind ≠ .runTransitioned from_ to_ := by
      intro from_ to_ hk
      rcases Backed.journals hb hx with hminor | ⟨t', rfl, -, -⟩ | ⟨_, _, hk', -⟩ |
        ⟨-, _, _, _, _, hk'⟩
      · rw [hk] at hminor
        cases hminor
      · cases hno
      · rw [hk] at hk'
        cases hk'
      · rw [hk] at hk'
        cases hk'
    obtain ⟨r, k, at_⟩ := x
    cases k <;> simp_all [replayRun]
  have hids := hr.shape
  have hgateOf : ∀ {s : StepRun}, Past.SawStep (ownOf g.log e.pid) run s → s.step = step →
      s.isGate = true → (db₀.steps run step).gateKind.isSome = true := by
    intro s hsaw hid hg
    rw [← hid, ← hr.sawStep_isGate hsaw]
    simpa [StepRun.isGate] using hg
  cases t with
  | commitStepTransition t => exact ⟨replayed_moved hb hexec, hrun rfl⟩
  | commitRunTransition t => exact replayed_runMove hb.1 hexec
  | promoteStep leader run' step' signature events =>
    obtain ⟨-, at_, rfl⟩ := hb
    exact ⟨replayed_promoted (Tx.done_eq_ok hexec), hrun rfl⟩
  | claimReadySteps leader limit now =>
    obtain ⟨-, hdb⟩ := Db.claimReadySteps_ok hexec
    refine ⟨?_, hrun rfl⟩
    rw [hdb]
    refine replayed_claimed (hids.1 ▸ hruns) (fun r => hids.2.1 ▸ hsteps r) fun hready => ?_
    rw [hr.not_gate hfresh (.inl hready)]
    rfl
  | openGateWait leader run' step' startedAt at_ =>
    refine ⟨replayed_opened ?_ hexec, hrun rfl⟩
    rintro rfl rfl
    obtain ⟨s, hsaw, hid, hg⟩ := hb
    exact hgateOf hsaw hid hg
  | resolveGateWait run' step' res =>
    refine ⟨replayed_resolved ?_ (Except.ok.inj hexec), hrun rfl⟩
    rintro rfl rfl
    obtain ⟨steps, gate, hsaw, hmem, hid, hg, -⟩ := hb
    exact hgateOf ⟨steps, hsaw, hmem⟩ hid hg
  | closeRunningAttempt run' step' attempt outcome event =>
    refine ⟨replayed_closed ?_ (Except.ok.inj hexec), hrun rfl⟩
    intro x hx
    obtain ⟨by_, at_, rfl⟩ := hb.2.2 x hx
    rfl
  | appendEvent x =>
    refine ⟨?_, hrun rfl⟩
    have hsame : g₁.db.replayed run step = g.db.replayed run step := by
      rcases Tx.exec_steps hexec run step with h | ⟨-, heff⟩
      · rw [Db.replayed, Db.replayed, h]
      · cases heff
    rw [hsame]
    refine foldlM_skip fun y hy => replayStep_unmarked ?_
    obtain rfl := List.mem_singleton.mp hy
    have hnote := hb.2
    cases hk : y.kind <;> simp_all
  | setStepInput | setStepOutput | setStepResults | ingestAttemptResults =>
    refine ⟨replayed_quiet (fun _ => rfl) (fun heff => ?_) hexec, hrun rfl⟩
    cases heff
    exact ⟨rfl, rfl⟩
  | setAttemptFailure =>
    refine ⟨replayed_quiet (fun _ => rfl) (fun heff => ?_) hexec, hrun rfl⟩
    cases heff
    exact ⟨rfl, Attempts.length_update⟩
  | _ =>
    refine ⟨replayed_quiet (fun _ => rfl) (fun heff => ?_) hexec, hrun rfl⟩
    cases heff

/-- In every run, the journal read from the start takes each run and each step through legal
transitions to the status the store has, and starts exactly the Attempts the step has, in order. -/
theorem journal_replays (hfresh : db₀.Fresh) (hruns : db₀.runIds.Nodup)
    (hsteps : ∀ run, (db₀.stepIds run).Nodup) (hr : Reach cond db₀ g) (run : RunId)
    (step : StepId) :
    g.db.events.foldlM (replayStep (db₀.steps run step).gateKind.isSome run step) ⟨.pending, 0⟩ =
        some (g.db.replayed run step) ∧
      g.db.events.foldlM (replayRun run) .pending = some (g.db.runs run) := by
  induction hr with
  | refl =>
    have hev : (Config.init db₀).db.events = [] := hfresh.events
    have hrow : (Config.init db₀).db.replayed run step = ⟨.pending, 0⟩ := by
      obtain ⟨hst, hat, -⟩ := hfresh.steps run step
      change (⟨(db₀.steps run step).status, (db₀.steps run step).attempts.entries.length⟩ :
        Replayed) = _
      rw [hst, hat]
      rfl
    have hstatus : (Config.init db₀).db.runs run = .pending := hfresh.runs run
    rw [hev, hrow, hstatus]
    exact ⟨rfl, rfl⟩
  | @tail g₂ g₃ e init hs hm ih =>
    have hr : Reach cond db₀ g₂ := init
    obtain ⟨news, hev, hstep, hrun⟩ := hr.step_replays hfresh hruns hsteps hs run step
    obtain ⟨ihstep, ihrun⟩ := ih
    rw [hev, List.foldlM_append, List.foldlM_append, ihstep, ihrun]
    exact ⟨hstep, hrun⟩

/-- A step that runs to success, is rerun, and runs again: its journal replays. -/
theorem journal_replays_twice : ∃ g, Reach (fun _ _ => True) oneStepDb g ∧
    g.db.replayed runR stepA = ⟨.succeeded, 2⟩ ∧
    g.db.events.foldlM (replayStep false runR stepA) ⟨.pending, 0⟩ = some ⟨.succeeded, 2⟩ ∧
    g.db.events.foldlM (replayRun runR) .pending = some .succeeded := by
  obtain ⟨g, hg, htest⟩ := Reach.of_play (M := engine) oneStepDb
    [.start (.admitRun plainConfig [] runR), .runOut 0 60 (calm .succeeded none),
      .start (.reconcile plainConfig []), .runOut 1 60 (calm .succeeded none),
      .start (.advance runR), .runOut 2 60 (calm .succeeded none),
      .start (.rerunStep false runR stepA none), .runOut 3 60 (calm .succeeded none),
      .start (.admitRun plainConfig [] runR), .runOut 4 60 (calm .succeeded none),
      .start (.reconcile plainConfig []), .runOut 5 60 (calm .succeeded none),
      .start (.advance runR), .runOut 6 60 (calm .succeeded none)]
    (fun g => decide (g.db.runs runR = .succeeded ∧ g.db.replayed runR stepA = ⟨.succeeded, 2⟩))
    (by decide +kernel)
  obtain ⟨hrun, hrow⟩ := of_decide_eq_true htest
  have hids : ∀ run : RunId, (oneStepDb.stepIds run).Nodup := fun _ => List.nodup_singleton _
  obtain ⟨hstep, hruns⟩ := journal_replays (createdDb_fresh _ _ _) (List.nodup_singleton _) hids hg
    runR stepA
  rw [hrow] at hstep
  rw [hrun] at hruns
  exact ⟨g, hg, hrow, hstep, hruns⟩

end Scarab.Interleave
