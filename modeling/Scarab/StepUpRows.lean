import Scarab.InterleaveRows
import Scarab.StepUpDuties

/-!
# What the stores keep of a row

A challenge, a confirmation, a request and a passkey are what they were when they were stored, but
for the fields a command changes, and each is spent at most once.
-/
namespace Scarab.StepUp

open Depot (Bytes)
open Interleave

def WebauthnChallenge.core (c : WebauthnChallenge) : WebauthnChallenge := { c with consumedAt := none }

def StepUpConfirmation.core (c : StepUpConfirmation) : StepUpConfirmation :=
  { c with consumedAt := none }

def Passkey.core (p : Passkey) : Passkey :=
  { p with signCount := 0, backupState := false, lastUsedAt := none, cloneSuspectedAt := none }

def StepUpRequest.core (r : StepUpRequest) : StepUpRequest :=
  { r with
    sealed := none
    state := .pending
    confirmedBy := none
    confirmedAt := none
    confirmationId := none
    executedAt := none
    resultStatus := none }

/-- A request is what was raised; its sealed body may be gone. -/
def SameRequest (r₀ r : StepUpRequest) : Prop :=
  r.core = r₀.core ∧ (r.sealed = none ∨ r.sealed = r₀.sealed)

def LiveChallenge (s : Stores) (i : Id) : Prop := ∃ c ∈ s.challenges, c.id = i ∧ c.consumedAt = none

def LiveConfirmation (s : Stores) (i : Id) : Prop :=
  ∃ c ∈ s.confirmations, c.id = i ∧ c.consumedAt = none

def LiveRequest (s : Stores) (i : Id) : Prop := ∃ r ∈ s.requests, r.id = i ∧ r.state = .pending

def SpendsChallenge : Exchange Cmd Cmd.Resp → Id → Prop
  | ⟨.store (.consumeChallenge id _ _), .ok (some _)⟩, i => id = i
  | _, _ => False

def SpendsConfirmation : Exchange Cmd Cmd.Resp → Id → Prop
  | ⟨.store (.consumeAction _ _ _ _), .ok (some id)⟩, i => id = i
  | _, _ => False

def SpendsRequest : Exchange Cmd Cmd.Resp → Id → Prop
  | ⟨.store (.beginExecution id _ _ _), .ok (.begun _)⟩, i => id = i
  | _, _ => False

section rows

variable {s s' : Stores} {c : Cmd} {a : Answer} {r : c.Resp} {i : Id}

/-- A command answers as the stores do and changes them as they do, or its answer is lost. -/
theorem respond_store {x : Store} {r : Cmd.Resp (.store x)} (hr : respond (.store x) a s = (r, s')) :
    (s' = s ∧ ∃ e, r = .error e) ∨ (s' = (s.exec x).2 ∧ (r = (s.exec x).1 ∨ ∃ e, r = .error e)) := by
  simp only [respond, respondStore] at hr
  split at hr
  · obtain ⟨rfl, rfl⟩ := Prod.mk.inj hr
    exact .inr ⟨rfl, .inl rfl⟩
  · obtain ⟨rfl, rfl⟩ := Prod.mk.inj hr
    exact .inl ⟨rfl, _, rfl⟩
  · obtain ⟨rfl, rfl⟩ := Prod.mk.inj hr
    exact .inr ⟨rfl, .inr ⟨_, rfl⟩⟩

/-- The state after any command is the one before, but for the ids drawn, or the stores' own. -/
theorem respond_state (hr : respond c a s = (r, s')) :
    s' = s ∨ s' = { s with drawn := s.drawn + 1 } ∨ ∃ x, c = .store x ∧ s' = (s.exec x).2 := by
  cases c with
  | drawId =>
    obtain ⟨rfl, rfl⟩ := Prod.mk.inj hr
    exact .inr (.inl rfl)
  | ask q =>
    obtain ⟨rfl, rfl⟩ := Prod.mk.inj hr
    exact .inl rfl
  | store x =>
    rcases respond_store hr with ⟨hs, -⟩ | ⟨hs, -⟩
    · exact .inl hs
    · exact .inr (.inr ⟨x, rfl, hs⟩)

def challengeKinds : List Kind := [.putChallenge, .consumeChallenge, .reapChallenges]
def requestKinds : List Kind := [.raiseRequest, .beginExecution, .finishRequest, .reap]
def confirmationKinds : List Kind :=
  [.putConfirmation, .consumeAction, .deleteWindowsFor, .deleteForPasskey, .reap]
def passkeyKinds : List Kind := [.insertPasskey, .recordUse, .markClone, .removePasskey, .removeAll]

/-- A command of a kind leaves the tables of other kinds alone. -/
structure Untouched (k : Kind) (s s' : Stores) : Prop where
  challenges : k ∉ challengeKinds → s'.challenges = s.challenges
  requests : k ∉ requestKinds → s'.requests = s.requests
  confirmations : k ∉ confirmationKinds → s'.confirmations = s.confirmations
  passkeys : k ∉ passkeyKinds → s'.passkeys = s.passkeys
  drawn : s'.drawn = s.drawn

theorem Untouched.refl (k : Kind) : Untouched k s s :=
  ⟨fun _ => rfl, fun _ => rfl, fun _ => rfl, fun _ => rfl, rfl⟩

theorem touched_challenges {k : Kind} (hk : k ∈ challengeKinds) (l : List WebauthnChallenge) :
    Untouched k s { s with challenges := l } :=
  ⟨fun hno => absurd hk hno, fun _ => rfl, fun _ => rfl, fun _ => rfl, rfl⟩

theorem touched_requests {k : Kind} (hk : k ∈ requestKinds) (l : List StepUpRequest) :
    Untouched k s { s with requests := l } :=
  ⟨fun _ => rfl, fun hno => absurd hk hno, fun _ => rfl, fun _ => rfl, rfl⟩

theorem touched_confirmations {k : Kind} (hk : k ∈ confirmationKinds)
    (l : List StepUpConfirmation) : Untouched k s { s with confirmations := l } :=
  ⟨fun _ => rfl, fun _ => rfl, fun hno => absurd hk hno, fun _ => rfl, rfl⟩

theorem touched_passkeys {k : Kind} (hk : k ∈ passkeyKinds) (l : List Passkey) :
    Untouched k s { s with passkeys := l } :=
  ⟨fun _ => rfl, fun _ => rfl, fun _ => rfl, fun hno => absurd hk hno, rfl⟩

theorem exec_untouched (x : Store) : Untouched x.kind s (s.exec x).2 := by
  have hsame : ∀ k, Untouched k s s := Untouched.refl
  cases x with
  | listPasskeys | getByCredential | liveWindow | getRequest => exact hsame _
  | userHandle principal fresh =>
    simp only [Stores.exec, Stores.done, Stores.userHandle]
    split
    · exact hsame _
    · exact ⟨fun _ => rfl, fun _ => rfl, fun _ => rfl, fun _ => rfl, rfl⟩
  | insertPasskey p =>
    simp only [Stores.exec, Stores.orKeep, Stores.insertPasskey]
    split_ifs
    · exact hsame _
    · exact touched_passkeys (by simp [Store.kind, passkeyKinds]) _
  | recordUse id read new backup now =>
    simp only [Stores.exec, Stores.done, Stores.recordUse]
    split
    · exact hsame _
    · exact touched_passkeys (by simp [Store.kind, passkeyKinds]) _
  | markClone | removePasskey | removeAll =>
    exact touched_passkeys (by simp [Store.kind, passkeyKinds]) _
  | putChallenge c =>
    simp only [Stores.exec, Stores.orKeep, Stores.putChallenge]
    split_ifs
    · exact hsame _
    · exact touched_challenges (by simp [Store.kind, challengeKinds]) _
  | consumeChallenge id session now =>
    simp only [Stores.exec, Stores.done, Stores.consumeChallenge]
    split
    · exact hsame _
    · split_ifs
      · exact hsame _
      · exact touched_challenges (by simp [Store.kind, challengeKinds]) _
  | reapChallenges now =>
    exact touched_challenges (by simp [Store.kind, challengeKinds]) _
  | putConfirmation c =>
    simp only [Stores.exec, Stores.orKeep, Stores.putConfirmation]
    split_ifs
    · exact hsame _
    · exact touched_confirmations (by simp [Store.kind, confirmationKinds]) _
  | consumeAction session principal digest now =>
    simp only [Stores.exec, Stores.done, Stores.consumeAction]
    split
    · exact hsame _
    · exact touched_confirmations (by simp [Store.kind, confirmationKinds]) _
  | deleteWindowsFor | deleteForPasskey =>
    exact touched_confirmations (by simp [Store.kind, confirmationKinds]) _
  | raiseRequest r caps now =>
    simp only [Stores.exec, Stores.raiseRequest]
    split_ifs
    · exact hsame _
    · exact hsame _
    · exact hsame _
    · exact touched_requests (by simp [Store.kind, requestKinds]) _
  | beginExecution id by_ confirmation now =>
    simp only [Stores.exec, Stores.done, Stores.beginExecution]
    split
    · exact hsame _
    · split_ifs
      · exact hsame _
      · exact hsame _
      · exact touched_requests (by simp [Store.kind, requestKinds]) _
  | finishRequest id state status now =>
    simp only [Stores.exec, Stores.finishRequest]
    split_ifs
    · exact hsame _
    · split
      · exact hsame _
      · split_ifs
        · exact hsame _
        · exact touched_requests (by simp [Store.kind, requestKinds]) _
  | reap now olderThan =>
    exact ⟨fun _ => rfl, fun hno => absurd (by simp [Store.kind, requestKinds]) hno,
      fun hno => absurd (by simp [Store.kind, confirmationKinds]) hno, fun _ => rfl, rfl⟩
  | append ev => exact ⟨fun _ => rfl, fun _ => rfl, fun _ => rfl, fun _ => rfl, rfl⟩

/-- A challenge in the store was put there, or was there with the same core. -/
theorem exec_challenges (x : Store) {ch : WebauthnChallenge} (hch : ch ∈ (s.exec x).2.challenges) :
    x = .putChallenge ch ∨ ∃ ch₀ ∈ s.challenges, ch₀.core = ch.core ∧
      (ch.consumedAt = none → ch₀.consumedAt = none) := by
  have hkept : ch ∈ s.challenges → ∃ ch₀ ∈ s.challenges, ch₀.core = ch.core ∧
      (ch.consumedAt = none → ch₀.consumedAt = none) := fun h => ⟨ch, h, rfl, fun hn => hn⟩
  by_cases hk : x.kind ∈ challengeKinds
  case neg => exact .inr (hkept ((exec_untouched x).challenges hk ▸ hch))
  cases x with
  | putChallenge c =>
    simp only [Stores.exec, Stores.orKeep, Stores.putChallenge] at hch
    split_ifs at hch
    · exact .inr (hkept hch)
    · rcases List.mem_append.mp hch with hch | hch
      · exact .inr (hkept hch)
      · exact .inl (by rw [List.mem_singleton.mp hch])
  | consumeChallenge id session now =>
    right
    simp only [Stores.exec, Stores.done, Stores.consumeChallenge] at hch
    split at hch
    · exact hkept hch
    · split_ifs at hch
      · exact hkept hch
      · obtain ⟨ch₀, hmem, rfl⟩ := mem_modifyAt.mp hch
        refine ⟨ch₀, hmem, ?_⟩
        split_ifs
        · exact ⟨rfl, by simp⟩
        · exact ⟨rfl, fun hn => hn⟩
  | reapChallenges now => exact .inr (hkept (List.mem_filter.mp hch).1)
  | _ => simp [Store.kind, challengeKinds] at hk

/-- An answer that came is the stores' own. -/
theorem respond_ok {x : Store} {v : x.Ans} (hr : respond (.store x) a s = (.ok v, s')) :
    s.exec x = (.ok v, s') := by
  rcases respond_store hr with ⟨-, e, he⟩ | ⟨rfl, he | ⟨e, he⟩⟩
  · cases he
  · exact Prod.ext he.symm rfl
  · cases he

/-- A challenge that is taken was in the store for its session, unexpired and not taken before. -/
theorem exec_consumeChallenge {id : Id} {session : Text} {now : ℤ} {row : WebauthnChallenge}
    (hr : s.exec (.consumeChallenge id session now) = (.ok (some row), s')) :
    (∃ ch ∈ s.challenges, ch.core = row.core ∧ ch.consumedAt = none) ∧ row.id = id ∧
      row.sessionHash = session ∧ now < row.expiresAt ∧ ¬ LiveChallenge s' id := by
  simp only [Stores.exec, Stores.done, Stores.consumeChallenge] at hr
  cases hfind : s.challenges.find? (·.id = id) with
  | none => simp [hfind] at hr
  | some ch =>
    simp only [hfind] at hr
    split_ifs at hr with hbad
    · simp at hr
    push Not at hbad
    obtain ⟨hsession, hlive, hlt⟩ := hbad
    simp only [Prod.mk.injEq, Except.ok.injEq, Option.some.injEq] at hr
    obtain ⟨rfl, rfl⟩ := hr
    have hid : ch.id = id := by simpa using List.find?_some hfind
    have hnone : ch.consumedAt = none := by simpa using hlive
    refine ⟨⟨ch, List.mem_of_find?_eq_some hfind, rfl, hnone⟩, hid, hsession, hlt, ?_⟩
    rintro ⟨ch', hmem, hid', hnone'⟩
    obtain ⟨ch₀, -, rfl⟩ := mem_modifyAt.mp hmem
    split_ifs at hid' hnone' with heq
    · exact heq hid'

theorem respond_challenges (hr : respond c a s = (r, s')) {ch : WebauthnChallenge}
    (hch : ch ∈ s'.challenges) : c = .store (.putChallenge ch) ∨
      ∃ ch₀ ∈ s.challenges, ch₀.core = ch.core ∧ (ch.consumedAt = none → ch₀.consumedAt = none) := by
  rcases respond_state hr with rfl | rfl | ⟨x, rfl, rfl⟩
  · exact .inr ⟨ch, hch, rfl, fun hn => hn⟩
  · exact .inr ⟨ch, hch, rfl, fun hn => hn⟩
  · exact (exec_challenges x hch).imp_left fun hx => congrArg Cmd.store hx

theorem WebauthnChallenge.core_id {ch ch' : WebauthnChallenge} (h : ch.core = ch'.core) :
    ch.id = ch'.id := by
  change ch.core.id = ch'.core.id
  rw [h]

/-- What spends a challenge took it from the store. -/
theorem spendsChallenge_eq {x : Exchange Cmd Cmd.Resp} (hx : SpendsChallenge x i) :
    ∃ session now row, x = ⟨.store (.consumeChallenge i session now), .ok (some row)⟩ := by
  unfold SpendsChallenge at hx
  split at hx
  · next id session now row =>
    subst hx
    exact ⟨session, now, row, rfl⟩
  · exact hx.elim

theorem respond_liveChallenge (hr : respond c a s = (r, s')) (hl : LiveChallenge s' i) :
    ¬ SpendsChallenge ⟨c, r⟩ i ∧ (Names ⟨c, r⟩ i ∨ LiveChallenge s i) := by
  constructor
  · intro hspend
    obtain ⟨session, now, row, hx⟩ := spendsChallenge_eq hspend
    obtain ⟨rfl, hr'⟩ := Sigma.mk.inj hx
    obtain rfl := eq_of_heq hr'
    exact (exec_consumeChallenge (respond_ok hr)).2.2.2.2 hl
  · obtain ⟨ch, hmem, hid, hnone⟩ := hl
    rcases respond_challenges hr hmem with rfl | ⟨ch₀, hmem₀, hcore, hlive⟩
    · exact .inl (by simp [Names, Cmd.newId, hid])
    · exact .inr ⟨ch₀, hmem₀, (WebauthnChallenge.core_id hcore).trans hid, hlive hnone⟩

theorem respond_spendsChallenge (hr : respond c a s = (r, s')) (hx : SpendsChallenge ⟨c, r⟩ i) :
    LiveChallenge s i := by
  obtain ⟨session, now, row, heq⟩ := spendsChallenge_eq hx
  obtain ⟨rfl, hr'⟩ := Sigma.mk.inj heq
  obtain rfl := eq_of_heq hr'
  obtain ⟨⟨ch, hmem, hcore, hnone⟩, hid, -⟩ := exec_consumeChallenge (respond_ok hr)
  exact ⟨ch, hmem, (WebauthnChallenge.core_id hcore).trans hid, hnone⟩

theorem exec_confirmations (x : Store) {conf : StepUpConfirmation}
    (hconf : conf ∈ (s.exec x).2.confirmations) : x = .putConfirmation conf ∨
      ∃ conf₀ ∈ s.confirmations, conf₀.core = conf.core ∧
        (conf.consumedAt = none → conf₀.consumedAt = none) := by
  have hkept : conf ∈ s.confirmations → ∃ conf₀ ∈ s.confirmations, conf₀.core = conf.core ∧
      (conf.consumedAt = none → conf₀.consumedAt = none) := fun h => ⟨conf, h, rfl, fun hn => hn⟩
  by_cases hk : x.kind ∈ confirmationKinds
  case neg => exact .inr (hkept ((exec_untouched x).confirmations hk ▸ hconf))
  cases x with
  | putConfirmation c =>
    simp only [Stores.exec, Stores.orKeep, Stores.putConfirmation] at hconf
    split_ifs at hconf
    · exact .inr (hkept hconf)
    · rcases List.mem_append.mp hconf with hconf | hconf
      · exact .inr (hkept hconf)
      · exact .inl (by rw [List.mem_singleton.mp hconf])
  | consumeAction session principal digest now =>
    right
    simp only [Stores.exec, Stores.done, Stores.consumeAction] at hconf
    split at hconf
    · exact hkept hconf
    · obtain ⟨conf₀, hmem, rfl⟩ := mem_modifyAt.mp hconf
      refine ⟨conf₀, hmem, ?_⟩
      split_ifs
      · exact ⟨rfl, by simp⟩
      · exact ⟨rfl, fun hn => hn⟩
  | deleteWindowsFor principal => exact .inr (hkept (List.mem_filter.mp hconf).1)
  | deleteForPasskey passkeyId => exact .inr (hkept (List.mem_filter.mp hconf).1)
  | reap now olderThan => exact .inr (hkept (List.mem_filter.mp hconf).1)
  | _ => simp [Store.kind, confirmationKinds] at hk

theorem pick_mem {α : Type} {better : α → α → Bool} {l : List α} {y : α}
    (hy : pick better l = some y) : y ∈ l := by
  induction l generalizing y with
  | nil => simp [pick] at hy
  | cons x l ih =>
    simp only [pick] at hy
    split at hy
    · obtain rfl := Option.some.inj hy
      exact List.mem_cons_self
    · next z hz =>
      split_ifs at hy
      · obtain rfl := Option.some.inj hy
        exact List.mem_cons_of_mem _ (ih hz)
      · obtain rfl := Option.some.inj hy
        exact List.mem_cons_self

/-- A confirmation that is consumed was in the store for its session, principal and operation,
unexpired and not consumed before. -/
theorem exec_consumeAction {session principal : Text} {digest : Digest} {now : ℤ} {id : Id}
    (hr : s.exec (.consumeAction session principal digest now) = (.ok (some id), s')) :
    (∃ conf ∈ s.confirmations, conf.id = id ∧ conf.coversAction session principal digest now) ∧
      ¬ LiveConfirmation s' id := by
  simp only [Stores.exec, Stores.done, Stores.consumeAction] at hr
  split at hr
  · simp at hr
  next conf hpick =>
  simp only [Prod.mk.injEq, Except.ok.injEq, Option.some.injEq] at hr
  obtain ⟨rfl, rfl⟩ := hr
  obtain ⟨hmem, hcovers⟩ := List.mem_filter.mp (pick_mem hpick)
  refine ⟨⟨conf, hmem, rfl, hcovers⟩, ?_⟩
  rintro ⟨conf', hmem', hid', hnone'⟩
  obtain ⟨conf₀, -, rfl⟩ := mem_modifyAt.mp hmem'
  split_ifs at hid' hnone' with heq
  · exact heq hid'

/-- A window that covers is in the store, of its session and principal and unexpired. -/
theorem exec_liveWindow {session principal : Text} {now until_ : ℤ} {id : Id}
    (hr : s.exec (.liveWindow session principal now) = (.ok (some (id, until_)), s')) :
    ∃ conf ∈ s.confirmations, conf.id = id ∧ conf.coversWindow session principal now := by
  simp only [Stores.exec, Stores.reading, Stores.liveWindow, Prod.mk.injEq, Except.ok.injEq] at hr
  obtain ⟨conf, hpick, heq⟩ := Option.map_eq_some_iff.mp hr.1
  obtain ⟨rfl, -⟩ := Prod.mk.inj heq
  obtain ⟨hmem, hcovers⟩ := List.mem_filter.mp (pick_mem hpick)
  exact ⟨conf, hmem, rfl, hcovers⟩

theorem respond_confirmations (hr : respond c a s = (r, s')) {conf : StepUpConfirmation}
    (hconf : conf ∈ s'.confirmations) : c = .store (.putConfirmation conf) ∨
      ∃ conf₀ ∈ s.confirmations, conf₀.core = conf.core ∧
        (conf.consumedAt = none → conf₀.consumedAt = none) := by
  rcases respond_state hr with rfl | rfl | ⟨x, rfl, rfl⟩
  · exact .inr ⟨conf, hconf, rfl, fun hn => hn⟩
  · exact .inr ⟨conf, hconf, rfl, fun hn => hn⟩
  · exact (exec_confirmations x hconf).imp_left fun hx => congrArg Cmd.store hx

theorem StepUpConfirmation.core_id {conf conf' : StepUpConfirmation}
    (h : conf.core = conf'.core) : conf.id = conf'.id := by
  change conf.core.id = conf'.core.id
  rw [h]

theorem spendsConfirmation_eq {x : Exchange Cmd Cmd.Resp} (hx : SpendsConfirmation x i) :
    ∃ session principal digest now,
      x = ⟨.store (.consumeAction session principal digest now), .ok (some i)⟩ := by
  unfold SpendsConfirmation at hx
  split at hx
  · next session principal digest now id =>
    subst hx
    exact ⟨session, principal, digest, now, rfl⟩
  · exact hx.elim

theorem respond_liveConfirmation (hr : respond c a s = (r, s')) (hl : LiveConfirmation s' i) :
    ¬ SpendsConfirmation ⟨c, r⟩ i ∧ (Names ⟨c, r⟩ i ∨ LiveConfirmation s i) := by
  constructor
  · intro hspend
    obtain ⟨session, principal, digest, now, hx⟩ := spendsConfirmation_eq hspend
    obtain ⟨rfl, hr'⟩ := Sigma.mk.inj hx
    obtain rfl := eq_of_heq hr'
    exact (exec_consumeAction (respond_ok hr)).2 hl
  · obtain ⟨conf, hmem, hid, hnone⟩ := hl
    rcases respond_confirmations hr hmem with rfl | ⟨conf₀, hmem₀, hcore, hlive⟩
    · exact .inl (by simp [Names, Cmd.newId, hid])
    · exact .inr ⟨conf₀, hmem₀, (StepUpConfirmation.core_id hcore).trans hid, hlive hnone⟩

theorem respond_spendsConfirmation (hr : respond c a s = (r, s'))
    (hx : SpendsConfirmation ⟨c, r⟩ i) : LiveConfirmation s i := by
  obtain ⟨session, principal, digest, now, heq⟩ := spendsConfirmation_eq hx
  obtain ⟨rfl, hr'⟩ := Sigma.mk.inj heq
  obtain rfl := eq_of_heq hr'
  obtain ⟨⟨conf, hmem, hid, hcovers⟩, -⟩ := exec_consumeAction (respond_ok hr)
  simp only [StepUpConfirmation.coversAction, decide_eq_true_eq] at hcovers
  exact ⟨conf, hmem, hid, Option.isNone_iff_eq_none.mp hcovers.2.2.2.2.1⟩

theorem SameRequest.refl (q : StepUpRequest) : SameRequest q q := ⟨rfl, .inr rfl⟩

theorem SameRequest.trans {q₁ q₂ q₃ : StepUpRequest} (h₁ : SameRequest q₁ q₂)
    (h₂ : SameRequest q₂ q₃) : SameRequest q₁ q₃ := by
  refine ⟨h₂.1.trans h₁.1, ?_⟩
  rcases h₂.2 with hnone | hsame
  · exact .inl hnone
  · rw [hsame]
    exact h₁.2

theorem SameRequest.id_eq {q₀ q : StepUpRequest} (h : SameRequest q₀ q) : q.id = q₀.id := by
  change q.core.id = q₀.core.id
  rw [h.1]

theorem exec_requests (x : Store) {q : StepUpRequest} (hq : q ∈ (s.exec x).2.requests) :
    (∃ caps now, x = .raiseRequest q caps now) ∨ ∃ q₀ ∈ s.requests, SameRequest q₀ q ∧
      (q.state = .pending → q₀.state = .pending) := by
  have hkept : q ∈ s.requests → ∃ q₀ ∈ s.requests, SameRequest q₀ q ∧
      (q.state = .pending → q₀.state = .pending) := fun h => ⟨q, h, .refl q, fun hn => hn⟩
  by_cases hk : x.kind ∈ requestKinds
  case neg => exact .inr (hkept ((exec_untouched x).requests hk ▸ hq))
  cases x with
  | raiseRequest row caps now =>
    simp only [Stores.exec, Stores.raiseRequest] at hq
    split_ifs at hq
    · exact .inr (hkept hq)
    · exact .inr (hkept hq)
    · exact .inr (hkept hq)
    · rcases List.mem_append.mp hq with hq | hq
      · exact .inr (hkept hq)
      · exact .inl ⟨caps, now, by rw [List.mem_singleton.mp hq]⟩
  | beginExecution id by_ confirmation now =>
    right
    simp only [Stores.exec, Stores.done, Stores.beginExecution] at hq
    split at hq
    · exact hkept hq
    next row hfind =>
    split_ifs at hq
    · exact hkept hq
    · exact hkept hq
    · obtain ⟨q₀, hmem, rfl⟩ := mem_modifyAt.mp hq
      split_ifs
      · exact ⟨row, List.mem_of_find?_eq_some hfind, ⟨rfl, .inr rfl⟩, by simp⟩
      · exact ⟨q₀, hmem, .refl q₀, fun hn => hn⟩
  | finishRequest id state status now =>
    right
    simp only [Stores.exec, Stores.finishRequest] at hq
    split_ifs at hq with hterminal
    · exact hkept hq
    split at hq
    · exact hkept hq
    next row hfind =>
    split_ifs at hq
    · exact hkept hq
    · obtain ⟨q₀, hmem, rfl⟩ := mem_modifyAt.mp hq
      split_ifs
      · refine ⟨row, List.mem_of_find?_eq_some hfind, ⟨rfl, .inl rfl⟩, ?_⟩
        rintro rfl
        simp [RequestState.isTerminal] at hterminal
      · exact ⟨q₀, hmem, .refl q₀, fun hn => hn⟩
  | reap now olderThan =>
    right
    obtain ⟨q₀, hmem, rfl⟩ := List.mem_map.mp (List.mem_filter.mp hq).1
    refine ⟨q₀, hmem, ?_⟩
    simp only [Stores.dropSealed]
    split_ifs
    · exact ⟨⟨rfl, .inl rfl⟩, fun hn => hn⟩
    · exact ⟨.refl q₀, fun hn => hn⟩
  | _ => simp [Store.kind, requestKinds] at hk

/-- A request that begins executing was pending and unexpired, and is what it was. -/
theorem exec_beginExecution {id confirmation : Id} {by_ : Text} {now : ℤ} {q : StepUpRequest}
    (hr : s.exec (.beginExecution id by_ confirmation now) = (.ok (.begun q), s')) :
    (∃ q₀ ∈ s.requests, SameRequest q₀ q ∧ q₀.state = .pending ∧ now < q₀.expiresAt) ∧
      q.id = id ∧ ¬ LiveRequest s' id := by
  simp only [Stores.exec, Stores.done, Stores.beginExecution] at hr
  split at hr
  · simp at hr
  next row hfind =>
  split_ifs at hr with hstate hexpired
  · simp at hr
  · simp at hr
  simp only [Prod.mk.injEq, Except.ok.injEq, BeginExecution.begun.injEq] at hr
  obtain ⟨rfl, rfl⟩ := hr
  have hid : row.id = id := by simpa using List.find?_some hfind
  refine ⟨⟨row, List.mem_of_find?_eq_some hfind, ⟨rfl, .inr rfl⟩, by simpa using hstate, by omega⟩,
    hid, ?_⟩
  rintro ⟨q', hmem, hid', hpending⟩
  obtain ⟨q₀, -, rfl⟩ := mem_modifyAt.mp hmem
  split_ifs at hid' hpending with heq
  · exact heq hid'

/-- A request that is read is in the store. -/
theorem exec_getRequest {id : Id} {q : StepUpRequest}
    (hr : s.exec (.getRequest id) = (.ok (some q), s')) : q ∈ s.requests ∧ q.id = id := by
  simp only [Stores.exec, Stores.reading, Stores.getRequest, Prod.mk.injEq, Except.ok.injEq] at hr
  exact ⟨List.mem_of_find?_eq_some hr.1, by simpa using List.find?_some hr.1⟩

theorem respond_requests (hr : respond c a s = (r, s')) {q : StepUpRequest} (hq : q ∈ s'.requests) :
    (∃ caps now, c = .store (.raiseRequest q caps now)) ∨ ∃ q₀ ∈ s.requests, SameRequest q₀ q ∧
      (q.state = .pending → q₀.state = .pending) := by
  rcases respond_state hr with rfl | rfl | ⟨x, rfl, rfl⟩
  · exact .inr ⟨q, hq, .refl q, fun hn => hn⟩
  · exact .inr ⟨q, hq, .refl q, fun hn => hn⟩
  · refine (exec_requests x hq).imp_left ?_
    rintro ⟨caps, now, rfl⟩
    exact ⟨caps, now, rfl⟩

theorem spendsRequest_eq {x : Exchange Cmd Cmd.Resp} (hx : SpendsRequest x i) :
    ∃ by_ confirmation now q,
      x = ⟨.store (.beginExecution i by_ confirmation now), .ok (.begun q)⟩ := by
  unfold SpendsRequest at hx
  split at hx
  · next id by_ confirmation now q =>
    subst hx
    exact ⟨by_, confirmation, now, q, rfl⟩
  · exact hx.elim

theorem respond_liveRequest (hr : respond c a s = (r, s')) (hl : LiveRequest s' i) :
    ¬ SpendsRequest ⟨c, r⟩ i ∧ (Names ⟨c, r⟩ i ∨ LiveRequest s i) := by
  constructor
  · intro hspend
    obtain ⟨by_, confirmation, now, q, hx⟩ := spendsRequest_eq hspend
    obtain ⟨rfl, hr'⟩ := Sigma.mk.inj hx
    obtain rfl := eq_of_heq hr'
    exact (exec_beginExecution (respond_ok hr)).2.2 hl
  · obtain ⟨q, hmem, hid, hpending⟩ := hl
    rcases respond_requests hr hmem with ⟨caps, now, rfl⟩ | ⟨q₀, hmem₀, hsame, hstate⟩
    · exact .inl (by simp [Names, Cmd.newId, hid])
    · exact .inr ⟨q₀, hmem₀, hsame.id_eq.symm.trans hid, hstate hpending⟩

theorem respond_spendsRequest (hr : respond c a s = (r, s')) (hx : SpendsRequest ⟨c, r⟩ i) :
    LiveRequest s i := by
  obtain ⟨by_, confirmation, now, q, heq⟩ := spendsRequest_eq hx
  obtain ⟨rfl, hr'⟩ := Sigma.mk.inj heq
  obtain rfl := eq_of_heq hr'
  obtain ⟨⟨q₀, hmem, hsame, hpending, -⟩, hid, -⟩ := exec_beginExecution (respond_ok hr)
  exact ⟨q₀, hmem, hsame.id_eq.symm.trans hid, hpending⟩

/-- A passkey in the store was enrolled, or was there under the same credential. -/
theorem exec_passkeys (x : Store) {p : Passkey} (hp : p ∈ (s.exec x).2.passkeys) :
    x = .insertPasskey p ∨ ∃ p₀ ∈ s.passkeys, p₀.core = p.core := by
  have hkept : p ∈ s.passkeys → ∃ p₀ ∈ s.passkeys, p₀.core = p.core := fun h => ⟨p, h, rfl⟩
  by_cases hk : x.kind ∈ passkeyKinds
  case neg => exact .inr (hkept ((exec_untouched x).passkeys hk ▸ hp))
  cases x with
  | insertPasskey p' =>
    simp only [Stores.exec, Stores.orKeep, Stores.insertPasskey] at hp
    split_ifs at hp
    · exact .inr (hkept hp)
    · rcases List.mem_append.mp hp with hp | hp
      · exact .inr (hkept hp)
      · exact .inl (by rw [List.mem_singleton.mp hp])
  | recordUse id read new backup now =>
    right
    simp only [Stores.exec, Stores.done, Stores.recordUse] at hp
    split at hp
    · exact hkept hp
    · obtain ⟨p₀, hmem, rfl⟩ := mem_modifyAt.mp hp
      refine ⟨p₀, hmem, ?_⟩
      split_ifs
      · simp only [Passkey.use]
        split_ifs <;> rfl
      · rfl
  | markClone id now =>
    right
    obtain ⟨p₀, hmem, rfl⟩ := mem_modifyAt.mp hp
    refine ⟨p₀, hmem, ?_⟩
    split_ifs <;> rfl
  | removePasskey principal id => exact .inr (hkept (List.mem_filter.mp hp).1)
  | removeAll principal => exact .inr (hkept (List.mem_filter.mp hp).1)
  | _ => simp [Store.kind, passkeyKinds] at hk

theorem respond_passkeys (hr : respond c a s = (r, s')) {p : Passkey} (hp : p ∈ s'.passkeys) :
    c = .store (.insertPasskey p) ∨ ∃ p₀ ∈ s.passkeys, p₀.core = p.core := by
  rcases respond_state hr with rfl | rfl | ⟨x, rfl, rfl⟩
  · exact .inr ⟨p, hp, rfl⟩
  · exact .inr ⟨p, hp, rfl⟩
  · exact (exec_passkeys x hp).imp_left fun hx => congrArg Cmd.store hx

end rows
end Scarab.StepUp
