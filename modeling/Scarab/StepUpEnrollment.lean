import Scarab.StepUpCaps

/-!
# Passkeys are enrolled by permission

In every run each passkey in the store was enrolled, in the session that was permitted to add it,
under a challenge that enrolled no other.
-/
namespace Scarab.StepUp

open Depot (Bytes)
open Interleave

/-- A command of a call that stores a passkey, and the challenge it is enrolled under. -/
structure Enrollment (host : Host) (g : Config (stepUp host)) (pid : ℕ)
    (older : List (Exchange Cmd Cmd.Resp)) (challengeId : Id) (row : WebauthnChallenge)
    (p : Passkey) : Prop where
  stored : ∃ newer x, ownOf g.log pid = newer ++ x :: older ∧ x.1 = .store (.insertPasskey p)
  enrolled : ∃ l, StartedAs g.log pid l ∧ EnrolledBy host l older challengeId row p
  first : NoEnroll older

/-- The `passkey.add` that minted a challenge: the first passkey of a fresh login, or one that was
confirmed. -/
def AddPermitted (host : Host) (g : Config (stepUp host)) (row : WebauthnChallenge) (p : Passkey) :
    Prop :=
  ∃ pid caller raw routed facts newer x older ch, StartedAs g.log pid (.governed caller raw) ∧
    ownOf g.log pid = newer ++ x :: older ∧ x.1 = .store (.putChallenge ch) ∧ ch.core = row.core ∧
    host.route raw = some routed ∧ routed.handler = .conditional (.passkeyAdd p.label) ∧
    caller.subject = p.principal ∧ caller.browserSession = some facts ∧
    facts.idHash = p.createdSessionHash ∧ Permitted none caller raw routed older

/-- What a run does with the passkeys: each one held was stored by a command, each such command is an
enrollment that was permitted, and a challenge enrolls one passkey, kept or not. -/
structure EnrolledOnce (host : Host) (g : Config (stepUp host)) : Prop where
  held : ∀ p ∈ g.state.passkeys, ∃ pid x p₀, x ∈ ownOf g.log pid ∧
    x.1 = .store (.insertPasskey p₀) ∧ p₀.core = p.core
  permitted : ∀ pid newer x older p, ownOf g.log pid = newer ++ x :: older →
    x.1 = .store (.insertPasskey p) → ∃ challengeId row,
      Enrollment host g pid older challengeId row p ∧ AddPermitted host g row p
  once : ∀ challengeId pid pid' older older' row row' p q,
    Enrollment host g pid older challengeId row p →
    Enrollment host g pid' older' challengeId row' q → pid = pid' ∧ older = older' ∧ p = q

section runs

variable {host : Host} {cond : Config (stepUp host) → Entry (stepUp host) → Prop} {s : Stores}
  {g : Config (stepUp host)} {pid : ℕ}

/-- Every passkey of a reached state was stored by a call. -/
theorem passkey_stored (hnone : s.passkeys = []) (hr : Reach cond s g) {p : Passkey}
    (hp : p ∈ g.state.passkeys) : ∃ pid x p₀, x ∈ ownOf g.log pid ∧
      x.1 = .store (.insertPasskey p₀) ∧ p₀.core = p.core := by
  have horigin := Reach.comes_from (M := stepUp host) (fun s p => p ∈ s.passkeys)
    (fun x p => x.1 = .store (.insertPasskey p)) (fun p₀ p => p₀.core = p.core) (fun _ => rfl)
    (fun _ _ _ h₁ h₂ => h₁.trans h₂) ?_ ?_ hr p hp
  · obtain ⟨pid, x, hx, p₀, hput, hcore⟩ := horigin
    exact ⟨pid, x, p₀, hx, hput, hcore⟩
  · intro c a s r s' hresp p hp
    exact respond_passkeys hresp hp
  · intro p hp
    simp [hnone] at hp

/-- Every command that stores a passkey enrolls it. -/
theorem enrollment_of (hr : Reach cond s g) {newer older : List (Exchange Cmd Cmd.Resp)}
    {x : Exchange Cmd Cmd.Resp} {p : Passkey} (hsplit : ownOf g.log pid = newer ++ x :: older)
    (hput : x.1 = .store (.insertPasskey p)) :
    ∃ challengeId row, Enrollment host g pid older challengeId row p := by
  obtain ⟨l, hl, hduty⟩ := duty_at hr hsplit
  obtain ⟨hno, challengeId, row, hby⟩ := hduty.enroll p hput
  exact ⟨challengeId, row, ⟨newer, x, hsplit, hput⟩, ⟨l, hl, hby⟩, hno⟩

theorem Enrollment.subset {older : List (Exchange Cmd Cmd.Resp)} {challengeId : Id}
    {row : WebauthnChallenge} {p : Passkey} (he : Enrollment host g pid older challengeId row p) :
    older ⊆ ownOf g.log pid := by
  obtain ⟨newer, x, hsplit, -⟩ := he.stored
  rw [hsplit]
  exact List.subset_append_of_subset_right _ (List.subset_cons_self _ _)

/-- A replay has no browser session. -/
theorem RunsAs.no_browser {human : Text} {r : StepUpRequest} {session : Option Text}
    {runner : Caller} {h : List (Exchange Cmd Cmd.Resp)}
    (hruns : RunsAs host human r session runner h) : runner.browserSession = none := by
  unfold RunsAs at hruns
  split at hruns
  · obtain ⟨token, roles, now, -, -, -, -, -, rfl⟩ := hruns
    rfl
  · obtain ⟨sid, row, roles, now, -, -, -, -, -, -, rfl⟩ := hruns
    rfl

/-- A challenge to enroll under is minted by a permitted `passkey.add` alone. -/
theorem register_origin (hblank : Blank s) (hr : Reach cond s g) {row : WebauthnChallenge}
    {id : Id} {session : Text} {now : ℤ} (hpurpose : row.purpose = .register)
    (hx : ⟨.store (.consumeChallenge id session now), .ok (some row)⟩ ∈ ownOf g.log pid) :
    ∃ pid caller raw routed facts label newer x older ch, StartedAs g.log pid (.governed caller raw) ∧
      ownOf g.log pid = newer ++ x :: older ∧ x.1 = .store (.putChallenge ch) ∧
      ch.core = row.core ∧ host.route raw = some routed ∧
      routed.handler = .conditional (.passkeyAdd label) ∧ row.label = some label ∧
      caller.subject = row.principal ∧ caller.browserSession = some facts ∧
      facts.idHash = row.sessionHash ∧ Permitted none caller raw routed older := by
  obtain ⟨g₀, s₁, hr₀, hexec, newer₀, hlog⟩ := answered_at hr hx
  obtain ⟨⟨ch₁, hch, hcore₁, -⟩, -⟩ := exec_consumeChallenge hexec
  obtain ⟨pid', x, hx', ch, hput, hcore₀⟩ := challenge_minted hblank hr₀ hch
  have hcore : ch.core = row.core := hcore₀.trans hcore₁
  have hxin : x ∈ ownOf g.log pid' := (hlog ▸ ownOf_mono : _ <:+ ownOf g.log pid').subset hx'
  obtain ⟨newer, older, hsplit⟩ := List.append_of_mem hxin
  obtain ⟨l, hl, hduty⟩ := duty_at hr hsplit
  have hfields : ch.purpose = .register ∧ ch.principal = row.principal ∧
      ch.sessionHash = row.sessionHash ∧ ch.label = row.label := by
    simp only [WebauthnChallenge.core, WebauthnChallenge.mk.injEq] at hcore
    obtain ⟨-, hprincipal, hsession, hpur, -, -, -, hlabel, -⟩ := hcore
    exact ⟨hpur.trans hpurpose, hprincipal, hsession, hlabel⟩
  obtain ⟨hregister, hprincipal, hsession, hlabel⟩ := hfields
  have heffect := hduty.effect (by rw [hput]; exact hregister)
  cases l with
  | governed caller raw =>
    obtain ⟨-, routed, hroute, hcarries, hperm⟩ := heffect
    rw [hput] at hcarries
    obtain ⟨facts, label, nonce, i, at_, hfacts, hhandler, rfl⟩ := hcarries
    exact ⟨pid', caller, raw, routed, facts, label, newer, x, older, _, hl, hsplit, hput, hcore,
      hroute, hhandler, hlabel.symm, hprincipal, hfacts, hsession, hperm⟩
  | confirmRequest caller i challengeId credential =>
    obtain ⟨-, r, confirmation, sealed, body, sid, requester, runner, routed, -, -, -, -, hruns, -,
      hcarries, -⟩ := heffect
    rw [hput] at hcarries
    obtain ⟨facts, -, -, -, -, hfacts, -⟩ := hcarries
    rw [hruns.no_browser] at hfacts
    cases hfacts
  | registration caller challengeId credential =>
    rw [hput] at heffect
    cases heffect
  | resetPasskeys principal at_ =>
    rw [hput] at heffect
    cases heffect
  | stepUpOptions | stepUpConfirm | requestOptions | reap => exact heffect.elim

/-- An enrollment is permitted by the `passkey.add` that minted its challenge. -/
theorem Enrollment.permitted (hblank : Blank s) (hr : Reach cond s g)
    {older : List (Exchange Cmd Cmd.Resp)} {challengeId : Id} {row : WebauthnChallenge} {p : Passkey}
    (he : Enrollment host g pid older challengeId row p) : AddPermitted host g row p := by
  obtain ⟨l, -, caller, credential, facts, now, sent, cred, -, -, htaken, -, heq⟩ := he.enrolled
  have hmem : ⟨.store (.consumeChallenge challengeId facts.idHash now), .ok (some row)⟩ ∈
      ownOf g.log pid := he.subset htaken.answered
  obtain ⟨pid', caller', raw, routed, facts', label, newer, x, older', ch, hl, hsplit, hput, hcore,
    hroute, hhandler, hlabel, hsubject, hfacts, hsession, hperm⟩ :=
    register_origin hblank hr (by simpa using htaken.purpose) hmem
  obtain ⟨g₀, s₁, -, hexec, -⟩ := answered_at hr hmem
  obtain ⟨-, -, hrow, -⟩ := exec_consumeChallenge hexec
  have hprincipal : p.principal = caller.subject := by rw [heq]; rfl
  have hcreated : p.createdSessionHash = facts.idHash := by rw [heq]; rfl
  have hlabel' : label = p.label := by
    rw [heq]
    simp [enrolledPasskey, hlabel]
  exact ⟨pid', caller', raw, routed, facts', newer, x, older', ch, hl, hsplit, hput, hcore, hroute,
    hlabel' ▸ hhandler, (hsubject.trans htaken.principal).trans hprincipal.symm, hfacts,
    (hsession.trans hrow).trans hcreated.symm, hperm⟩

/-- Of two places in a history one is the other or lies before it. -/
theorem split_cases {α : Type} {n n' o o' : List α} {x x' : α} (h : n ++ x :: o = n' ++ x' :: o') :
    (x = x' ∧ o = o') ∨ x' ∈ o ∨ x ∈ o' := by
  rcases List.append_eq_append_iff.mp h with ⟨m, -, hm⟩ | ⟨m, -, hm⟩
  · cases m with
    | nil => exact .inl (List.cons.inj hm)
    | cons y m =>
      obtain ⟨-, rfl⟩ := List.cons.inj hm
      exact .inr (.inl (List.mem_append_right _ List.mem_cons_self))
  · cases m with
    | nil =>
      obtain ⟨hx, ho⟩ := List.cons.inj hm
      exact .inl ⟨hx.symm, ho.symm⟩
    | cons y m =>
      obtain ⟨-, rfl⟩ := List.cons.inj hm
      exact .inr (.inr (List.mem_append_right _ List.mem_cons_self))

/-- A challenge is taken once, and the call that took it enrolls once. -/
theorem enrollment_once (hblank : Blank s) (hr : Reach cond s g) {challengeId : Id} {pid' : ℕ}
    {older older' : List (Exchange Cmd Cmd.Resp)} {row row' : WebauthnChallenge} {p q : Passkey}
    (hp : Enrollment host g pid older challengeId row p)
    (hq : Enrollment host g pid' older' challengeId row' q) :
    pid = pid' ∧ older = older' ∧ p = q := by
  obtain ⟨l, -, caller, credential, facts, now, sent, cred, -, -, htaken, -⟩ := hp.enrolled
  obtain ⟨l', -, caller', credential', facts', now', sent', cred', -, -, htaken', -⟩ := hq.enrolled
  have hpid : pid = pid' := (challenge_once hblank hr challengeId).same_pid
    (hp.subset htaken.answered) (hq.subset htaken'.answered) rfl rfl
  subst hpid
  obtain ⟨newer, x, hsplit, hput⟩ := hp.stored
  obtain ⟨newer', x', hsplit', hput'⟩ := hq.stored
  rcases split_cases (hsplit.symm.trans hsplit') with ⟨rfl, rfl⟩ | hmem | hmem
  · rw [hput] at hput'
    simp only [Cmd.store.injEq, Store.insertPasskey.injEq] at hput'
    exact ⟨rfl, rfl, hput'⟩
  · exact absurd hput' (hp.first x' hmem q)
  · exact absurd hput (hq.first x hmem p)

/-- In every run each passkey was added by permission of its principal's session, under a challenge
that enrolled no other, whatever became of the passkeys. -/
theorem enrolled_once (hblank : Blank s) (hnone : s.passkeys = []) (hr : Reach cond s g) :
    EnrolledOnce host g := by
  refine ⟨fun p hp => passkey_stored hnone hr hp, fun pid newer x older p hsplit hput => ?_,
    fun challengeId pid pid' older older' row row' p q hp hq => enrollment_once hblank hr hp hq⟩
  obtain ⟨challengeId, row, he⟩ := enrollment_of hr hsplit hput
  exact ⟨challengeId, row, he, he.permitted hblank hr⟩

/-- The first passkey of a fresh login, and its challenge answered again. -/
theorem enrolled_once_first : ∃ g, Reach (M := stepUp sampleHost) (fun _ _ => True)
    ⟨[], [], [], [], [], [], 0⟩ g ∧ EnrolledOnce sampleHost g ∧ g.state.passkeys.length = 1 := by
  obtain ⟨g, hr, htest⟩ := Reach.of_play (M := stepUp sampleHost) ⟨[], [], [], [], [], [], 0⟩
    [.start (.governed { sampleCaller with session := some ⟨['k'], ['s'], some 100⟩ }
        ⟨['a'], ['p'], [], []⟩), .runOut 0 12 sampleAnswer,
      .start (.registration sampleCaller 0 []), .runOut 1 12 sampleAnswer,
      .start (.registration sampleCaller 0 []), .runOut 2 12 sampleAnswer]
    (fun g => g.state.passkeys.length = 1) (by decide +kernel)
  exact ⟨g, hr, enrolled_once ⟨rfl, rfl, rfl⟩ rfl hr, of_decide_eq_true htest⟩

end runs
end Scarab.StepUp
