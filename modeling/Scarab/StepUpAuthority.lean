import Scarab.StepUpRows

/-!
# Authorised once

In every run a governed operation takes effect at most once for each confirmation, and each
confirmation is one answer of a passkey to one challenge that showed the operation.
-/
namespace Scarab.StepUp

open Depot (Bytes)
open Interleave

section runs

variable {host : Host} {cond : Config (stepUp host) → Entry (stepUp host) → Prop} {s : Stores}
  {g : Config (stepUp host)} {pid : ℕ}

/-- No challenge, confirmation or request yet. -/
structure Blank (s : Stores) : Prop where
  challenges : s.challenges = []
  confirmations : s.confirmations = []
  requests : s.requests = []

/-- A command of a call, justified by what the call did before. -/
theorem duty_at (hr : Reach cond s g) {x : Exchange Cmd Cmd.Resp}
    {newer older : List (Exchange Cmd Cmd.Resp)} (hx : ownOf g.log pid = newer ++ x :: older) :
    ∃ l, StartedAs g.log pid l ∧ Duty host l older x.1 := by
  obtain ⟨g₀, e, g₁, newer', hr₀, hs, -, -, hlog, rfl, hw, -, rfl⟩ := hr.moment_split hx
  have hj : g₀.Justified (Duty host) fun _ _ _ => True := Reach.justified handle_duty hr₀
  obtain ⟨l, ⟨e', he', hstarted⟩, hduty⟩ := hs.justified hj hw
  exact ⟨l, ⟨e', by simp [hlog, he'], hstarted⟩, hduty⟩

theorem duty_of_mem (hr : Reach cond s g) {x : Exchange Cmd Cmd.Resp} (hx : x ∈ ownOf g.log pid) :
    ∃ l older, StartedAs g.log pid l ∧ older <:+ ownOf g.log pid ∧ Duty host l older x.1 := by
  obtain ⟨newer, older, hsplit⟩ := List.append_of_mem hx
  obtain ⟨l, hl, hduty⟩ := duty_at hr hsplit
  exact ⟨l, older, hl, ⟨newer ++ [x], by simp [hsplit]⟩, hduty⟩

/-- An answer that came is one of the stores of an earlier configuration. -/
theorem answered_at (hr : Reach cond s g) {x : Store} {v : x.Ans}
    (hx : ⟨.store x, .ok v⟩ ∈ ownOf g.log pid) : ∃ g₀ s₁, Reach cond s g₀ ∧
      g₀.state.exec x = (.ok v, s₁) ∧ ∃ newer, g.log = newer ++ g₀.log := by
  obtain ⟨g₀, e, g₁, newer, hr₀, hs, -, -, hlog, -, hw⟩ := hr.moment hx
  refine ⟨g₀, g₁.state, hr₀, ?_, newer ++ [e], by simp [hlog]⟩
  rcases hs.state_cases with ⟨-, hquiet⟩ | ⟨c, r, a, hw', hresp⟩
  · exact absurd hw (hquiet _ _)
  · rw [hw] at hw'
    obtain ⟨rfl, hr'⟩ := Occurrence.did.inj hw'
    obtain rfl := eq_of_heq hr'
    exact respond_ok hresp

theorem startedAs_mono {newer log : List (Entry (stepUp host))} {l : Call}
    (hl : StartedAs log pid l) : StartedAs (newer ++ log) pid l := by
  obtain ⟨e, he, hp, hw⟩ := hl
  exact ⟨e, List.mem_append_right _ he, hp, hw⟩

theorem ownOf_mono {newer log : List (Entry (stepUp host))} :
    ownOf log pid <:+ ownOf (newer ++ log) pid := by
  rw [ownOf_append]
  exact List.suffix_append _ _

theorem started_once (hr : Reach cond s g) {l l' : Call} (hl : StartedAs g.log pid l)
    (hl' : StartedAs g.log pid l') : l = l' := by
  have hj : g.Justified (fun _ _ _ => True) fun _ _ _ => True :=
    Reach.justified (fun l => Prog.wp_of_forall fun _ _ => trivial) hr
  exact hj.once pid l l' hl hl'

/-- No two rows are stored under one id. -/
theorem names_apart (hr : Reach cond s g) (i : Id) :
    Apart g.log fun x y => Names x i → ¬ Names y i := by
  have hdraws : Apart g.log fun x y => Draws x i → ¬ Draws y i := by
    refine Reach.draws_apart (fun s : Stores => s.drawn) Draws ?_ ?_ hr i
    · intro c a s r s' hresp i hd
      obtain ⟨rfl, hr'⟩ := Sigma.mk.inj hd
      obtain ⟨rfl, rfl⟩ := Prod.mk.inj hresp
      obtain rfl : s.drawn = i := eq_of_heq hr'
      exact ⟨le_rfl, Nat.lt_succ_self _⟩
    · intro c a s r s' hresp
      rcases respond_state hresp with rfl | rfl | ⟨x, rfl, rfl⟩
      · exact le_rfl
      · exact Nat.le_succ _
      · exact (exec_untouched x).drawn.ge
  refine apart_of_owes hdraws fun newer e older hlog c r hw hname => ?_
  obtain ⟨g₀, g₁, hr₀, hs, -, -, rfl⟩ := hr.at_entry hlog
  have hj : g₀.Justified (Duty host) fun _ _ _ => True := Reach.justified handle_duty hr₀
  obtain ⟨l, -, hduty⟩ := hs.justified hj hw
  exact hduty.fresh i hname

/-- No challenge is taken twice. -/
theorem challenge_once (hblank : Blank s) (hr : Reach cond s g) (i : Id) :
    Apart g.log fun x y => SpendsChallenge x i → ¬ SpendsChallenge y i := by
  refine Reach.spent_once (M := stepUp host) LiveChallenge Names SpendsChallenge ?_ ?_ ?_ hr
    (names_apart hr i)
  · exact fun c a s r s' hresp i hl => respond_liveChallenge hresp hl
  · exact fun c a s r s' hresp hspend => respond_spendsChallenge hresp hspend
  · rintro i ⟨ch, hmem, -⟩
    simp [hblank.challenges] at hmem

/-- No confirmation is consumed twice. -/
theorem confirmation_once (hblank : Blank s) (hr : Reach cond s g) (i : Id) :
    Apart g.log fun x y => SpendsConfirmation x i → ¬ SpendsConfirmation y i := by
  refine Reach.spent_once (M := stepUp host) LiveConfirmation Names SpendsConfirmation ?_ ?_ ?_ hr
    (names_apart hr i)
  · exact fun c a s r s' hresp i hl => respond_liveConfirmation hresp hl
  · exact fun c a s r s' hresp hspend => respond_spendsConfirmation hresp hspend
  · rintro i ⟨conf, hmem, -⟩
    simp [hblank.confirmations] at hmem

/-- Every challenge of a reached state was stored by a call. -/
theorem challenge_minted (hblank : Blank s) (hr : Reach cond s g) {ch : WebauthnChallenge}
    (hch : ch ∈ g.state.challenges) : ∃ pid, ∃ x ∈ ownOf g.log pid, ∃ ch₀,
      x.1 = .store (.putChallenge ch₀) ∧ ch₀.core = ch.core := by
  refine Reach.comes_from (M := stepUp host) (fun s ch => ch ∈ s.challenges)
    (fun x ch => x.1 = .store (.putChallenge ch)) (fun ch₀ ch => ch₀.core = ch.core)
    (fun _ => rfl) (fun _ _ _ h₁ h₂ => h₁.trans h₂) ?_ ?_ hr ch hch
  · intro c a s r s' hresp ch hch
    rcases respond_challenges hresp hch with hput | ⟨ch₀, hmem, hcore, -⟩
    · exact .inl hput
    · exact .inr ⟨ch₀, hmem, hcore⟩
  · intro ch hch
    simp [hblank.challenges] at hch

/-- Every challenge of a reached state was minted by a call that justifies it. -/
theorem challenge_origin (hblank : Blank s) (hr : Reach cond s g) {ch : WebauthnChallenge}
    (hch : ch ∈ g.state.challenges) : ∃ pid l older ch₀, StartedAs g.log pid l ∧
      older <:+ ownOf g.log pid ∧ Duty host l older (.store (.putChallenge ch₀)) ∧
      ch₀.core = ch.core := by
  obtain ⟨pid, x, hx, ch₀, hput, hcore⟩ := challenge_minted hblank hr hch
  obtain ⟨l, older, hl, hsub, hduty⟩ := duty_of_mem hr hx
  exact ⟨pid, l, older, ch₀, hl, hsub, hput ▸ hduty, hcore⟩

/-- Every confirmation of a reached state was made by a call that justifies it. -/
theorem confirmation_origin (hblank : Blank s) (hr : Reach cond s g) {conf : StepUpConfirmation}
    (hconf : conf ∈ g.state.confirmations) : ∃ pid l older conf₀, StartedAs g.log pid l ∧
      older <:+ ownOf g.log pid ∧ ConfirmDuty host l older conf₀ ∧ conf₀.core = conf.core := by
  have horigin := Reach.comes_from (M := stepUp host) (fun s conf => conf ∈ s.confirmations)
    (fun x conf => x.1 = .store (.putConfirmation conf))
    (fun conf₀ conf => conf₀.core = conf.core) (fun _ => rfl) (fun _ _ _ h₁ h₂ => h₁.trans h₂)
    ?_ ?_ hr conf hconf
  · obtain ⟨pid, x, hx, conf₀, hput, hcore⟩ := horigin
    obtain ⟨l, older, hl, hsub, hduty⟩ := duty_of_mem hr hx
    exact ⟨pid, l, older, conf₀, hl, hsub, hduty.confirm conf₀ hput, hcore⟩
  · intro c a s r s' hresp conf hconf
    rcases respond_confirmations hresp hconf with hput | ⟨conf₀, hmem, hcore, -⟩
    · exact .inl hput
    · exact .inr ⟨conf₀, hmem, hcore⟩
  · intro conf hconf
    simp [hblank.confirmations] at hconf

theorem ShownBy.mono {l : Call} {h h' : List (Exchange Cmd Cmd.Resp)} {ch : WebauthnChallenge}
    (hs : ShownBy host l h ch) (hsub : h <:+ h') : ShownBy host l h' ch := by
  obtain ⟨caller, raw, routed, org, summary, facts, hl, hroute, hjudged, hrest⟩ := hs
  exact ⟨caller, raw, routed, org, summary, facts, hl, hroute, hjudged.mono hsub, hrest⟩

theorem SignedBy.mono {l : Call} {h h' : List (Exchange Cmd Cmd.Resp)} {challengeId : Id}
    {row : WebauthnChallenge} {conf : StepUpConfirmation}
    (hs : SignedBy host l h challengeId row conf) (hsub : h <:+ h') :
    SignedBy host l h' challengeId row conf := by
  obtain ⟨caller, credential, facts, now, sent, passkey, hl, hfacts, hclock, htaken, hsigned, heq,
    ev, hev, hrest⟩ := hs
  exact ⟨caller, credential, facts, now, sent, passkey, hl, hfacts, hsub.subset hclock,
    htaken.mono hsub, hsigned.mono hsub, heq, ev, hsub.subset hev, hrest⟩

/-- A confirmation a passkey of the principal made in the session. -/
def Signature (host : Host) (g : Config (stepUp host)) (principal session : Text) (now : ℤ)
    (confirmation challengeId : Id) (row : WebauthnChallenge) (conf : StepUpConfirmation) : Prop :=
  (∃ pid l, StartedAs g.log pid l ∧ SignedBy host l (ownOf g.log pid) challengeId row conf) ∧
    conf.id = confirmation ∧ conf.principal = principal ∧ conf.sessionHash = session ∧
    now < conf.expiresAt

/-- An open window of the session. -/
def WindowSigned (host : Host) (g : Config (stepUp host)) (principal session : Text) (now : ℤ)
    (confirmation : Id) : Prop :=
  ∃ challengeId row conf, Signature host g principal session now confirmation challengeId row conf ∧
    row.purpose = .window

/-- A confirmation of one operation: the challenge answered was minted by the guard for it. -/
def ActionSigned (host : Host) (g : Config (stepUp host)) (principal session : Text)
    (digest : Digest) (now : ℤ) (confirmation : Id) : Prop :=
  ∃ challengeId row conf, Signature host g principal session now confirmation challengeId row conf ∧
    row.purpose = .action ∧ row.actionDigest = some digest ∧
    ∃ pid l shown, StartedAs g.log pid l ∧ ShownBy host l (ownOf g.log pid) shown ∧
      shown.core = row.core

/-- A window or action confirmation in the store, as its call signed it. -/
theorem signature_of (hblank : Blank s) {g₀ : Config (stepUp host)}
    (hr₀ : Reach cond s g₀) (hlog : ∃ newer, g.log = newer ++ g₀.log) {conf : StepUpConfirmation}
    (hconf : conf ∈ g₀.state.confirmations) (hkind : conf.kind ≠ .request) {now : ℤ}
    (hlt : now < conf.expiresAt) : ∃ challengeId row conf₀,
      Signature host g conf.principal conf.sessionHash now conf.id challengeId row conf₀ ∧
        conf.kind = kindOf row.purpose ∧ conf.actionDigest = row.actionDigest ∧
        (row.purpose = .window ∨ row.purpose = .action) := by
  obtain ⟨pid, l, older, conf₀, hl, hsub, hduty, hcore⟩ := confirmation_origin hblank hr₀ hconf
  have hfields : conf₀.kind = conf.kind ∧ conf₀.principal = conf.principal ∧
      conf₀.sessionHash = conf.sessionHash ∧ conf₀.expiresAt = conf.expiresAt ∧
      conf₀.actionDigest = conf.actionDigest := by
    simp only [StepUpConfirmation.core, StepUpConfirmation.mk.injEq] at hcore
    obtain ⟨-, hprincipal, hsession, -, hkind', hdigest, -, -, hexpires, -⟩ := hcore
    exact ⟨hkind', hprincipal, hsession, hexpires, hdigest⟩
  obtain ⟨hkind', hprincipal, hsession, hexpires, hdigest⟩ := hfields
  obtain ⟨challengeId, row, hsigned⟩ := hduty (hkind'.trans_ne hkind)
  obtain ⟨newer, hlog⟩ := hlog
  refine ⟨challengeId, row, conf₀, ⟨⟨pid, l, hlog ▸ startedAs_mono hl, ?_⟩,
    StepUpConfirmation.core_id hcore, hprincipal, hsession, hexpires ▸ hlt⟩, ?_, ?_, ?_⟩
  · exact hsigned.mono (hsub.trans (hlog ▸ ownOf_mono))
  · obtain ⟨caller, credential, facts, at_, sent, passkey, -, -, -, -, -, heq, -⟩ := hsigned
    rw [← hkind', heq]
  · obtain ⟨caller, credential, facts, at_, sent, passkey, -, -, -, -, -, heq, -⟩ := hsigned
    rw [← hdigest, heq]
  · obtain ⟨caller, credential, facts, at_, sent, passkey, -, -, -, htaken, -⟩ := hsigned
    simpa using htaken.purpose

/-- A challenge answered for an action was minted by the guard to show it. -/
theorem shown_of (hblank : Blank s) (hr : Reach cond s g) {principal session : Text} {now : ℤ}
    {confirmation challengeId : Id} {row : WebauthnChallenge} {conf : StepUpConfirmation}
    (hsig : Signature host g principal session now confirmation challengeId row conf)
    (hpurpose : row.purpose = .action) : ∃ pid l shown, StartedAs g.log pid l ∧
      ShownBy host l (ownOf g.log pid) shown ∧ shown.core = row.core := by
  obtain ⟨⟨pid, l, hl, caller, credential, facts, at_, sent, passkey, -, -, -, htaken, -⟩, -⟩ := hsig
  obtain ⟨g₀, s₁, hr₀, hexec, newer, hlog⟩ := answered_at hr htaken.answered
  obtain ⟨⟨ch, hch, hcore, -⟩, -⟩ := exec_consumeChallenge hexec
  obtain ⟨pid', l', older, shown, hl', hsub, hduty, hcore'⟩ := challenge_origin hblank hr₀ hch
  refine ⟨pid', l', shown, hlog ▸ startedAs_mono hl', ?_, hcore'.trans hcore⟩
  have hshown : shown.purpose = .action := by
    have hpurpose' : shown.core.purpose = row.core.purpose := by rw [hcore'.trans hcore]
    exact hpurpose'.trans hpurpose
  exact ((hduty.challenge shown rfl).2.1 hshown).mono (hsub.trans (hlog ▸ ownOf_mono))

/-- What a run authorises: every effect of a governed operation, by what its call was answered at a
clock reading of its own, and each confirmation and challenge once. -/
structure AuthorisedOnce (host : Host) (g : Config (stepUp host)) : Prop where
  effect : ∀ pid caller raw newer x older, StartedAs g.log pid (.governed caller raw) →
    ownOf g.log pid = newer ++ x :: older → Effect x.1 → (∀ y ∈ older, ¬ Effect y.1) ∧
    ∃ routed, host.route raw = some routed ∧ Carries caller raw routed x.1 ∧
      (Unasked caller raw routed older ∨ ∃ facts confirmation now,
        caller.browserSession = some facts ∧ Logged caller routed older confirmation ∧
        ⟨.ask .clock, now⟩ ∈ older ∧
        (routed.op.mode = .window →
          (∃ until_, ⟨.store (.liveWindow facts.idHash caller.subject now),
            .ok (some (confirmation, until_))⟩ ∈ older) ∧
          WindowSigned host g caller.subject facts.idHash now confirmation) ∧
        (routed.op.mode = .alwaysAsk →
          ⟨.store (.consumeAction facts.idHash caller.subject routed.digest now),
            .ok (some confirmation)⟩ ∈ older ∧
          ActionSigned host g caller.subject facts.idHash routed.digest now confirmation))
  confirmation : ∀ i, Apart g.log fun x y => SpendsConfirmation x i → ¬ SpendsConfirmation y i
  challenge : ∀ i, Apart g.log fun x y => SpendsChallenge x i → ¬ SpendsChallenge y i

theorem windowSigned_of (hblank : Blank s) (hr : Reach cond s g) {session principal : Text}
    {now until_ : ℤ} {confirmation : Id}
    (hx : ⟨.store (.liveWindow session principal now), .ok (some (confirmation, until_))⟩ ∈
      ownOf g.log pid) : WindowSigned host g principal session now confirmation := by
  obtain ⟨g₀, s₁, hr₀, hexec, hlog⟩ := answered_at hr hx
  obtain ⟨conf, hmem, hid, hcovers⟩ := exec_liveWindow hexec
  simp only [StepUpConfirmation.coversWindow, decide_eq_true_eq] at hcovers
  obtain ⟨hkind, hsession, hprincipal, hlt⟩ := hcovers
  obtain ⟨challengeId, row, conf₀, hsig, hkind', -, hpurpose⟩ :=
    signature_of hblank hr₀ hlog hmem (by simp [hkind]) hlt
  rw [hid, hsession, hprincipal] at hsig
  refine ⟨challengeId, row, conf₀, hsig, hpurpose.resolve_right fun haction => ?_⟩
  simp [hkind, haction, kindOf] at hkind'

theorem actionSigned_of (hblank : Blank s) (hr : Reach cond s g) {session principal : Text}
    {digest : Digest} {now : ℤ} {confirmation : Id}
    (hx : ⟨.store (.consumeAction session principal digest now), .ok (some confirmation)⟩ ∈
      ownOf g.log pid) : ActionSigned host g principal session digest now confirmation := by
  obtain ⟨g₀, s₁, hr₀, hexec, hlog⟩ := answered_at hr hx
  obtain ⟨⟨conf, hmem, hid, hcovers⟩, -⟩ := exec_consumeAction hexec
  simp only [StepUpConfirmation.coversAction, decide_eq_true_eq] at hcovers
  obtain ⟨hkind, hsession, hprincipal, hdigest, -, hlt⟩ := hcovers
  obtain ⟨challengeId, row, conf₀, hsig, hkind', hdigest', hpurpose⟩ :=
    signature_of hblank hr₀ hlog hmem (by simp [hkind]) hlt
  rw [hid, hsession, hprincipal] at hsig
  have haction : row.purpose = .action := by
    refine hpurpose.resolve_left fun hwindow => ?_
    simp [hkind, hwindow, kindOf] at hkind'
  exact ⟨challengeId, row, conf₀, hsig, haction, hdigest'.symm.trans hdigest,
    shown_of hblank hr hsig haction⟩

/-- In every run an operation takes effect once, after its session's human confirmed it and the
authorisation was logged: with an open window, or with a confirmation of that very operation that
nothing else uses. -/
theorem authorised_once (hblank : Blank s) (hr : Reach cond s g) : AuthorisedOnce host g := by
  refine ⟨fun pid caller raw newer x older hl hsplit heffect => ?_, confirmation_once hblank hr,
    challenge_once hblank hr⟩
  obtain ⟨l, hl', hduty⟩ := duty_at hr hsplit
  obtain rfl := started_once hr hl hl'
  obtain ⟨hno, routed, hroute, hcarries, hperm⟩ := hduty.effect heffect
  refine ⟨hno, routed, hroute, hcarries, ?_⟩
  have hsub : older ⊆ ownOf g.log pid := by
    rw [hsplit]
    exact List.subset_append_of_subset_right _ (List.subset_cons_self _ _)
  rcases hperm with hunasked | ⟨org, summary, confirmation, -, hcovered, hlogged⟩
  · exact .inl hunasked
  · obtain ⟨facts, now, hfacts, hclock, hask, hwindow⟩ := hcovered.confirmed rfl
    refine .inr ⟨facts, confirmation, now, hfacts, hlogged, hclock, fun hmode => ?_,
      fun hmode => ?_⟩
    · obtain ⟨until_, hfound⟩ := hwindow hmode
      exact ⟨⟨until_, hfound⟩, windowSigned_of hblank hr (hsub hfound)⟩
    · exact ⟨hask hmode, actionSigned_of hblank hr (hsub (hask hmode))⟩

/-- An operation refused, confirmed and performed. -/
theorem authorised_once_asked : ∃ g, Reach (M := stepUp sampleHost) (fun _ _ => True) sampleStores g ∧
    AuthorisedOnce sampleHost g ∧ ∃ x ∈ ownOf g.log 2, Effect x.1 := by
  obtain ⟨g, hr, htest⟩ := Reach.of_play (M := stepUp sampleHost) sampleStores
    [.start (.governed sampleCaller ⟨[], ['p'], [], [7]⟩), .runOut 0 12 sampleAnswer,
      .start (.stepUpConfirm sampleCaller 0 []), .runOut 1 12 sampleAnswer,
      .start (.governed sampleCaller ⟨[], ['p'], [], [7]⟩), .acts 2 10 sampleAnswer]
    (fun g => (ownOf g.log 2).any fun x => x.1 = .ask (.perform sampleCaller ⟨[], ['p'], [], [7]⟩))
    (by decide +kernel)
  obtain ⟨x, hx, hperform⟩ := List.any_eq_true.mp htest
  refine ⟨g, hr, authorised_once ⟨rfl, rfl, rfl⟩ hr, x, hx, ?_⟩
  rw [of_decide_eq_true hperform]
  trivial

end runs
end Scarab.StepUp
