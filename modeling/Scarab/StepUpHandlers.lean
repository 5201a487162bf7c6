import Scarab.StepUpGuard

/-!
# What the guard's handlers do

Each handler has one effect, and has it only where the guard permits it.
-/
namespace Scarab.StepUp

open Depot (Bytes)
open Interleave
open Prog (Since)

/-- The challenge a passkey is enrolled under. -/
def registerChallenge (caller : Caller) (facts : SessionFacts) (label : Text) (nonce : Bytes)
    (id : Id) (now : ℤ) : WebauthnChallenge where
  id := id
  principal := caller.subject
  sessionHash := facts.idHash
  purpose := .register
  nonce := nonce
  actionDigest := none
  requestId := none
  label := some label
  summary := none
  createdAt := now
  expiresAt := now + webauthnChallengeTtlMs
  consumedAt := none

/-- What the handler of an operation does: performs it, removes passkeys, or lets one be
enrolled. -/
def Carries (caller : Caller) (raw : RawRequest) (routed : Routed) : Cmd → Prop
  | .ask (.perform c r) => c = caller ∧ r = raw ∧
      (routed.handler = .crownJewel .other ∨ routed.handler = .conditional .other)
  | .store (.removePasskey principal id) => principal = caller.subject ∧
      routed.handler = .crownJewel (.passkeyRemove id)
  | .store (.removeAll _) => routed.handler = .crownJewel .passkeyReset
  | .store (.putChallenge ch) => ∃ facts label nonce id now, caller.browserSession = some facts ∧
      routed.handler = .conditional (.passkeyAdd label) ∧
      ch = registerChallenge caller facts label nonce id now
  | _ => False

/-- What the guard may issue before a handler's effect. -/
def quietKinds : List Kind := [.append, .readPasskeys, .liveWindow, .consumeAction, .deleteForPasskey]

/-- The id a command gives to the row it stores. -/
def Cmd.newId : Cmd → Option Id
  | .store (.insertPasskey p) => some p.id
  | .store (.putChallenge c) => some c.id
  | .store (.putConfirmation c) => some c.id
  | .store (.raiseRequest r _ _) => some r.id
  | _ => none

/-- The id of a new row was drawn by the exchange before. -/
def JustDrawn (h : List (Exchange Cmd Cmd.Resp)) (c : Cmd) : Prop :=
  ∀ id, c.newId = some id → ∃ older, h = ⟨.drawId, id⟩ :: older

section handlers

variable {host : Host} {J : List (Exchange Cmd Cmd.Resp) → Cmd → Prop}
  {h : List (Exchange Cmd Cmd.Resp)} {replay : Option ReplayAuthority} {p : Prepared}
  {summary : OpSummary} {caller : Caller} {raw : RawRequest} {routed : Routed}

theorem askKinds_quiet : askKinds ⊆ quietKinds := by simp [askKinds, quietKinds]

theorem quiet {K : List Kind} {h h' : List (Exchange Cmd Cmd.Resp)} (hs : Since (Within K) h h')
    (hK : K ⊆ quietKinds) : Since (Within quietKinds) h h' :=
  hs.mono fun _ => Within.mono hK

/-- The obligations of the decision on a guarded request. -/
structure Askable (host : Host) (J : List (Exchange Cmd Cmd.Resp) → Cmd → Prop)
    (replay : Option ReplayAuthority) (p : Prepared) (summary : OpSummary)
    (h : List (Exchange Cmd Cmd.Resp)) : Prop where
  easy : Easy J
  mint : ∀ h' facts nonce id now, h <:+ h' → replay = none →
    p.caller.browserSession = some facts → J (⟨.drawId, id⟩ :: ⟨.ask .randomBytes, nonce⟩ :: h')
      (.store (.putChallenge (guardChallenge p summary facts nonce id now)))
  raise : ∀ h' requester now id sealed, h <:+ h' → replay = none →
    p.caller.browserSession = none → requesterOf p.caller = some requester →
    ⟨.ask .clock, now⟩ ∈ h' → p.raw.body.length ≤ p.routed.op.maxRequestBody →
    host.sealRequest p.raw.body (sealedSession p.caller requester) id = some sealed →
    J (⟨.drawId, id⟩ :: h') (.store (.raiseRequest
      (raisedRow p summary requester id sealed now) .default now))

theorem event_wp {kind : EventKind} {subject caller : Text} {org : Option Text} {now : ℤ}
    (hJ : Easy J) : (event replay kind subject caller org now).wp J h fun h' ev =>
      ∃ id, h' = ⟨.drawId, id⟩ :: h ∧ ev = ⟨id, org, now, kind, subject, caller, none, none, none,
        replay.map (·.requestId), none, none⟩ :=
  ⟨hJ _ _ (by simp), fun id => ⟨id, rfl, rfl⟩⟩

theorem authorise_wp (hask : Askable host J replay p summary h) :
    (authorise host replay p summary).wp J h fun h' confirmation =>
      Covered replay p summary h' confirmation ∧ Logged p.caller p.routed h' confirmation ∧
        Since (Within askKinds) h h' := by
  have hJ := hask.easy
  refine Prog.wp_bind (require_wp hJ hask.mint hask.raise) fun h₁ confirmation _ hQ => ?_
  obtain ⟨hcovered, hs₁⟩ := hQ
  refine Prog.wp_bind (ask_wp (hJ.ask (by simp))) fun h₂ now _ heq => ?_
  subst heq
  refine Prog.wp_bind (event_wp hJ) fun h₃ ev _ heq => ?_
  obtain ⟨id, rfl, rfl⟩ := heq
  refine Prog.wp_bind (tryStore_wp (hJ _ _ (by simp [Store.kind, easyKinds])))
    fun h₄ logged hsub heq => ?_
  subst heq
  cases logged with
  | error e => trivial
  | ok done =>
    have hs : Since (Within askKinds) h (⟨.drawId, id⟩ :: ⟨.ask .clock, now⟩ :: h₁) :=
      (hs₁.cons (within_clock _)).cons (within_drawId _)
    refine ⟨hcovered.mono ?_, ⟨_, List.mem_cons_self, rfl, rfl, rfl, rfl⟩,
      hs.cons (by simp [Store.kind, askKinds])⟩
    exact ((List.suffix_cons _ _).trans (List.suffix_cons _ _)).trans hsub

theorem completed_wp {confirmation : Id} (hJ : Easy J) :
    (completed replay p confirmation).wp J h fun _ _ => True :=
  Prog.wp_mono (easy_wp completed_within hJ (by simp [easyKinds])) fun _ _ _ _ => trivial

theorem removePasskey_wp {id : Id} {confirmation : Option Id} (hJ : Easy J)
    (heffect : ∀ h', Since (Within quietKinds) h h' →
      J h' (.store (.removePasskey caller.subject id))) :
    (removePasskey replay caller id confirmation).wp J h fun _ _ => True := by
  refine wp_after (K := [.readPasskeys]) (store_within (by simp [Store.kind])) hJ
    (by simp [easyKinds]) fun h₁ held hs₁ => ?_
  split_ifs
  · trivial
  refine wp_after (K := [.deleteForPasskey]) (store_within (by simp [Store.kind])) hJ
    (by simp [easyKinds]) fun h₂ _ hs₂ => ?_
  have hs := (quiet hs₂ (by simp [quietKinds])).trans (quiet hs₁ (by simp [quietKinds]))
  refine Prog.wp_bind (store_wp (heffect h₂ hs)) fun h₃ removed _ _ => ?_
  split_ifs
  · trivial
  refine wp_after (K := [.deleteForPasskey]) (tryStore_within (by simp [Store.kind])) hJ
    (by simp [easyKinds]) fun h₄ late _ => ?_
  refine wp_after (K := []) clock_within hJ (by simp) fun _ now _ => ?_
  refine wp_after (K := []) event_within hJ (by simp) fun _ ev _ => ?_
  refine wp_after record_within hJ (by simp [easyKinds]) fun _ _ _ => ?_
  cases late <;> trivial

theorem resetMemberPasskeys_wp {confirmation : Option Id} (hJ : Easy J)
    (heffect : ∀ h' subject, Since (Within quietKinds) h h' → J h' (.store (.removeAll subject))) :
    (resetMemberPasskeys replay caller raw confirmation).wp J h fun _ _ => True := by
  refine wp_after (K := []) (ask_within (by simp)) hJ (by simp) fun h₁ found hs₁ => ?_
  refine orElse_wp fun target _ => ?_
  obtain ⟨org, subject⟩ := target
  refine Prog.wp_bind (store_wp (heffect h₁ subject (quiet hs₁ (by simp)))) fun h₂ _ _ _ => ?_
  refine wp_after (K := [.deleteWindowsFor]) (store_within (by simp [Store.kind])) hJ
    (by simp [easyKinds]) fun h₃ _ _ => ?_
  exact wp_after (K := []) clock_within hJ (by simp) fun _ now _ =>
    wp_after (K := []) event_within hJ (by simp) fun _ ev _ =>
      wp_after record_within hJ (by simp [easyKinds]) fun _ _ _ => trivial

theorem crownJewelHandler_wp {w : CrownJewel} {confirmation : Option Id} (hJ : Easy J)
    (hw : routed.handler = .crownJewel w)
    (heffect : ∀ h' c, Since (Within quietKinds) h h' → Carries caller raw routed c →
      JustDrawn h' c → J h' c) : (crownJewelHandler replay caller raw w confirmation).wp J h fun _ _ => True := by
  cases w with
  | passkeyRemove id => exact removePasskey_wp hJ fun h' hs => heffect h' _ hs ⟨rfl, hw⟩ (by simp [JustDrawn, Cmd.newId])
  | passkeyReset =>
    exact resetMemberPasskeys_wp hJ fun h' subject hs =>
      heffect h' _ hs hw (by simp [JustDrawn, Cmd.newId])
  | other =>
    refine wp_after (K := []) (ask_within (by simp)) hJ (by simp) fun h₁ allowed hs₁ => ?_
    split_ifs
    · have hperform := heffect h₁ (.ask (.perform caller raw)) (quiet hs₁ (by simp))
        ⟨rfl, rfl, .inl hw⟩ (by simp [JustDrawn, Cmd.newId])
      exact Prog.wp_mono (ask_wp hperform) fun _ _ _ _ => trivial
    · trivial

theorem registrationChallenge_wp {facts : SessionFacts} {label : Text} {now : ℤ} (hJ : Easy J)
    (hput : ∀ nonce id, J (⟨.drawId, id⟩ :: ⟨.ask .randomBytes, nonce⟩ :: h)
      (.store (.putChallenge (registerChallenge caller facts label nonce id now)))) :
    (registrationChallenge host caller facts label now).wp J h fun _ _ => True := by
  refine Prog.wp_bind (mintChallenge_wp hJ hput) fun h₁ _ _ _ => ?_
  refine wp_after (K := []) (ask_within (by simp)) hJ (by simp) fun h₂ fresh _ => ?_
  exact wp_after (K := [.userHandle]) (store_within (by simp [Store.kind])) hJ
    (by simp [easyKinds]) fun _ _ _ => trivial

/-- A passkey of a fresh login's principal without any, or one that was confirmed. -/
theorem passkeyRegistrationOptions_wp {label : Text} {org : Option Text} (hJ : Easy J)
    (hw : routed.handler = .conditional (.passkeyAdd label))
    (hask : ∀ h' summary, h <:+ h' → Judged caller raw routed h' summary →
      Askable host J replay ⟨caller, raw, routed, org⟩ summary h')
    (heffect : ∀ h' c, Since (Within quietKinds) h h' → Carries caller raw routed c →
      JustDrawn h' c → Permitted replay caller raw routed h' → J h' c) :
    (passkeyRegistrationOptions host replay ⟨caller, raw, routed, org⟩ label).wp J h
      fun _ _ => True := by
  refine Prog.wp_bind (Q := fun h₁ facts => caller.browserSession = some facts ∧
    Since (Within quietKinds) h h₁) ?_ fun h₁ facts _ hfacts => ?_
  · rw [browserSession]
    cases hsession : caller.browserSession with
    | some facts => exact ⟨rfl, Since.refl⟩
    | none =>
      exact wp_after (K := []) clock_within hJ (by simp) fun _ now _ =>
        wp_after recordCeremonyRefusal_within hJ (by simp [easyKinds]) fun _ _ _ => trivial
  obtain ⟨hfacts, hs₁⟩ := hfacts
  refine Prog.wp_bind (ask_wp (hJ.ask (by simp))) fun h₂ now _ heq => ?_
  subst heq
  refine Prog.wp_bind (store_wp (hJ _ _ (by simp [Store.kind, easyKinds]))) fun h₃ all _ heq => ?_
  subst heq
  have hs₃ : Since (Within quietKinds) h
      (⟨.store (.listPasskeys caller.subject), .ok all⟩ :: ⟨.ask .clock, now⟩ :: h₁) :=
    (hs₁.cons (within_clock _)).cons (by simp [Store.kind, quietKinds])
  have hfinish : ∀ h' (found : Option Id), Since (Within quietKinds) h h' →
      Permitted replay caller raw routed h' → (do
        let resp ← (registrationChallenge host caller facts label now).attempt
        pure (resp, found) : Eff (Except ApiError Response × Option Id)).wp J h'
          fun _ _ => True := fun h' found hs hperm => by
    refine Prog.wp_bind (Q := fun _ _ => True) ?_ fun _ _ _ _ => trivial
    refine Prog.wp_attempt (registrationChallenge_wp hJ fun nonce id => ?_) (by simp) (by simp)
    have hsub : h' <:+ ⟨.drawId, id⟩ :: ⟨.ask .randomBytes, nonce⟩ :: h' :=
      (List.suffix_cons _ _).trans (List.suffix_cons _ _)
    refine heffect _ _ ((hs.cons (within_ask _ (by simp))).cons (within_drawId _)) ?_ ?_
      (hperm.mono hsub)
    · exact ⟨facts, label, nonce, id, now, hfacts, hw, rfl⟩
    · intro i hi
      obtain rfl := Option.some.inj hi
      exact ⟨_, rfl⟩
  have hrefused : ∀ h' (e : ApiError), (do
      recordEnrollRefusal replay ⟨caller, raw, routed, org⟩ facts label now
      .err e : Eff (Except ApiError Response × Option Id)).wp J h' fun _ _ => True := fun h' e =>
    wp_after recordEnrollRefusal_within hJ (by simp [easyKinds]) fun _ _ _ => trivial
  split_ifs with hempty hfresh hflagged
  · refine hfinish _ none hs₃ (.inl ?_)
    obtain ⟨until_, huntil, hlt⟩ := (Option.any_eq_true _ _).mp hfresh
    have hnil : all = [] := by simpa using hempty
    simp only [Unasked, hw]
    exact ⟨by simp [hnil], facts, until_, now, hfacts, huntil, by simp, of_decide_eq_true hlt⟩
  · exact hrefused _ _
  · exact hrefused _ _
  · have hjudged : ∀ h', Judged caller raw routed h'
        (routed.summary.loosened ["add passkey ".toList ++ label]) := fun h' => by
      simp only [Judged, hw]
    refine Prog.wp_bind (authorise_wp (hask _ _ hs₃.suffix (hjudged _))) fun h₄ confirmation _ hQ => ?_
    obtain ⟨hcovered, hlogged, hs₄⟩ := hQ
    refine hfinish h₄ _ ((quiet hs₄ askKinds_quiet).trans hs₃) (.inr ?_)
    exact ⟨org, _, confirmation, hjudged h₄, hcovered, hlogged⟩

theorem conditionalHandler_wp {w : Conditional} {org : Option Text} (hJ : Easy J)
    (hw : routed.handler = .conditional w)
    (hask : ∀ h' summary, h <:+ h' → Judged caller raw routed h' summary →
      Askable host J replay ⟨caller, raw, routed, org⟩ summary h')
    (heffect : ∀ h' c, Since (Within quietKinds) h h' → Carries caller raw routed c →
      JustDrawn h' c → Permitted replay caller raw routed h' → J h' c) :
    (conditionalHandler host replay ⟨caller, raw, routed, org⟩ w).wp J h fun _ _ => True := by
  cases w with
  | passkeyAdd label => exact passkeyRegistrationOptions_wp hJ hw hask heffect
  | other =>
    refine wp_after (K := []) (ask_within (by simp)) hJ (by simp) fun h₁ allowed hs₁ => ?_
    split_ifs
    · refine Prog.wp_bind (ask_wp (hJ.ask (by simp))) fun h₂ judged _ heq => ?_
      subst heq
      have hs₂ : Since (Within quietKinds) h (⟨.ask (.judge caller raw), judged⟩ :: h₁) :=
        (quiet hs₁ (by simp)).cons (within_ask _ (by simp))
      have hperform : ∀ h', Since (Within quietKinds) h h' →
          Permitted replay caller raw routed h' → J h' (.ask (.perform caller raw)) :=
        fun h' hs hperm => heffect h' _ hs ⟨rfl, rfl, .inr hw⟩ (by simp [JustDrawn, Cmd.newId]) hperm
      cases judged with
      | none =>
        refine Prog.wp_bind (ask_wp (hperform _ hs₂ (.inl ?_))) fun _ _ _ _ => trivial
        simp only [Unasked, hw]
        exact List.mem_cons_self
      | some loosenings =>
        have hjudged : Judged caller raw routed (⟨.ask (.judge caller raw), some loosenings⟩ :: h₁)
            (routed.summary.loosened loosenings) := by
          simp only [Judged, hw]
          exact ⟨loosenings, List.mem_cons_self, rfl⟩
        refine Prog.wp_bind (authorise_wp (hask _ _ hs₂.suffix hjudged))
          fun h₃ confirmation hsub hQ => ?_
        obtain ⟨hcovered, hlogged, hs₃⟩ := hQ
        have hs := (quiet hs₃ askKinds_quiet).trans hs₂
        refine Prog.wp_bind (ask_wp (hperform _ hs (.inr ?_))) fun _ _ _ _ => trivial
        exact ⟨org, _, confirmation, hjudged.mono hsub, hcovered, hlogged⟩
    · trivial

/-- The guard: each handler's effect comes with what permits it. -/
theorem guard_wp (hJ : Easy J)
    (hask : ∀ h' routed org summary, h <:+ h' → host.route raw = some routed →
      Judged caller raw routed h' summary → Askable host J replay ⟨caller, raw, routed, org⟩ summary h')
    (heffect : ∀ h' routed c, host.route raw = some routed → Since (Within quietKinds) h h' →
      Carries caller raw routed c → JustDrawn h' c → Permitted replay caller raw routed h' →
      J h' c) : (guard host replay caller raw).wp J h fun _ _ => True := by
  unfold guard
  split
  · trivial
  next routed hroute =>
  split
  · next w hw =>
    refine Prog.wp_bind (ask_wp (hJ.ask (by simp))) fun h₁ reaches _ heq => ?_
    subst heq
    have hs₁ : Since (Within quietKinds) h
        (⟨.ask (.reachesMinRole caller routed.op), reaches⟩ :: h) := since_ask (by simp)
    have hhandler : ∀ h' found, Since (Within quietKinds) h h' →
        Permitted replay caller raw routed h' →
        (crownJewelHandler replay caller raw w found).wp J h' fun _ _ => True :=
      fun h' found hs hperm => crownJewelHandler_wp hJ hw fun h'' c hs' hc hdrawn =>
        heffect h'' routed c hroute (hs'.trans hs) hc hdrawn (hperm.mono hs'.suffix)
    cases reaches with
    | true =>
      refine wp_after (K := []) (ask_within (by simp)) hJ (by simp) fun h₂ org hs₂ => ?_
      have hs₂ := (quiet hs₂ (by simp)).trans hs₁
      have hjudged : ∀ h', Judged caller raw routed h' routed.summary := fun h' => by
        simp only [Judged, hw]
      refine Prog.wp_bind (authorise_wp (hask h₂ routed org routed.summary hs₂.suffix hroute
        (hjudged h₂))) fun h₃ confirmation _ hQ => ?_
      obtain ⟨hcovered, hlogged, hs₃⟩ := hQ
      have hs := (quiet hs₃ askKinds_quiet).trans hs₂
      refine Prog.wp_bind (Q := fun _ _ => True) (Prog.wp_attempt (hhandler h₃ _ hs (.inr
        ⟨org, routed.summary, confirmation, hjudged h₃, hcovered, hlogged⟩)) (by simp) (by simp))
        fun h₄ resp _ _ => ?_
      refine Prog.wp_bind (completed_wp hJ) fun _ _ _ _ => ?_
      cases resp <;> trivial
    | false =>
      refine hhandler _ _ hs₁ (.inl ?_)
      simp only [Unasked, hw]
      exact List.mem_cons_self
  · next w hw =>
    refine wp_after (K := []) (ask_within (by simp)) hJ (by simp) fun h₁ org hs₁ => ?_
    refine Prog.wp_bind (conditionalHandler_wp hJ hw (fun h' summary hsub hjudged => ?_)
      fun h' c hs hc hdrawn hperm => ?_) fun h₂ answer _ _ => ?_
    · exact hask h' routed org summary (hs₁.suffix.trans hsub) hroute hjudged
    · exact heffect h' routed c hroute (hs.trans (quiet hs₁ (by simp))) hc hdrawn hperm
    · refine Prog.wp_bind (Q := fun _ _ => True) ?_ fun _ _ _ _ => ?_
      · exact Prog.wp_mono (easy_wp completedTicket_within hJ (by simp [easyKinds]))
          fun _ _ _ _ => trivial
      · cases answer.1 <;> trivial

end handlers
end Scarab.StepUp
