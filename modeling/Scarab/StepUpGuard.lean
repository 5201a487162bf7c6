import Scarab.StepUpSpecs

/-!
# What the guard lets through

A governed operation goes to its handler on a confirmation of its own digest, on an open window, as
the replay of a confirmed request, or unasked.
-/
namespace Scarab.StepUp

open Depot (Bytes)
open Interleave
open Prog (Since)

/-- The challenge a refusal carries. -/
def guardChallenge (p : Prepared) (summary : OpSummary) (facts : SessionFacts) (nonce : Bytes)
    (id : Id) (now : ℤ) : WebauthnChallenge where
  id := id
  principal := p.caller.subject
  sessionHash := facts.idHash
  purpose := if p.routed.op.mode = .alwaysAsk then .action else .window
  nonce := nonce
  actionDigest := if p.routed.op.mode = .alwaysAsk then some p.routed.digest else none
  requestId := none
  label := none
  summary := some ⟨p.routed.op.id, p.org, summary, none⟩
  createdAt := now
  expiresAt := now + webauthnChallengeTtlMs
  consumedAt := none

/-- The session a request of a bearer session is sealed with. -/
def sealedSession (caller : Caller) : StepUpRequester → Option Text
  | .bearerSession _ => caller.session.map (·.id)
  | .apiToken _ => none

/-- What the decision found: the replayed request's own operation, or a confirmation that held at a
clock reading of the call. -/
structure Covered (replay : Option ReplayAuthority) (p : Prepared) (summary : OpSummary)
    (h : List (Exchange Cmd Cmd.Resp)) (confirmation : Id) : Prop where
  replayed : ∀ a, replay = some a → a.opId = p.routed.op.id ∧ a.digest = p.routed.digest ∧
    (∀ c ∈ summary.changes, c ∈ a.changes) ∧ confirmation = a.confirmationId
  confirmed : replay = none → ∃ facts now, p.caller.browserSession = some facts ∧
    ⟨.ask .clock, now⟩ ∈ h ∧
    (p.routed.op.mode = .alwaysAsk →
      ⟨.store (.consumeAction facts.idHash p.caller.subject p.routed.digest now),
        .ok (some confirmation)⟩ ∈ h) ∧
    (p.routed.op.mode = .window → ∃ until_,
      ⟨.store (.liveWindow facts.idHash p.caller.subject now), .ok (some (confirmation, until_))⟩ ∈ h)

/-- The `op.authorised` event, appended. -/
def Logged (caller : Caller) (routed : Routed) (h : List (Exchange Cmd Cmd.Resp))
    (confirmation : Id) : Prop :=
  ∃ ev : SecurityEvent, ⟨.store (.append ev), .ok ()⟩ ∈ h ∧ ev.kind = .opAuthorised ∧
    ev.subject = caller.subject ∧ ev.op = some routed.op.id ∧ ev.confirmationId = some confirmation

/-- The summary an operation is confirmed under. -/
def Judged (caller : Caller) (raw : RawRequest) (routed : Routed)
    (h : List (Exchange Cmd Cmd.Resp)) (summary : OpSummary) : Prop :=
  match routed.handler with
  | .crownJewel _ => summary = routed.summary
  | .conditional (.passkeyAdd label) =>
      summary = routed.summary.loosened ["add passkey ".toList ++ label]
  | .conditional .other =>
      ∃ loosenings, ⟨.ask (.judge caller raw), some loosenings⟩ ∈ h ∧
        summary = routed.summary.loosened loosenings

/-- An operation that needs no confirmation: its caller lacks the role, it loosens nothing, or it
enrolls the first passkey of a fresh login. -/
def Unasked (caller : Caller) (raw : RawRequest) (routed : Routed)
    (h : List (Exchange Cmd Cmd.Resp)) : Prop :=
  match routed.handler with
  | .crownJewel _ => ⟨.ask (.reachesMinRole caller routed.op), false⟩ ∈ h
  | .conditional (.passkeyAdd _) =>
      ⟨.store (.listPasskeys caller.subject), .ok []⟩ ∈ h ∧ ∃ facts until_ now,
        caller.browserSession = some facts ∧ facts.freshLoginUntil = some until_ ∧
        ⟨.ask .clock, now⟩ ∈ h ∧ now < until_
  | .conditional .other => ⟨.ask (.judge caller raw), none⟩ ∈ h

/-- Why a handler runs. -/
def Permitted (replay : Option ReplayAuthority) (caller : Caller) (raw : RawRequest)
    (routed : Routed) (h : List (Exchange Cmd Cmd.Resp)) : Prop :=
  Unasked caller raw routed h ∨ ∃ org summary confirmation, Judged caller raw routed h summary ∧
    Covered replay ⟨caller, raw, routed, org⟩ summary h confirmation ∧
    Logged caller routed h confirmation

section guard

variable {host : Host} {α β : Type} {J : List (Exchange Cmd Cmd.Resp) → Cmd → Prop}
  {h h' : List (Exchange Cmd Cmd.Resp)} {replay : Option ReplayAuthority} {p : Prepared}
  {summary : OpSummary} {caller : Caller} {raw : RawRequest} {routed : Routed} {confirmation : Id}

theorem Covered.mono (hc : Covered replay p summary h confirmation) (hsub : h <:+ h') :
    Covered replay p summary h' confirmation := by
  refine ⟨hc.replayed, fun hnone => ?_⟩
  obtain ⟨facts, now, hfacts, hclock, hask, hwindow⟩ := hc.confirmed hnone
  refine ⟨facts, now, hfacts, hsub.subset hclock, fun hm => hsub.subset (hask hm), fun hm => ?_⟩
  obtain ⟨until_, hfound⟩ := hwindow hm
  exact ⟨until_, hsub.subset hfound⟩

theorem Logged.mono (hl : Logged caller routed h confirmation) (hsub : h <:+ h') :
    Logged caller routed h' confirmation := by
  obtain ⟨ev, hev, hrest⟩ := hl
  exact ⟨ev, hsub.subset hev, hrest⟩

theorem Judged.mono (hj : Judged caller raw routed h summary) (hsub : h <:+ h') :
    Judged caller raw routed h' summary := by
  unfold Judged at hj ⊢
  split at hj
  · exact hj
  · exact hj
  · obtain ⟨loosenings, hjudge, hsum⟩ := hj
    exact ⟨loosenings, hsub.subset hjudge, hsum⟩

theorem Unasked.mono (hu : Unasked caller raw routed h) (hsub : h <:+ h') :
    Unasked caller raw routed h' := by
  unfold Unasked at hu ⊢
  split at hu
  · exact hsub.subset hu
  · obtain ⟨hlist, facts, until_, now, hfacts, hfresh, hclock, hlt⟩ := hu
    exact ⟨hsub.subset hlist, facts, until_, now, hfacts, hfresh, hsub.subset hclock, hlt⟩
  · exact hsub.subset hu

theorem Permitted.mono (hp : Permitted replay caller raw routed h) (hsub : h <:+ h') :
    Permitted replay caller raw routed h' := by
  rcases hp with hu | ⟨org, summary, confirmation, hj, hc, hl⟩
  · exact .inl (hu.mono hsub)
  · exact .inr ⟨org, summary, confirmation, hj.mono hsub, hc.mono hsub, hl.mono hsub⟩

/-- Nothing comes of a refusal. -/
theorem refuseWith_wp {refusal : StepUpRefusal} {requestId : Option Id} (hJ : Easy J) :
    (refuseWith replay p refusal requestId : Eff α).wp J h fun _ _ => False :=
  wp_after (K := []) clock_within hJ (by simp) fun _ _ _ =>
    wp_after (K := []) event_within hJ (by simp) fun _ _ _ =>
      wp_after record_within hJ (by simp [easyKinds]) fun _ _ _ => trivial

theorem refuseUnrequestable_wp {why : Unrequestable} (hJ : Easy J) :
    (refuseUnrequestable replay p why : Eff α).wp J h fun _ _ => False :=
  wp_after (K := []) clock_within hJ (by simp) fun _ _ _ =>
    wp_after (K := []) event_within hJ (by simp) fun _ _ _ =>
      wp_after record_within hJ (by simp [easyKinds]) fun _ _ _ => trivial

theorem raise_wp {requester : StepUpRequester} {refusal : StepUpRefusal} (hJ : Easy J)
    (hraise : ∀ h' now id sealed, h <:+ h' → ⟨.ask .clock, now⟩ ∈ h' →
      p.raw.body.length ≤ p.routed.op.maxRequestBody →
      host.sealRequest p.raw.body (sealedSession p.caller requester) id = some sealed →
      J (⟨.drawId, id⟩ :: h') (.store (.raiseRequest
        (raisedRow p summary requester id sealed now) .default now))) :
    (raise host p summary requester refusal : Eff α).wp J h fun _ _ => False := by
  refine Prog.wp_bind (ask_wp (hJ.ask (by simp))) fun h₁ now _ heq => ?_
  subst heq
  have hrefused : ∀ h₂ (e : ApiError), (do
      let ev ← event none .stepUpRefused p.caller.subject p.caller.eventLabel p.org now
      record { ev with
        op := some p.routed.op.id
        target := some summary.target
        sessionHash := p.caller.session.map (·.idHash) }
      .err e : Eff α).wp J h₂ fun _ _ => False := fun h₂ e =>
    wp_after (K := []) event_within hJ (by simp) fun _ _ _ =>
      wp_after record_within hJ (by simp [easyKinds]) fun _ _ _ => trivial
  split_ifs with hlarge
  · exact hrefused _ _
  refine Prog.wp_bind (draw_wp hJ) fun h₂ id _ heq => ?_
  subst heq
  refine orElse_wp (o := host.sealRequest p.raw.body (sealedSession p.caller requester) id)
    fun sealed hsealed => ?_
  refine Prog.wp_bind (store_wp ?_) fun h₃ outcome _ heq => ?_
  · exact hraise _ now id sealed (List.suffix_cons _ _) List.mem_cons_self (by omega) hsealed
  subst heq
  cases outcome with
  | raised =>
    exact wp_after (K := []) event_within hJ (by simp) fun _ _ _ =>
      wp_after record_within hJ (by simp [easyKinds]) fun _ _ _ => refuseWith_wp hJ
  | requesterFull pending => exact hrefused _ _
  | humanFull pending => exact hrefused _ _

/-- What may be issued before the decision is taken. -/
def askKinds : List Kind := [.append, .readPasskeys, .liveWindow, .consumeAction]

theorem require_wp (hJ : Easy J)
    (hmint : ∀ h' facts nonce id now, h <:+ h' → replay = none →
      p.caller.browserSession = some facts → J (⟨.drawId, id⟩ :: ⟨.ask .randomBytes, nonce⟩ :: h')
        (.store (.putChallenge (guardChallenge p summary facts nonce id now))))
    (hraise : ∀ h' requester now id sealed, h <:+ h' → replay = none →
      p.caller.browserSession = none → requesterOf p.caller = some requester →
      ⟨.ask .clock, now⟩ ∈ h' → p.raw.body.length ≤ p.routed.op.maxRequestBody →
      host.sealRequest p.raw.body (sealedSession p.caller requester) id = some sealed →
      J (⟨.drawId, id⟩ :: h') (.store (.raiseRequest
        (raisedRow p summary requester id sealed now) .default now))) :
    (require host replay p summary).wp J h fun h' confirmation =>
      Covered replay p summary h' confirmation ∧ Since (Within askKinds) h h' := by
  have hrefuse : ∀ h₂ replay' refusal, (refuse replay' p refusal : Eff Id).wp J h₂
      fun h' confirmation => Covered replay p summary h' confirmation ∧
        Since (Within askKinds) h h' := fun h₂ replay' refusal =>
    Prog.wp_mono (refuseWith_wp hJ) fun _ _ _ hfalse => hfalse.elim
  refine Prog.wp_bind (ask_wp (hJ.ask (by simp))) fun h₁ now _ heq => ?_
  subst heq
  have hs₁ : Since (Within askKinds) h (⟨.ask .clock, now⟩ :: h) := since_ask (by simp)
  cases replay with
  | some authority =>
    dsimp only
    split_ifs with hmatch
    · obtain ⟨hop, hdigest, hchanges⟩ := hmatch
      refine ⟨⟨fun a ha => ?_, by simp⟩, hs₁⟩
      obtain rfl := Option.some.inj ha
      exact ⟨hop, hdigest, hchanges, rfl⟩
    · exact hrefuse _ _ _
  | none =>
    dsimp only
    cases hfacts : p.caller.browserSession with
    | none =>
      dsimp only
      split_ifs
      · exact hrefuse _ _ _
      cases hrequester : requesterOf p.caller with
      | none => exact hrefuse _ _ _
      | some requester =>
        refine wp_after (K := []) requestable_within hJ (by simp) fun h₂ why hs₂ => ?_
        have hsub₂ := (List.suffix_cons _ _).trans hs₂.suffix
        cases why with
        | some why => exact Prog.wp_mono (refuseUnrequestable_wp hJ) fun _ _ _ hfalse => hfalse.elim
        | none =>
          refine Prog.wp_mono (raise_wp hJ fun h₃ now id sealed hsub hclock hbody hsealed => ?_)
            fun _ _ _ hfalse => hfalse.elim
          exact hraise h₃ requester now id sealed (hsub₂.trans hsub) rfl hfacts hrequester hclock
            hbody hsealed
    | some facts =>
      dsimp only
      refine wp_after usablePasskeys_within hJ (by simp [easyKinds]) fun h₂ passkeys hs₂ => ?_
      have hclock : ⟨.ask .clock, now⟩ ∈ h₂ := hs₂.suffix.subset List.mem_cons_self
      have hs₂ : Since (Within askKinds) h h₂ :=
        (hs₂.mono fun c hc => Within.mono (by simp [askKinds]) hc).trans hs₁
      split_ifs
      · refine wp_after (K := [.readPasskeys]) (store_within (by simp [Store.kind])) hJ
          (by simp [easyKinds]) fun h₃ all _ => ?_
        split_ifs
        · exact hrefuse _ _ _
        · exact hrefuse _ _ _
      refine Prog.wp_bind (Q := fun h₃ found => Since (Within askKinds) h h₃ ∧
        ∀ id, found = some id → Covered none p summary h₃ id) ?_ fun h₃ found _ hfound => ?_
      · cases hmode : p.routed.op.mode with
        | window =>
          refine Prog.wp_bind (store_wp (hJ _ _ (by simp [Store.kind, easyKinds])))
            fun h₃ found _ heq => ?_
          subst heq
          refine ⟨hs₂.cons (by simp [Store.kind, askKinds]), fun id hid => ⟨by simp, fun _ => ?_⟩⟩
          obtain ⟨⟨c, until_⟩, rfl, rfl⟩ := Option.map_eq_some_iff.mp hid
          exact ⟨facts, now, hfacts, List.mem_cons_of_mem _ hclock, by simp [hmode],
            fun _ => ⟨until_, List.mem_cons_self⟩⟩
        | alwaysAsk =>
          refine Prog.wp_mono (store_wp (hJ _ _ (by simp [Store.kind, easyKinds])))
            fun h₃ found _ heq => ?_
          subst heq
          refine ⟨hs₂.cons (by simp [Store.kind, askKinds]), fun id hid => ⟨by simp, fun _ => ?_⟩⟩
          subst hid
          exact ⟨facts, now, hfacts, List.mem_cons_of_mem _ hclock, fun _ => List.mem_cons_self,
            by simp [hmode]⟩
      cases found with
      | some id => exact ⟨hfound.2 id rfl, hfound.1⟩
      | none =>
        dsimp only
        refine Prog.wp_bind (mintChallenge_wp hJ fun nonce id => ?_) fun h₄ minted _ _ => hrefuse _ _ _
        have hput := hmint h₃ facts nonce id now hfound.1.suffix rfl hfacts
        cases hmode : p.routed.op.mode with
        | window => simpa only [guardChallenge, hmode, reduceCtorEq, if_false] using hput
        | alwaysAsk => simpa only [guardChallenge, hmode, if_true] using hput

end guard
end Scarab.StepUp
