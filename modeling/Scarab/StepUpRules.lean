import Scarab.StepUpMachine

/-!
# What the step-up programs touch

Each program by the kinds of commands it may issue.
-/
namespace Scarab.StepUp

open Depot (Bytes)
open Interleave

/-- The kinds of commands that change or consult more than the clock and the random source. -/
inductive Kind where
  | readPasskeys | userHandle | insertPasskey | recordUse | markClone | removePasskey | removeAll
  | putChallenge | consumeChallenge | reapChallenges
  | putConfirmation | liveWindow | consumeAction | deleteWindowsFor | deleteForPasskey
  | raiseRequest | getRequest | beginExecution | finishRequest | reap
  | append | perform
  deriving DecidableEq, Repr

def Store.kind : Store → Kind
  | .listPasskeys _ | .getByCredential _ => .readPasskeys
  | .userHandle .. => .userHandle
  | .insertPasskey _ => .insertPasskey
  | .recordUse .. => .recordUse
  | .markClone .. => .markClone
  | .removePasskey .. => .removePasskey
  | .removeAll _ => .removeAll
  | .putChallenge _ => .putChallenge
  | .consumeChallenge .. => .consumeChallenge
  | .reapChallenges _ => .reapChallenges
  | .putConfirmation _ => .putConfirmation
  | .liveWindow .. => .liveWindow
  | .consumeAction .. => .consumeAction
  | .deleteWindowsFor _ => .deleteWindowsFor
  | .deleteForPasskey _ => .deleteForPasskey
  | .raiseRequest .. => .raiseRequest
  | .getRequest _ => .getRequest
  | .beginExecution .. => .beginExecution
  | .finishRequest .. => .finishRequest
  | .reap .. => .reap
  | .append _ => .append

def Cmd.kind : Cmd → Option Kind
  | .drawId => none
  | .ask q => match q with
    | .perform .. => some .perform
    | _ => none
  | .store x => some x.kind

/-- A command of one of the kinds, or of none. -/
def Within (ks : List Kind) (c : Cmd) : Prop := ∀ k ∈ c.kind, k ∈ ks

theorem Within.mono {ks ks' : List Kind} (hk : ks ⊆ ks') {c : Cmd} (h : Within ks c) :
    Within ks' c :=
  fun k hc => hk (h k hc)

theorem within_mono {α : Type} {p : Eff α} {ks ks' : List Kind} (h : p.Issues (Within ks))
    (hk : ks ⊆ ks') : p.Issues (Within ks') :=
  h.mono fun _ => Within.mono hk

@[simp] theorem within_drawId (ks : List Kind) : Within ks .drawId := by simp [Within, Cmd.kind]

@[simp] theorem within_store (ks : List Kind) (x : Store) :
    Within ks (.store x) ↔ x.kind ∈ ks := by
  simp [Within, Cmd.kind]

@[simp] theorem within_clock (ks : List Kind) : Within ks (.ask .clock) := by
  simp [Within, Cmd.kind]

/-- Most questions are of no kind. -/
theorem within_ask (ks : List Kind) {q : Ask} (h : ∀ caller raw, q ≠ .perform caller raw) :
    Within ks (.ask q) := by
  intro k hk
  cases q with
  | perform caller raw => exact absurd rfl (h caller raw)
  | _ => simp [Cmd.kind] at hk

section within

variable {α : Type} {ks : List Kind} {host : Host}

theorem ask_within {q : Ask} (h : ∀ caller raw, q ≠ .perform caller raw) :
    (ask q).Issues (Within ks) :=
  ⟨within_ask ks h, fun _ => trivial⟩

theorem clock_within : clock.Issues (Within ks) := ask_within (by simp)

theorem tryStore_within {x : Store} (hx : x.kind ∈ ks) : (tryStore x).Issues (Within ks) :=
  ⟨(within_store ks x).mpr hx, fun _ => trivial⟩

theorem store_within {x : Store} (hx : x.kind ∈ ks) : (store x).Issues (Within ks) := by
  refine Prog.Issues.bind (tryStore_within hx) fun r => ?_
  cases r with
  | ok a => trivial
  | error e => trivial

theorem orElse_within {e : ApiError} (o : Option α) : (orElse e o).Issues (Within ks) := by
  cases o <;> trivial

theorem orError_within (r : Except ApiError α) : (orError r).Issues (Within ks) := by
  cases r <;> trivial

theorem event_within {replay : Option ReplayAuthority} {kind : EventKind} {subject caller : Text}
    {org : Option Text} {now : ℤ} : (event replay kind subject caller org now).Issues (Within ks) :=
  ⟨within_drawId ks, fun _ => trivial⟩

theorem record_within {ev : SecurityEvent} : (record ev).Issues (Within [.append]) :=
  Prog.Issues.bind (tryStore_within (by simp [Store.kind])) fun _ => trivial

theorem recordCeremonyRefusal_within {caller : Caller} {requestId : Option Id} {now : ℤ} :
    (recordCeremonyRefusal caller requestId now).Issues (Within [.append]) :=
  Prog.Issues.bind event_within fun _ => record_within

theorem usablePasskeys_within {principal : Text} :
    (usablePasskeys principal).Issues (Within [.readPasskeys]) :=
  Prog.Issues.bind (store_within (by simp [Store.kind])) fun _ => trivial

theorem mintChallenge_within {principal session : Text} {purpose : ChallengePurpose}
    {digest : Option Digest} {requestId : Option Id} {label : Option Text}
    {summary : Option ChallengeSummary} {now : ℤ} :
    (mintChallenge host principal session purpose digest requestId label summary now).Issues
      (Within [.putChallenge]) := by
  refine Prog.Issues.bind (ask_within (by simp)) fun nonce => ?_
  refine Prog.Issues.bind ⟨within_drawId _, fun _ => trivial⟩ fun id => ?_
  exact Prog.Issues.bind (store_within (by simp [Store.kind])) fun _ => trivial

theorem consume_within {id : Id} {caller : Caller} {facts : SessionFacts}
    {purposes : List ChallengePurpose} {now : ℤ} :
    (consume host id caller facts purposes now).Issues (Within [.consumeChallenge]) := by
  refine Prog.Issues.bind (store_within (by simp [Store.kind])) fun found => ?_
  cases found with
  | none => trivial
  | some row =>
    dsimp only
    split_ifs <;> trivial

theorem browserSession_within {caller : Caller} :
    (browserSession caller).Issues (Within [.append]) := by
  rw [browserSession]
  split
  · trivial
  · exact Prog.Issues.bind clock_within fun now =>
      Prog.Issues.bind recordCeremonyRefusal_within fun _ => trivial

theorem refuseWith_within {replay : Option ReplayAuthority} {p : Prepared}
    {refusal : StepUpRefusal} {requestId : Option Id} :
    (refuseWith replay p refusal requestId : Eff α).Issues (Within [.append]) :=
  Prog.Issues.bind clock_within fun _ => Prog.Issues.bind event_within fun _ =>
    Prog.Issues.bind record_within fun _ => trivial

theorem refuseUnrequestable_within {replay : Option ReplayAuthority} {p : Prepared}
    {why : Unrequestable} : (refuseUnrequestable replay p why : Eff α).Issues (Within [.append]) :=
  Prog.Issues.bind clock_within fun _ => Prog.Issues.bind event_within fun _ =>
    Prog.Issues.bind record_within fun _ => trivial

theorem requestable_within {p : Prepared} : (requestable p).Issues (Within ks) := by
  rw [requestable]
  split
  · trivial
  · split
    · trivial
    · split
      · trivial
      · split
        · trivial
        · refine Prog.Issues.bind (ask_within (by simp)) fun covered => ?_
          cases covered <;> trivial

theorem raise_within {p : Prepared} {summary : OpSummary} {requester : StepUpRequester}
    {refusal : StepUpRefusal} : (raise host p summary requester refusal : Eff α).Issues
      (Within [.append, .raiseRequest]) := by
  have hlog : [Kind.append] ⊆ [.append, .raiseRequest] := by simp
  refine Prog.Issues.bind clock_within fun now => ?_
  have hrefused : ∀ e : ApiError, (do
      let ev ← event none .stepUpRefused p.caller.subject p.caller.eventLabel p.org now
      record { ev with
        op := some p.routed.op.id
        target := some summary.target
        sessionHash := p.caller.session.map (·.idHash) }
      .err e : Eff α).Issues (Within [.append, .raiseRequest]) := fun e =>
    Prog.Issues.bind event_within fun _ =>
      Prog.Issues.bind (within_mono record_within hlog) fun _ => trivial
  dsimp only
  split_ifs
  · exact hrefused _
  · refine Prog.Issues.bind ⟨within_drawId _, fun _ => trivial⟩ fun id => ?_
    refine Prog.Issues.bind (orElse_within _) fun sealed => ?_
    refine Prog.Issues.bind (store_within (by simp [Store.kind])) fun outcome => ?_
    cases outcome with
    | raised =>
      exact Prog.Issues.bind event_within fun _ =>
        Prog.Issues.bind (within_mono record_within hlog) fun _ =>
          within_mono refuseWith_within hlog
    | requesterFull pending => exact hrefused _
    | humanFull pending => exact hrefused _

/-- What the decision may touch. -/
def requireKinds : List Kind :=
  [.append, .raiseRequest, .readPasskeys, .liveWindow, .consumeAction, .putChallenge]

theorem require_within {replay : Option ReplayAuthority} {p : Prepared} {summary : OpSummary} :
    (require host replay p summary).Issues (Within requireKinds) := by
  have hrefuse : ∀ refusal, (refuse replay p refusal : Eff Id).Issues (Within requireKinds) :=
    fun refusal => within_mono refuseWith_within (by simp [requireKinds])
  have hrefuse' : ∀ refusal, (refuse none p refusal : Eff Id).Issues (Within requireKinds) :=
    fun refusal => within_mono refuseWith_within (by simp [requireKinds])
  refine Prog.Issues.bind clock_within fun now => ?_
  cases replay with
  | some authority =>
    dsimp only
    split_ifs
    · trivial
    · exact hrefuse _
  | none =>
    dsimp only
    cases p.caller.browserSession with
    | none =>
      dsimp only
      split_ifs
      · exact hrefuse' _
      · cases requesterOf p.caller with
        | none => exact hrefuse' _
        | some requester =>
          refine Prog.Issues.bind requestable_within fun why => ?_
          cases why with
          | some why => exact within_mono refuseUnrequestable_within (by simp [requireKinds])
          | none => exact within_mono raise_within (by simp [requireKinds])
    | some session =>
      refine Prog.Issues.bind (within_mono usablePasskeys_within (by simp [requireKinds]))
        fun passkeys => ?_
      split_ifs
      · refine Prog.Issues.bind (store_within (by simp [Store.kind, requireKinds])) fun all => ?_
        split_ifs
        · exact hrefuse' _
        · exact hrefuse' _
      · refine Prog.Issues.bind ?_ fun covered => ?_
        · cases p.routed.op.mode with
          | window =>
            exact Prog.Issues.bind (store_within (by simp [Store.kind, requireKinds]))
              fun _ => trivial
          | alwaysAsk => exact store_within (by simp [Store.kind, requireKinds])
        · cases covered with
          | some id => trivial
          | none =>
            exact Prog.Issues.bind (within_mono mintChallenge_within (by simp [requireKinds]))
              fun _ => hrefuse' _

theorem authorise_within {replay : Option ReplayAuthority} {p : Prepared} {summary : OpSummary} :
    (authorise host replay p summary).Issues (Within requireKinds) := by
  refine Prog.Issues.bind require_within fun confirmation => ?_
  refine Prog.Issues.bind clock_within fun now => Prog.Issues.bind event_within fun ev => ?_
  refine Prog.Issues.bind (tryStore_within (by simp [Store.kind, requireKinds])) fun r => ?_
  cases r <;> trivial

theorem completed_within {replay : Option ReplayAuthority} {p : Prepared} {confirmation : Id} :
    (completed replay p confirmation).Issues (Within [.append]) :=
  Prog.Issues.bind clock_within fun _ => Prog.Issues.bind event_within fun _ => record_within

theorem completedTicket_within {replay : Option ReplayAuthority} {p : Prepared}
    {ticket : Option Id} : (completedTicket replay p ticket).Issues (Within [.append]) := by
  cases ticket with
  | some confirmation => exact completed_within
  | none => trivial

theorem registrationChallenge_within {caller : Caller} {facts : SessionFacts} {label : Text}
    {now : ℤ} : (registrationChallenge host caller facts label now).Issues
      (Within [.putChallenge, .userHandle]) := by
  refine Prog.Issues.bind (within_mono mintChallenge_within (by simp)) fun _ => ?_
  refine Prog.Issues.bind (ask_within (by simp)) fun fresh => ?_
  exact Prog.Issues.bind (store_within (by simp [Store.kind])) fun _ => trivial

theorem recordEnrollRefusal_within {replay : Option ReplayAuthority} {p : Prepared}
    {facts : SessionFacts} {label : Text} {now : ℤ} :
    (recordEnrollRefusal replay p facts label now).Issues (Within [.append]) :=
  Prog.Issues.bind event_within fun _ => record_within

theorem passkeyRegistrationOptions_within {replay : Option ReplayAuthority} {p : Prepared}
    {label : Text} : (passkeyRegistrationOptions host replay p label).Issues
      (Within (.userHandle :: requireKinds)) := by
  have hchallenge : ∀ facts now, (registrationChallenge host p.caller facts label now).attempt.Issues
      (Within (.userHandle :: requireKinds)) := fun facts now =>
    (within_mono registrationChallenge_within (by simp [requireKinds])).attempt
  refine Prog.Issues.bind (within_mono browserSession_within (by simp [requireKinds]))
    fun facts => ?_
  refine Prog.Issues.bind clock_within fun now => ?_
  refine Prog.Issues.bind (store_within (by simp [Store.kind, requireKinds])) fun all => ?_
  split_ifs
  · exact (hchallenge facts now).bind fun _ => trivial
  · exact Prog.Issues.bind (within_mono recordEnrollRefusal_within (by simp [requireKinds]))
      fun _ => trivial
  · exact Prog.Issues.bind (within_mono recordEnrollRefusal_within (by simp [requireKinds]))
      fun _ => trivial
  · refine Prog.Issues.bind (within_mono authorise_within (by simp)) fun confirmation => ?_
    exact (hchallenge facts now).bind fun _ => trivial

theorem passkeyEvent_within {kind : EventKind} {caller : Caller} {facts : SessionFacts}
    {passkey : Passkey} {now : ℤ} :
    (passkeyEvent kind caller facts passkey now).Issues (Within [.append]) :=
  Prog.Issues.bind event_within fun _ => record_within

theorem noteRegressed_within {caller : Caller} {facts : SessionFacts} {passkey : Passkey}
    {ok : AssertionOk} {now : ℤ} :
    (noteRegressed caller facts passkey ok now).Issues (Within [.append]) := by
  rw [noteRegressed]
  split_ifs
  · exact passkeyEvent_within
  · trivial

theorem recordFailedAssertion_within {caller : Caller} {e : ApiError} {now : ℤ} :
    (recordFailedAssertion caller e now).Issues (Within [.append]) := by
  unfold recordFailedAssertion
  split
  · split_ifs
    · trivial
    · exact recordCeremonyRefusal_within
  · trivial

theorem handleOf_within {passkey : Passkey} {subject : Text} :
    (handleOf passkey subject).Issues (Within [.userHandle]) := by
  rw [handleOf]
  split
  · split_ifs <;> trivial
  · exact Prog.Issues.bind (ask_within (by simp)) fun _ => store_within (by simp [Store.kind])

theorem requestEvent_within {kind : EventKind} {subject : Text} {caller : Caller}
    {r : StepUpRequest} {confirmationId : Id} {passkeyId : Option Id} {sessionHash : Option Text}
    {now : ℤ} : (requestEvent kind subject caller r confirmationId passkeyId sessionHash now).Issues
      (Within ks) :=
  Prog.Issues.bind event_within fun _ => trivial

theorem isForHuman_within {subject forHuman : Text} :
    (isForHuman subject forHuman).Issues (Within ks) := by
  rw [isForHuman]
  split_ifs
  · trivial
  · exact Prog.Issues.bind (ask_within (by simp)) fun _ => trivial

theorem probeRefused_within {id : Id} {caller : Caller} {found : Option StepUpRequest} :
    (probeRefused id caller found : Eff α).Issues (Within [.append]) := by
  refine Prog.Issues.bind clock_within fun now => ?_
  refine Prog.Issues.bind recordCeremonyRefusal_within fun _ => ?_
  cases found with
  | none => trivial
  | some r =>
    exact Prog.Issues.bind event_within fun _ => Prog.Issues.bind record_within fun _ => trivial

theorem loadAsHuman_within {id : Id} {caller : Caller} :
    (loadAsHuman id caller).Issues (Within [.getRequest, .append]) := by
  refine Prog.Issues.bind (store_within (by simp [Store.kind])) fun found => ?_
  cases found with
  | none => exact within_mono probeRefused_within (by simp)
  | some r =>
    refine Prog.Issues.bind isForHuman_within fun is => ?_
    split_ifs
    · trivial
    · exact within_mono probeRefused_within (by simp)

theorem confirmable_within {r : StepUpRequest} {now : ℤ} :
    (confirmable r now).Issues (Within ks) := by
  rw [confirmable]
  split_ifs <;> trivial

theorem replayCaller_within {a : ReplayAuthority} : (replayCaller host a).Issues (Within ks) := by
  refine Prog.Issues.bind clock_within fun now => ?_
  cases a.requester with
  | apiToken id =>
    refine Prog.Issues.bind (ask_within (by simp)) fun found => ?_
    refine Prog.Issues.bind (orElse_within _) fun token => ?_
    split_ifs
    · trivial
    · exact Prog.Issues.bind (ask_within (by simp)) fun _ => trivial
  | bearerSession sid =>
    refine Prog.Issues.bind (ask_within (by simp)) fun found => ?_
    refine Prog.Issues.bind (orElse_within _) fun session => ?_
    split_ifs
    · trivial
    · exact Prog.Issues.bind (ask_within (by simp)) fun _ => trivial

theorem settle_within {caller : Caller} {r : StepUpRequest} {confirmationId : Id}
    {outcome : Option (Except ApiError Response)} :
    (settle caller r confirmationId outcome).Issues (Within [.finishRequest, .append]) := by
  refine Prog.Issues.bind clock_within fun now => ?_
  refine Prog.Issues.bind (store_within (by simp [Store.kind])) fun _ => ?_
  refine Prog.Issues.bind requestEvent_within fun ev => ?_
  exact Prog.Issues.bind (within_mono record_within (by simp)) fun _ => trivial

theorem stepUpOptions_within {caller : Caller} :
    (stepUpOptions host caller).Issues (Within [.append, .readPasskeys, .putChallenge]) := by
  refine Prog.Issues.bind (within_mono browserSession_within (by simp)) fun facts => ?_
  refine Prog.Issues.bind clock_within fun now => ?_
  refine Prog.Issues.bind (within_mono usablePasskeys_within (by simp)) fun passkeys => ?_
  split_ifs
  · trivial
  · exact Prog.Issues.bind (within_mono mintChallenge_within (by simp)) fun _ => trivial

theorem requestOptions_within {caller : Caller} {id : Id} :
    (requestOptions host caller id).Issues
      (Within [.append, .getRequest, .readPasskeys, .putChallenge]) := by
  refine Prog.Issues.bind (within_mono browserSession_within (by simp)) fun facts => ?_
  refine Prog.Issues.bind (within_mono loadAsHuman_within (by simp)) fun r => ?_
  refine Prog.Issues.bind clock_within fun now => ?_
  refine Prog.Issues.bind confirmable_within fun _ => ?_
  refine Prog.Issues.bind (within_mono usablePasskeys_within (by simp)) fun passkeys => ?_
  split_ifs
  · trivial
  · exact Prog.Issues.bind (within_mono mintChallenge_within (by simp)) fun _ => trivial

theorem reapStepUp_within : reapStepUp.Issues (Within [.reapChallenges, .reap]) := by
  refine Prog.Issues.bind clock_within fun now => ?_
  refine Prog.Issues.bind (store_within (by simp [Store.kind])) fun _ => ?_
  exact Prog.Issues.bind (store_within (by simp [Store.kind])) fun _ => trivial

end within
end Scarab.StepUp
