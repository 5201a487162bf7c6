import Scarab.StepUpPrograms
import Scarab.InterleaveDebts

/-!
# Step-up ceremonies

Enrolling, opening windows, confirming actions and confirming the requests of machines. The calls
of the server run at once on the one set of stores.
-/
namespace Scarab.StepUp

open Depot (Bytes)
open Interleave

variable (host : Host)

def passkeyEvent (kind : EventKind) (caller : Caller) (facts : SessionFacts) (passkey : Passkey)
    (now : ℤ) : Eff Unit := do
  let ev ← event none kind caller.subject caller.eventLabel none now
  record { ev with passkeyId := some passkey.id, sessionHash := some facts.idHash }

def cloneSuspected : ApiError := .ceremony .cloneSuspected
def unknownCredential : ApiError := .ceremony .unknownCredential
def webauthnRefused (e : WebauthnError) : ApiError := .ceremony (.webauthn e)

/-- The handle a passkey answers with: the one it was created under, or its principal's. -/
def handleOf (passkey : Passkey) (subject : Text) : Eff Bytes :=
  match passkey.userHandle with
  | some h =>
      if h.length = 32 then pure h else .err (webauthnRefused .storedCredentialInconsistent)
  | none => do
      let fresh ← ask .randomBytes
      store (.userHandle subject fresh)

/-- Revoke what a passkey just found cloned had confirmed. -/
def refuseClone {α : Type} (caller : Caller) (facts : SessionFacts) (passkey : Passkey) (now : ℤ) :
    Eff α := do
  let _ ← store (.deleteForPasskey passkey.id)
  passkeyEvent .passkeyCloneSuspected caller facts passkey now
  .err cloneSuspected

/-- A synced passkey's counter that did not move is evidence, not a clone. -/
def noteRegressed (caller : Caller) (facts : SessionFacts) (passkey : Passkey) (ok : AssertionOk)
    (now : ℤ) : Eff Unit :=
  if ok.counterRegressed then passkeyEvent .passkeyCounterRegressed caller facts passkey now
  else pure ()

/-- Accept the counter against the count it was verified with. -/
def acceptUse (caller : Caller) (facts : SessionFacts) (passkey : Passkey) (ok : AssertionOk)
    (now : ℤ) : Eff Passkey := do
  match ← store (.recordUse passkey.id passkey.signCount ok.newCount ok.backupState now) with
  | .recorded => pure passkey
  | .cloneSuspected => refuseClone caller facts passkey now
  | .notFound => .err unknownCredential

def verifyAssertionOnce (caller : Caller) (facts : SessionFacts) (sent credential : Bytes)
    (now : ℤ) : Eff Passkey := do
  let rawId ← orElse (webauthnRefused .malformedResponse) (host.rawId credential)
  let found ← store (.getByCredential rawId)
  let passkey ← orElse unknownCredential (found.filter (·.principal = caller.subject))
  if passkey.cloneSuspectedAt.isSome then do
    let ev ← event none .stepUpRefused caller.subject caller.eventLabel none now
    record { ev with
      sessionHash := caller.session.map (·.idHash), passkeyId := some passkey.id }
    .err cloneSuspected
  else if passkey.alg ∉ coseAlgorithms then
    .err (webauthnRefused .storedCredentialInconsistent)
  else do
    let handle ← handleOf passkey caller.subject
    let stored : StoredCredential :=
      ⟨passkey.credentialId, passkey.publicKeyCose, passkey.alg, passkey.signCount,
        passkey.backupEligible⟩
    match host.verifyAssertion sent stored handle credential with
    | .error .cloneSuspected => do
        let _ ← store (.markClone passkey.id now)
        refuseClone caller facts passkey now
    | .error e => .err (webauthnRefused e)
    | .ok ok => do
        noteRegressed caller facts passkey ok now
        acceptUse caller facts passkey ok now

/-- A suspected clone records its own evidence, and a store failure is not the caller's doing. -/
def recordFailedAssertion (caller : Caller) (e : ApiError) (now : ℤ) : Eff Unit :=
  match e with
  | .ceremony code => if code = .cloneSuspected then pure () else recordCeremonyRefusal caller none now
  | _ => pure ()

/-- An assertion by one of the caller's own passkeys. One that fails is a refusal, recorded. -/
def verifyAssertion (caller : Caller) (facts : SessionFacts) (sent credential : Bytes) (now : ℤ) :
    Eff Passkey := do
  match ← (verifyAssertionOnce host caller facts sent credential now).attempt with
  | .ok passkey => pure passkey
  | .error e => do
      recordFailedAssertion caller e now
      .err e

structure ConfirmedDto where
  confirmationId : Id
  kind : ConfirmationKind
  confirmedAt : ℤ
  expiresAt : ℤ
  deriving DecidableEq, Repr

structure RequestResultDto where
  requestId : Id
  state : RequestState
  resultStatus : Option ℕ
  resultBody : Bytes
  deriving DecidableEq, Repr

inductive Reply where
  | response (r : Response)
  | challenge (dto : ChallengeDto)
  | enrolled (p : Passkey)
  | confirmed (dto : ConfirmedDto)
  | result (dto : RequestResultDto)
  | done
  deriving DecidableEq, Repr

def enrolledPasskey (caller : Caller) (facts : SessionFacts) (row : WebauthnChallenge)
    (cred : NewCredential) (id : Id) (now : ℤ) : Passkey where
  id := id
  principal := caller.subject
  credentialId := cred.credentialId
  publicKeyCose := cred.publicKeyCose
  alg := cred.alg
  signCount := cred.signCount
  label := row.label.getD "Passkey".toList
  transports := cred.transports
  aaguid := some cred.aaguid
  backupEligible := cred.backupEligible
  backupState := cred.backupState
  createdAt := now
  createdSessionHash := facts.idHash
  lastUsedAt := none
  cloneSuspectedAt := none
  userHandle := none

/-- Finish enrolling. An enrollment that cannot be recorded is undone. -/
def passkeyRegistration (caller : Caller) (challengeId : Id) (credential : Bytes) : Eff Reply := do
  let facts ← browserSession caller
  let now ← clock
  let (row, sent) ← consume host challengeId caller facts [.register] now
  match host.verifyRegistration sent credential with
  | .error e => .err (webauthnRefused e)
  | .ok cred => do
      let held ← store (.getByCredential cred.credentialId)
      if held.isSome then .err .conflict
      else do
        let _ ← usablePasskeys caller.subject
        let id ← randomId
        let passkey := enrolledPasskey caller facts row cred id now
        match ← tryStore (.insertPasskey passkey) with
        | .error .conflict => .err .conflict
        | .error e => .err (.db e)
        | .ok _ => do
            let ev ← event none .passkeyEnrolled caller.subject caller.eventLabel none now
            match ← tryStore (.append { ev with
                passkeyId := some passkey.id
                sessionHash := some facts.idHash
                target := some passkey.label }) with
            | .ok _ => pure (.enrolled passkey)
            | .error _ => do
                let _ ← tryStore (.removePasskey caller.subject passkey.id)
                .err .unavailable

def stepUpOptions (caller : Caller) : Eff Reply := do
  let facts ← browserSession caller
  let now ← clock
  let passkeys ← usablePasskeys caller.subject
  if passkeys.isEmpty then .err (.ceremony .noPasskey)
  else do
    let (row, sent) ← mintChallenge host caller.subject facts.idHash .window none none none none now
    pure (.challenge ⟨row.id, sent, descriptors passkeys, row.expiresAt⟩)

/-- Store a confirmation only while its passkey is its principal's and unflagged: the passkey is
read again after the insert, and what it signed revoked if it is not. -/
def putConfirmationWhileUsable (confirmation : StepUpConfirmation) (passkey : Passkey) :
    Eff Unit := do
  store (.putConfirmation confirmation)
  let found ← store (.getByCredential passkey.credentialId)
  if found.any fun p => p.id = passkey.id ∧ p.principal = confirmation.principal ∧
      p.cloneSuspectedAt.isNone then pure ()
  else do
    let _ ← store (.deleteForPasskey passkey.id)
    .err (.ceremony .passkeyUnusable)

def kindOf : ChallengePurpose → ConfirmationKind
  | .action => .action
  | _ => .window

/-- Answer a window or action challenge. A confirmation that cannot be recorded is not made. -/
def stepUpConfirm (caller : Caller) (challengeId : Id) (credential : Bytes) : Eff Reply := do
  let facts ← browserSession caller
  let now ← clock
  let (row, sent) ← consume host challengeId caller facts [.window, .action] now
  let passkey ← verifyAssertion host caller facts sent credential now
  let id ← randomId
  let confirmation : StepUpConfirmation :=
    ⟨id, caller.subject, facts.idHash, passkey.id, kindOf row.purpose, row.actionDigest, none, now,
      now + stepUpWindowMs, none⟩
  let ev ← event none .stepUpConfirmed caller.subject caller.eventLabel
    (row.summary.bind (·.org)) now
  match ← tryStore (.append { ev with
      op := row.summary.map (·.op)
      target := row.summary.map (·.summary.target)
      confirmationId := some id
      passkeyId := some passkey.id
      sessionHash := some facts.idHash }) with
  | .error _ => .err .unavailable
  | .ok _ => do
      putConfirmationWhileUsable confirmation passkey
      pure (.confirmed ⟨id, confirmation.kind, now, confirmation.expiresAt⟩)

/-- Whether the caller is the human of a request, or the principal that human was merged into. -/
def isForHuman (subject forHuman : Text) : Eff Bool :=
  if subject = forHuman then pure true
  else do
    let aliases ← ask (.aliasesOf subject)
    pure (decide (forHuman ∈ aliases))

/-- The 404 of a request that is not the caller's, recorded for the caller and, where the request
exists, for its human. -/
def probeRefused {α : Type} (id : Id) (caller : Caller) (found : Option StepUpRequest) : Eff α := do
  let now ← clock
  recordCeremonyRefusal caller (some id) now
  match found with
  | none => .err .notFound
  | some r => do
      let ev ← event none .stepUpRefused r.forHuman caller.eventLabel r.org now
      record { ev with op := some r.op, requestId := some id }
      .err .notFound

def loadAsHuman (id : Id) (caller : Caller) : Eff StepUpRequest := do
  match ← store (.getRequest id) with
  | none => probeRefused id caller none
  | some r => do
      if ← isForHuman caller.subject r.forHuman then pure r else probeRefused id caller (some r)

def confirmable (r : StepUpRequest) (now : ℤ) : Eff Unit :=
  if r.isExpired now then .err .gone
  else if r.state ≠ .pending then .err .conflict
  else pure ()

def requestOptions (caller : Caller) (id : Id) : Eff Reply := do
  let facts ← browserSession caller
  let r ← loadAsHuman id caller
  let now ← clock
  confirmable r now
  let passkeys ← usablePasskeys caller.subject
  if passkeys.isEmpty then .err (.ceremony .noPasskey)
  else do
    let (row, sent) ← mintChallenge host caller.subject facts.idHash .request (some r.actionDigest)
      (some r.id) none (some ⟨r.op, none, r.summary.summary, some r.id⟩) now
    pure (.challenge ⟨row.id, sent, descriptors passkeys, row.expiresAt⟩)

/-- The caller a replay runs as: the requester as it stands now, narrowed to its human's roles. -/
def replayCaller (a : ReplayAuthority) : Eff Caller := do
  let now ← clock
  match a.requester with
  | .apiToken id => do
      let token ← orElse .unauthorized (← ask (.tokenById id))
      if !token.isLive now ∨ token.ownerSubject ≠ a.forHuman then .err .unauthorized
      else do
        let roles ← ask (.ownerRoles token.ownerSubject)
        pure ⟨token.ownerSubject, roles, some token, some .bearer, none⟩
  | .bearerSession sid => do
      let session ← orElse .unauthorized (← ask (.sessionById sid))
      if !session.isValid now ∨ session.subject ≠ a.forHuman then .err .unauthorized
      else do
        let roles ← ask (.ownerRoles a.forHuman)
        pure ⟨session.subject, roles.filter fun r => a.roleCap.any fun cap => r.rank ≤ cap.rank,
          none, some .bearer, some ⟨sid, host.sessionHash session.id, none⟩⟩

/-- Run a confirmed request through the guard as its requester. -/
def replay (authority : ReplayAuthority) (r : StepUpRequest) (body : Bytes) :
    Eff (Except ApiError Response) :=
  (do
    let caller ← replayCaller host authority
    guard host (some authority) caller ⟨r.method, r.path, r.query, body⟩).attempt

def authorityOf (r : StepUpRequest) (confirmationId : Id) (requester : ReplayRequester)
    (human : Text) : ReplayAuthority where
  requestId := r.id
  confirmationId := confirmationId
  opId := r.op
  digest := r.actionDigest
  changes := r.summary.summary.changes
  requester := requester
  forHuman := human
  roleCap := r.sessionRoleCap

/-- The body and the requester under the seal. -/
def opened (r : StepUpRequest) : Option (Bytes × ReplayRequester) := do
  let sealed ← r.sealed
  let (body, sessionId) ← host.openRequest sealed r.id
  match r.requester with
  | .apiToken id => pure (body, .apiToken id)
  | .bearerSession _ => do
      let sid ← sessionId
      pure (body, .bearerSession sid)

def requestEvent (kind : EventKind) (subject : Text) (caller : Caller) (r : StepUpRequest)
    (confirmationId : Id) (passkeyId : Option Id) (sessionHash : Option Text) (now : ℤ) :
    Eff SecurityEvent := do
  let ev ← event none kind subject caller.eventLabel r.org now
  pure { ev with
    op := some r.op
    target := some r.summary.summary.target
    confirmationId := some confirmationId
    requestId := some r.id
    passkeyId := passkeyId
    sessionHash := sessionHash }

/-- Settle a request that ran, or could not. -/
def settle (caller : Caller) (r : StepUpRequest) (confirmationId : Id)
    (outcome : Option (Except ApiError Response)) : Eff Reply := do
  let status := outcome.map statusOf
  let ran : Bool := outcome.any fun o => match o with
    | .ok resp => resp.isSuccess
    | .error _ => false
  let state : RequestState := if ran then .executed else .failed
  let done ← clock
  let _ ← store (.finishRequest r.id state status done)
  let ev ← requestEvent (if ran then .requestExecuted else .requestFailed) r.forHuman caller r
    confirmationId none none done
  record ev
  let body := match outcome with
    | some (.ok resp) => resp.body
    | _ => []
  pure (.result ⟨r.id, state, status, body⟩)

/-- What is left once a request has begun executing: it is logged, or not run. -/
def executeBegun (caller : Caller) (facts : SessionFacts) (r : StepUpRequest) (passkey : Passkey)
    (confirmationId : Id) (now : ℤ) : Eff Reply := do
  store (.putConfirmation ⟨confirmationId, caller.subject, facts.idHash, passkey.id, .request,
    some r.actionDigest, some r.id, now, now + stepUpWindowMs, some now⟩)
  let ev ← requestEvent .stepUpConfirmed caller.subject caller r confirmationId (some passkey.id)
    (some facts.idHash) now
  let logged ← tryStore (.append ev)
  let ev ← requestEvent .requestConfirmed caller.subject caller r confirmationId (some passkey.id)
    (some facts.idHash) now
  record ev
  match logged, opened host r with
  | .ok _, some (body, requester) => do
      let outcome ← replay host (authorityOf r confirmationId requester caller.subject) r body
      settle caller r confirmationId (some outcome)
  | _, _ => settle caller r confirmationId none

/-- Confirm a request with a passkey: it runs once, exactly as raised. -/
def confirmRequest (caller : Caller) (id challengeId : Id) (credential : Bytes) : Eff Reply := do
  let facts ← browserSession caller
  let r ← loadAsHuman id caller
  let now ← clock
  confirmable r now
  let (row, sent) ← consume host challengeId caller facts [.request] now
  if row.requestId ≠ some id ∨ row.actionDigest ≠ some r.actionDigest then .err challengeInvalid
  else do
    let passkey ← verifyAssertion host caller facts sent credential now
    let confirmationId ← randomId
    match ← store (.beginExecution id caller.subject confirmationId now) with
    | .notFound => .err .notFound
    | .expired => .err .gone
    | .notPending _ => .err .conflict
    | .begun r => executeBegun host caller facts r passkey confirmationId now

def breakGlassCaller : Text := "operator:break-glass".toList

/-- Remove every passkey of a principal: logged first, or not done. -/
def resetPasskeys (principal : Text) (now : ℤ) : Eff Reply := do
  let subject ← orElse .notFound (← ask (.breakGlassTarget principal))
  let _ ← store (.listPasskeys subject)
  let ev ← event none .passkeyBreakGlassReset subject breakGlassCaller none now
  store (.append { ev with
    op := some "passkey.break_glass_reset".toList, target := some subject })
  let _ ← store (.removeAll subject)
  let _ ← store (.deleteWindowsFor subject)
  pure .done

def stepUpRequestRetentionMs : ℤ := 30 * 24 * 60 * 60 * 1000

def reapStepUp : Eff Reply := do
  let now ← clock
  let _ ← store (.reapChallenges now)
  let _ ← store (.reap now (now - stepUpRequestRetentionMs))
  pure .done

inductive Call where
  | governed (caller : Caller) (raw : RawRequest)
  | registration (caller : Caller) (challengeId : Id) (credential : Bytes)
  | stepUpOptions (caller : Caller)
  | stepUpConfirm (caller : Caller) (challengeId : Id) (credential : Bytes)
  | requestOptions (caller : Caller) (id : Id)
  | confirmRequest (caller : Caller) (id challengeId : Id) (credential : Bytes)
  | resetPasskeys (principal : Text) (now : ℤ)
  | reap
  deriving DecidableEq, Repr

def handle : Call → Eff Reply
  | .governed caller raw => do
      let resp ← guard host none caller raw
      pure (.response resp)
  | .registration caller challengeId credential =>
      passkeyRegistration host caller challengeId credential
  | .stepUpOptions caller => stepUpOptions host caller
  | .stepUpConfirm caller challengeId credential => stepUpConfirm host caller challengeId credential
  | .requestOptions caller id => requestOptions host caller id
  | .confirmRequest caller id challengeId credential =>
      confirmRequest host caller id challengeId credential
  | .resetPasskeys principal now => resetPasskeys principal now
  | .reap => reapStepUp

/-- The environment answers what is asked and may lose the answer of a store. -/
structure Answer where
  ask : (q : Ask) → q.Ans
  fault : Option Fault

def respond : (c : Cmd) → Answer → Stores → c.Resp × Stores
  | .drawId, _, s => (s.drawn, { s with drawn := s.drawn + 1 })
  | .ask q, a, s => (a.ask q, s)
  | .store x, a, s => respondStore x a.fault s

/-- The calls of any number of server replicas on the shared stores. -/
abbrev stepUp : Machine where
  State := Stores
  Cmd := Cmd
  Resp := Cmd.Resp
  Err := ApiError
  Answer := Answer
  Call := Call
  Value := Reply
  respond := respond
  body := handle host

def sampleOp : Op := ⟨['o'], .alwaysAsk, .requestable, true, none, 64⟩

/-- One always-ask operation, or the enrolling of a passkey, and an authenticator that always answers
with the next count. -/
def sampleHost : Host where
  route raw := some ⟨sampleOp,
    if raw.method = ['a'] then .conditional (.passkeyAdd raw.path) else .crownJewel .other, raw.body,
    ⟨[], raw.path, []⟩⟩
  actionChallenge nonce digest := nonce ++ digest.getD []
  rawId _ := some [1]
  verifyRegistration _ _ := .ok ⟨[2], [], -7, 0, [], [], false, false⟩
  assertionChecks _ stored _ _ := .ok (stored.signCount + 1, false)
  sealRequest body session _ := if session = none then some body else none
  openRequest sealed _ := some (sealed, none)
  sessionHash id := id

def samplePasskey : Passkey :=
  ⟨1000, ['u'], [1], [], -7, 0, [], [], none, false, false, 0, ['s'], none, none, some
    (List.replicate 32 0)⟩

/-- One enrolled passkey. -/
def sampleStores : Stores := ⟨[samplePasskey], [], [], [], [], [], 0⟩

def sampleCaller : Caller := ⟨['u'], [.owner], none, some .cookie, some ⟨['k'], ['s'], none⟩⟩

def sampleToken : ApiToken := ⟨['t'], [], ['u'], 100, none⟩

def sampleMachine : Caller := ⟨['u'], [.owner], some sampleToken, some .bearer, none⟩

/-- Everything allowed, at time zero. -/
def sampleAnswer : Answer where
  ask
    | .clock => 0
    | .randomBytes => []
    | .reachesMinRole _ _ | .scopeCovered _ _ | .handlerAllows _ _ => true
    | .orgOf _ _ => none
    | .resetTarget _ _ => none
    | .breakGlassTarget principal => some principal
    | .judge _ _ => none
    | .perform _ _ => ⟨200, []⟩
    | .aliasesOf _ => []
    | .tokenById _ => some sampleToken
    | .sessionById _ => none
    | .ownerRoles _ => [.owner]
  fault := none

end Scarab.StepUp
