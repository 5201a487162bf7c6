import Scarab.StepUpStores

/-!
# Step-up programs

The guard over governed operations, the passkey ceremonies and the confirmation requests, as
programs over the stores and what the rest of the server answers.
-/
namespace Scarab.StepUp

open Depot (Bytes)
open Interleave

structure ApiToken where
  id : Text
  name : Text
  ownerSubject : Text
  expiresAt : ℤ
  revokedAt : Option ℤ
  deriving DecidableEq, Repr

def ApiToken.isLive (t : ApiToken) (now : ℤ) : Bool := t.revokedAt.isNone ∧ now < t.expiresAt

structure Session where
  id : Text
  subject : Text
  expiresAt : ℤ
  deriving DecidableEq, Repr

def Session.isValid (s : Session) (now : ℤ) : Bool := now < s.expiresAt

inductive AuthVia where
  | cookie | bearer
  deriving DecidableEq, Repr

structure SessionFacts where
  id : Text
  idHash : Text
  freshLoginUntil : Option ℤ
  deriving DecidableEq, Repr

structure Caller where
  subject : Text
  roles : List Role
  grant : Option ApiToken
  via : Option AuthVia
  session : Option SessionFacts
  deriving DecidableEq, Repr

/-- The facts of a cookie session; no other caller has any a ceremony takes. -/
def Caller.browserSession (c : Caller) : Option SessionFacts :=
  if c.grant.isNone ∧ c.via = some .cookie then c.session else none

/-- The caller of an event: `api_token:` and the token's id, or how the session came in. -/
def Caller.eventLabel (c : Caller) : Text :=
  match c.grant, c.via with
  | some token, _ => "api_token:".toList ++ token.id
  | none, some .cookie => "session:cookie".toList
  | none, some .bearer => "session:bearer".toList
  | none, none => "dev:insecure".toList

inductive Mode where
  | window | alwaysAsk
  deriving DecidableEq, Repr

inductive StepUpMachineUse where
  | requestable | browserOnly | notByToken
  deriving DecidableEq, Repr

structure Op where
  id : Text
  mode : Mode
  machine : StepUpMachineUse
  orgBound : Bool
  minRole : Option Role
  maxRequestBody : ℕ
  deriving DecidableEq, Repr

inductive CrownJewel where
  | passkeyRemove (id : Id)
  | passkeyReset
  | other
  deriving DecidableEq, Repr

inductive Conditional where
  | passkeyAdd (label : Text)
  | other
  deriving DecidableEq, Repr

/-- A crown jewel is confirmed before its handler runs, a conditional operation by its handler. -/
inductive Handler where
  | crownJewel (w : CrownJewel)
  | conditional (w : Conditional)
  deriving DecidableEq, Repr

structure RawRequest where
  method : Text
  path : Text
  query : Text
  body : Bytes
  deriving DecidableEq, Repr

/-- What the guard works out from a request alone: its operation, digest and summary. -/
structure Routed where
  op : Op
  handler : Handler
  digest : Digest
  summary : OpSummary
  deriving DecidableEq, Repr

structure Prepared where
  caller : Caller
  raw : RawRequest
  routed : Routed
  org : Option Text
  deriving DecidableEq, Repr

inductive ReplayRequester where
  | apiToken (id : Text)
  | bearerSession (id : Text)
  deriving DecidableEq, Repr

structure ReplayAuthority where
  requestId : Id
  confirmationId : Id
  opId : Text
  digest : Digest
  changes : List Text
  requester : ReplayRequester
  forHuman : Text
  roleCap : Option Role
  deriving DecidableEq, Repr

structure Response where
  status : ℕ
  body : Bytes
  deriving DecidableEq, Repr

def Response.isSuccess (r : Response) : Bool := 200 ≤ r.status ∧ r.status < 300

inductive WebauthnError where
  | cloneSuspected
  | malformedResponse
  | storedCredentialInconsistent
  | refused (code : Text)
  deriving DecidableEq, Repr

structure StoredCredential where
  credentialId : Bytes
  publicKeyCose : Bytes
  alg : ℤ
  signCount : ℕ
  backupEligible : Bool
  deriving DecidableEq, Repr

structure NewCredential where
  credentialId : Bytes
  publicKeyCose : Bytes
  alg : ℤ
  signCount : ℕ
  transports : List Text
  aaguid : Bytes
  backupEligible : Bool
  backupState : Bool
  deriving DecidableEq, Repr

structure AssertionOk where
  newCount : ℕ
  backupState : Bool
  counterRegressed : Bool
  deriving DecidableEq, Repr

/-- The parts that stay parameters: the route table with the digest and the summary of a request,
the hash a challenge is derived by, the checks of a WebAuthn answer up to its counter, and the
sealer. -/
structure Host where
  route : RawRequest → Option Routed
  actionChallenge : Bytes → Option Digest → Bytes
  rawId : Bytes → Option Bytes
  verifyRegistration : Bytes → Bytes → Except WebauthnError NewCredential
  assertionChecks : Bytes → StoredCredential → Bytes → Bytes → Except WebauthnError (ℕ × Bool)
  sealRequest : Bytes → Option Text → Id → Option Bytes
  openRequest : Bytes → Id → Option (Bytes × Option Text)
  sessionHash : Text → Text

def coseAlgorithms : List ℤ := [-7, -8, -257]

/-- A counter that does not move forward is refused, but for a passkey that may be synced. -/
def Host.verifyAssertion (host : Host) (sent : Bytes) (stored : StoredCredential)
    (handle credential : Bytes) : Except WebauthnError AssertionOk :=
  match host.assertionChecks sent stored handle credential with
  | .error e => .error e
  | .ok (count, backupState) =>
      let bothZero := count = 0 ∧ stored.signCount = 0
      let regressed : Bool := ¬ bothZero ∧ count ≤ stored.signCount
      if regressed ∧ ¬ stored.backupEligible then .error .cloneSuspected
      else .ok ⟨count, backupState, regressed⟩

structure ChallengeDto where
  id : Id
  sent : Bytes
  allow : List (Bytes × List Text)
  expiresAt : ℤ
  deriving DecidableEq, Repr

inductive RefusalMessage where
  | confirm | enroll | flaggedReset | machine | replayMismatch | plugin | request
  deriving DecidableEq, Repr

inductive RefusalMode where
  | window | action | enroll
  deriving DecidableEq, Repr

def Mode.shown : Mode → RefusalMode
  | .window => .window
  | .alwaysAsk => .action

structure StepUpRefusal where
  message : RefusalMessage
  mode : RefusalMode
  op : Text
  summary : OpSummary
  challenge : Option ChallengeDto
  freshLoginUntil : Option ℤ
  requestId : Option Id
  expiresAt : Option ℤ
  deriving DecidableEq, Repr

inductive Unrequestable where
  | browserOnly | notByToken | outsideTokenScope
  deriving DecidableEq, Repr

inductive CeremonyCode where
  | browserSessionRequired | challengeInvalid | unknownCredential | cloneSuspected
  | passkeyResetRequired | noPasskey | passkeyUnusable | requestBodyTooLarge
  | webauthn (e : WebauthnError)
  | unrequestable (why : Unrequestable)
  deriving DecidableEq, Repr

inductive ApiError where
  | db (e : IdentityError)
  | badRequest | unauthorized | forbidden | notFound | conflict | gone | tooManyRequests
  | unavailable | notGoverned | freshLoginRequired
  | ceremony (code : CeremonyCode)
  | stepUpRequired (refusal : StepUpRefusal)
  deriving DecidableEq, Repr

def CeremonyCode.status : CeremonyCode → ℕ
  | .browserSessionRequired | .cloneSuspected | .passkeyResetRequired | .passkeyUnusable => 403
  | .unrequestable _ => 403
  | .requestBodyTooLarge => 413
  | .challengeInvalid | .unknownCredential | .noPasskey | .webauthn _ => 400

def ApiError.status : ApiError → ℕ
  | .db _ | .notGoverned => 500
  | .badRequest => 400
  | .unauthorized => 401
  | .forbidden | .freshLoginRequired | .stepUpRequired _ => 403
  | .notFound => 404
  | .conflict => 409
  | .gone => 410
  | .tooManyRequests => 429
  | .unavailable => 503
  | .ceremony code => code.status

/-- What the programs ask of the clock, the random source and the rest of the server. -/
inductive Ask where
  | clock
  | randomBytes
  | reachesMinRole (caller : Caller) (op : Op)
  | orgOf (caller : Caller) (raw : RawRequest)
  | scopeCovered (token : ApiToken) (raw : RawRequest)
  | handlerAllows (caller : Caller) (raw : RawRequest)
  | judge (caller : Caller) (raw : RawRequest)
  | perform (caller : Caller) (raw : RawRequest)
  | resetTarget (caller : Caller) (raw : RawRequest)
  | breakGlassTarget (principal : Text)
  | aliasesOf (subject : Text)
  | tokenById (id : Text)
  | sessionById (id : Text)
  | ownerRoles (subject : Text)
  deriving DecidableEq, Repr

/-- A judged change is none where it loosens nothing. A reset names an org and the member of it whose
passkeys the caller may reset. -/
abbrev Ask.Ans : Ask → Type
  | clock => ℤ
  | randomBytes => Bytes
  | reachesMinRole _ _ | scopeCovered _ _ | handlerAllows _ _ => Bool
  | orgOf _ _ | breakGlassTarget _ => Option Text
  | resetTarget _ _ => Option (Text × Text)
  | judge _ _ => Option (List Text)
  | perform _ _ => Response
  | aliasesOf _ => List Text
  | tokenById _ => Option ApiToken
  | sessionById _ => Option Session
  | ownerRoles _ => List Role

inductive Cmd where
  | drawId
  | ask (q : Ask)
  | store (x : Store)
  deriving DecidableEq, Repr

abbrev Cmd.Resp : Cmd → Type
  | drawId => Id
  | ask q => q.Ans
  | store x => Except IdentityError x.Ans

abbrev Eff (α : Type) := Prog Cmd Cmd.Resp ApiError α

def orError {α : Type} : Except ApiError α → Eff α
  | .ok a => .ok a
  | .error e => .err e

def orElse {α : Type} (e : ApiError) : Option α → Eff α
  | some a => .ok a
  | none => .err e

def randomId : Eff Id := .call .drawId .ok
def ask (q : Ask) : Eff q.Ans := .call (.ask q) .ok
def clock : Eff ℤ := ask .clock
def tryStore (x : Store) : Eff (Except IdentityError x.Ans) := .call (.store x) .ok

def store (x : Store) : Eff x.Ans := do
  match ← tryStore x with
  | .ok a => .ok a
  | .error e => .err (.db e)

/-- A fresh event row, linked to the request being replayed, if any. -/
def event (replay : Option ReplayAuthority) (kind : EventKind) (subject caller : Text)
    (org : Option Text) (now : ℤ) : Eff SecurityEvent := do
  let id ← randomId
  pure ⟨id, org, now, kind, subject, caller, none, none, none, replay.map (·.requestId), none, none⟩

/-- Append an event, best-effort. -/
def record (ev : SecurityEvent) : Eff Unit := do
  let _ ← tryStore (.append ev)
  pure ()

def recordCeremonyRefusal (caller : Caller) (requestId : Option Id) (now : ℤ) : Eff Unit := do
  let ev ← event none .stepUpRefused caller.subject caller.eventLabel none now
  record { ev with sessionHash := caller.session.map (·.idHash), requestId := requestId }

variable (host : Host)

def usablePasskeys (principal : Text) : Eff (List Passkey) := do
  let all ← store (.listPasskeys principal)
  pure (all.filter (·.cloneSuspectedAt.isNone))

def descriptors (passkeys : List Passkey) : List (Bytes × List Text) :=
  passkeys.map fun p => (p.credentialId, p.transports)

def mintChallenge (principal session : Text) (purpose : ChallengePurpose) (digest : Option Digest)
    (requestId : Option Id) (label : Option Text) (summary : Option ChallengeSummary) (now : ℤ) :
    Eff (WebauthnChallenge × Bytes) := do
  let nonce ← ask .randomBytes
  let id ← randomId
  let row : WebauthnChallenge :=
    ⟨id, principal, session, purpose, nonce, digest, requestId, label, summary, now,
      now + webauthnChallengeTtlMs, none⟩
  store (.putChallenge row)
  pure (row, host.actionChallenge nonce digest)

def challengeInvalid : ApiError := .ceremony .challengeInvalid

/-- Take a challenge of this session, for this principal and one of the purposes. -/
def consume (id : Id) (caller : Caller) (facts : SessionFacts) (purposes : List ChallengePurpose)
    (now : ℤ) : Eff (WebauthnChallenge × Bytes) := do
  match ← store (.consumeChallenge id facts.idHash now) with
  | none => .err challengeInvalid
  | some row =>
      if row.principal ≠ caller.subject ∨ row.purpose ∉ purposes then .err challengeInvalid
      else pure (row, host.actionChallenge row.nonce row.actionDigest)

/-- The caller's browser session; any other caller is refused and the refusal recorded. -/
def browserSession (caller : Caller) : Eff SessionFacts :=
  match caller.browserSession with
  | some facts => pure facts
  | none => do
      let now ← clock
      recordCeremonyRefusal caller none now
      .err (.ceremony .browserSessionRequired)

def refusalOf (p : Prepared) (summary : OpSummary) (message : RefusalMessage) (mode : RefusalMode) :
    StepUpRefusal :=
  ⟨message, mode, p.routed.op.id, summary, none, none, none, none⟩

/-- Record the refusal, best-effort, and give it. -/
def refuseWith {α : Type} (replay : Option ReplayAuthority) (p : Prepared)
    (refusal : StepUpRefusal) (requestId : Option Id) : Eff α := do
  let now ← clock
  let ev ← event replay .stepUpRefused p.caller.subject p.caller.eventLabel p.org now
  record { ev with
    op := some p.routed.op.id
    target := some refusal.summary.target
    sessionHash := p.caller.session.map (·.idHash)
    requestId := requestId.orElse fun _ => ev.requestId }
  .err (.stepUpRequired refusal)

def refuse {α : Type} (replay : Option ReplayAuthority) (p : Prepared) (refusal : StepUpRefusal) :
    Eff α :=
  refuseWith replay p refusal none

def refuseUnrequestable {α : Type} (replay : Option ReplayAuthority) (p : Prepared)
    (why : Unrequestable) : Eff α := do
  let now ← clock
  let ev ← event replay .stepUpRefused p.caller.subject p.caller.eventLabel p.org now
  record { ev with
    op := some p.routed.op.id
    target := some p.routed.summary.target
    sessionHash := p.caller.session.map (·.idHash) }
  .err (.ceremony (.unrequestable why))

def requesterOf (caller : Caller) : Option StepUpRequester :=
  match caller.grant with
  | some token => some (.apiToken token.id)
  | none =>
      match caller.via, caller.session with
      | some .bearer, some s => some (.bearerSession s.idHash)
      | _, _ => none

/-- Why a machine caller could never execute the operation it asks for. -/
def requestable (p : Prepared) : Eff (Option Unrequestable) :=
  if p.routed.op.machine = .browserOnly then pure (some .browserOnly)
  else
    match p.caller.grant with
    | none => pure none
    | some token =>
        if p.routed.op.machine = .notByToken then pure (some .notByToken)
        else if !p.routed.op.orgBound then pure none
        else do
          if ← ask (.scopeCovered token p.raw) then pure none else pure (some .outsideTokenScope)

def requesterLabel (caller : Caller) : Text :=
  match caller.grant with
  | some t => "API token ".toList ++ t.name ++ " (".toList ++ t.id ++ ")".toList
  | none => "a CLI session (Bearer)".toList

/-- The row of a request being raised. -/
def raisedRow (p : Prepared) (summary : OpSummary) (requester : StepUpRequester) (id : Id)
    (sealed : Bytes) (now : ℤ) : StepUpRequest where
  id := id
  org := p.org
  op := p.routed.op.id
  method := p.raw.method
  path := p.raw.path
  query := p.raw.query
  sealed := some sealed
  actionDigest := p.routed.digest
  summary := ⟨summary, requesterLabel p.caller⟩
  forHuman := p.caller.subject
  requester := requester
  sessionRoleCap :=
    match requester with
    | .bearerSession _ => p.caller.roles.argmax Role.rank
    | .apiToken _ => none
  createdAt := now
  expiresAt := now + stepUpRequestTtlMs
  state := .pending
  confirmedBy := none
  confirmedAt := none
  confirmationId := none
  executedAt := none
  resultStatus := none

/-- Raise a confirmation request for the caller's human and give the refusal with its link. -/
def raise {α : Type} (p : Prepared) (summary : OpSummary) (requester : StepUpRequester)
    (refusal : StepUpRefusal) : Eff α := do
  let now ← clock
  let refused (e : ApiError) : Eff α := do
    let ev ← event none .stepUpRefused p.caller.subject p.caller.eventLabel p.org now
    record { ev with
      op := some p.routed.op.id
      target := some summary.target
      sessionHash := p.caller.session.map (·.idHash) }
    .err e
  if p.routed.op.maxRequestBody < p.raw.body.length then
    refused (.ceremony .requestBodyTooLarge)
  else do
    let id ← randomId
    let sessionId :=
      match requester with
      | .bearerSession _ => p.caller.session.map (·.id)
      | .apiToken _ => none
    let sealed ← orElse .unavailable (host.sealRequest p.raw.body sessionId id)
    let row := raisedRow p summary requester id sealed now
    match ← store (.raiseRequest row .default now) with
    | .requesterFull _ | .humanFull _ => refused .tooManyRequests
    | .raised => do
        let ev ← event none .requestRaised p.caller.subject p.caller.eventLabel p.org now
        record { ev with
          op := some p.routed.op.id
          target := some summary.target
          requestId := some id
          sessionHash := p.caller.session.map (·.idHash) }
        refuseWith none p
          { refusal with message := .request, requestId := some id, expiresAt := some row.expiresAt }
          (some id)

/-- A plugin's principal starts with `plugin:`. -/
def isPlugin (subject : Text) : Bool := "plugin:".toList.isPrefixOf subject

/-- The one step-up decision: the confirmation that satisfies it, or a refusal. -/
def require (replay : Option ReplayAuthority) (p : Prepared) (summary : OpSummary) : Eff Id := do
  let mode := p.routed.op.mode
  let now ← clock
  match replay with
  | some authority =>
      -- a replay is satisfied by the one operation confirmed, changing no more than was shown
      if authority.opId = p.routed.op.id ∧ authority.digest = p.routed.digest ∧
          ∀ c ∈ summary.changes, c ∈ authority.changes then
        pure authority.confirmationId
      else refuse replay p (refusalOf p summary .replayMismatch mode.shown)
  | none =>
      match p.caller.browserSession with
      | none =>
          if isPlugin p.caller.subject then
            refuse none p (refusalOf p summary .plugin mode.shown)
          else
            match requesterOf p.caller with
            | none => refuse none p (refusalOf p summary .machine mode.shown)
            | some requester => do
                match ← requestable p with
                | some why => refuseUnrequestable none p why
                | none => raise host p summary requester (refusalOf p summary .machine mode.shown)
      | some session => do
          let subject := p.caller.subject
          let passkeys ← usablePasskeys subject
          if passkeys.isEmpty then
            let all ← store (.listPasskeys subject)
            if !all.isEmpty then refuse none p (refusalOf p summary .flaggedReset .enroll)
            else refuse none p { refusalOf p summary .enroll .enroll with
              freshLoginUntil := session.freshLoginUntil.filter (now < ·) }
          else do
            let covered ← (match mode with
              | .window => do
                  let found ← store (.liveWindow session.idHash subject now)
                  pure (found.map (·.1))
              | .alwaysAsk => store (.consumeAction session.idHash subject p.routed.digest now))
            match covered with
            | some id => pure id
            | none => do
                let (purpose, digest) := (match mode with
                  | .window => (ChallengePurpose.window, none)
                  | .alwaysAsk => (.action, some p.routed.digest))
                let (row, sent) ← mintChallenge host subject session.idHash purpose digest none none
                  (some ⟨p.routed.op.id, p.org, summary, none⟩) now
                refuse none p { refusalOf p summary .confirm mode.shown with
                  challenge := some ⟨row.id, sent, descriptors passkeys, row.expiresAt⟩ }

/-- The decision and, when it is satisfied, the `op.authorised` event: not recorded, not run. -/
def authorise (replay : Option ReplayAuthority) (p : Prepared) (summary : OpSummary) : Eff Id := do
  let confirmation ← require host replay p summary
  let now ← clock
  let ev ← event replay .opAuthorised p.caller.subject p.caller.eventLabel p.org now
  match ← tryStore (.append { ev with
      op := some p.routed.op.id
      target := some summary.target
      confirmationId := some confirmation
      sessionHash := p.caller.session.map (·.idHash) }) with
  | .ok _ => pure confirmation
  | .error _ => .err .unavailable

/-- Later loosenings replace what the summary says changes. -/
def OpSummary.loosened (s : OpSummary) (loosenings : List Text) : OpSummary :=
  if loosenings.isEmpty then s else { s with changes := loosenings }

def removePasskey (replay : Option ReplayAuthority) (caller : Caller) (id : Id)
    (confirmation : Option Id) : Eff Response := do
  let held ← store (.listPasskeys caller.subject)
  if !held.any (·.id = id) then .err .notFound
  else do
    let _ ← store (.deleteForPasskey id)
    if !(← store (.removePasskey caller.subject id)) then .err .notFound
    else do
      -- again, for a confirmation stored between the revocation and the removal
      let late ← tryStore (.deleteForPasskey id)
      let now ← clock
      let ev ← event replay .passkeyRemoved caller.subject caller.eventLabel none now
      record { ev with
        passkeyId := some id
        sessionHash := caller.session.map (·.idHash)
        confirmationId := confirmation }
      match late with
      | .error e => .err (.db e)
      | .ok _ => pure ⟨204, []⟩

def resetMemberPasskeys (replay : Option ReplayAuthority) (caller : Caller) (raw : RawRequest)
    (confirmation : Option Id) : Eff Response := do
  let (org, subject) ← orElse .forbidden (← ask (.resetTarget caller raw))
  let _ ← store (.removeAll subject)
  let _ ← store (.deleteWindowsFor subject)
  let now ← clock
  let ev ← event replay .passkeyReset subject caller.eventLabel (some org) now
  record { ev with
    op := some "passkey.reset".toList
    target := some (org ++ '/' :: subject)
    confirmationId := confirmation
    sessionHash := caller.session.map (·.idHash) }
  pure ⟨200, []⟩

/-- `passkey_registration_options` once it may: a challenge to enroll a passkey under. -/
def registrationChallenge (caller : Caller) (facts : SessionFacts) (label : Text) (now : ℤ) :
    Eff Response := do
  let _ ← mintChallenge host caller.subject facts.idHash .register none none (some label) none now
  let fresh ← ask .randomBytes
  let _ ← store (.userHandle caller.subject fresh)
  pure ⟨200, []⟩

def recordEnrollRefusal (replay : Option ReplayAuthority) (p : Prepared) (facts : SessionFacts)
    (label : Text) (now : ℤ) : Eff Unit := do
  let ev ← event replay .stepUpRefused p.caller.subject p.caller.eventLabel none now
  record { ev with
    op := some p.routed.op.id, target := some label, sessionHash := some facts.idHash }

/-- A first passkey needs a fresh browser login, a later one a confirmation of its own. -/
def passkeyRegistrationOptions (replay : Option ReplayAuthority) (p : Prepared) (label : Text) :
    Eff (Except ApiError Response × Option Id) := do
  let facts ← browserSession p.caller
  let now ← clock
  let all ← store (.listPasskeys p.caller.subject)
  if all.isEmpty then
    if facts.freshLoginUntil.any (now < ·) then do
      let resp ← (registrationChallenge host p.caller facts label now).attempt
      pure (resp, none)
    else do
      recordEnrollRefusal replay p facts label now
      .err .freshLoginRequired
  else if all.all (·.cloneSuspectedAt.isSome) then do
    recordEnrollRefusal replay p facts label now
    .err (.ceremony .passkeyResetRequired)
  else do
    let confirmation ← authorise host replay p
      (p.routed.summary.loosened ["add passkey ".toList ++ label])
    let resp ← (registrationChallenge host p.caller facts label now).attempt
    pure (resp, some confirmation)

def crownJewelHandler (replay : Option ReplayAuthority) (caller : Caller) (raw : RawRequest)
    (w : CrownJewel) (confirmation : Option Id) : Eff Response :=
  match w with
  | .passkeyRemove id => removePasskey replay caller id confirmation
  | .passkeyReset => resetMemberPasskeys replay caller raw confirmation
  | .other => do
      if ← ask (.handlerAllows caller raw) then ask (.perform caller raw) else .err .forbidden

/-- The handler judges its change against the state it finds; one that loosens nothing is exempt. -/
def conditionalHandler (replay : Option ReplayAuthority) (p : Prepared) (w : Conditional) :
    Eff (Except ApiError Response × Option Id) :=
  match w with
  | .passkeyAdd label => passkeyRegistrationOptions host replay p label
  | .other => do
      if ← ask (.handlerAllows p.caller p.raw) then
        match ← ask (.judge p.caller p.raw) with
        | none => do
            let resp ← ask (.perform p.caller p.raw)
            pure (.ok resp, none)
        | some loosenings => do
            let confirmation ← authorise host replay p (p.routed.summary.loosened loosenings)
            let resp ← ask (.perform p.caller p.raw)
            pure (.ok resp, some confirmation)
      else .err .forbidden

def statusOf : Except ApiError Response → ℕ
  | .ok r => r.status
  | .error e => e.status

def completed (replay : Option ReplayAuthority) (p : Prepared) (confirmation : Id) : Eff Unit := do
  let now ← clock
  let ev ← event replay .opCompleted p.caller.subject p.caller.eventLabel p.org now
  record { ev with
    op := some p.routed.op.id
    target := some p.routed.summary.target
    confirmationId := some confirmation
    sessionHash := p.caller.session.map (·.idHash) }

def completedTicket (replay : Option ReplayAuthority) (p : Prepared) : Option Id → Eff Unit
  | some confirmation => completed replay p confirmation
  | none => pure ()

/-- One request through the guard. A crown jewel whose caller the handler will refuse for its role
goes to the handler unasked. -/
def guard (replay : Option ReplayAuthority) (caller : Caller) (raw : RawRequest) : Eff Response :=
  match host.route raw with
  | none => .err .notGoverned
  | some routed =>
      match routed.handler with
      | .crownJewel w => do
          if ← ask (.reachesMinRole caller routed.op) then
            let org ← ask (.orgOf caller raw)
            let p : Prepared := ⟨caller, raw, routed, org⟩
            let confirmation ← authorise host replay p routed.summary
            let resp ← (crownJewelHandler replay caller raw w (some confirmation)).attempt
            completed replay p confirmation
            orError resp
          else crownJewelHandler replay caller raw w none
      | .conditional w => do
          let org ← ask (.orgOf caller raw)
          let p : Prepared := ⟨caller, raw, routed, org⟩
          let answer ← conditionalHandler host replay p w
          completedTicket replay p answer.2
          orError answer.1

end Scarab.StepUp
