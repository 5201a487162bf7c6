import Scarab.DepotPacks
import Scarab.InterleaveProgram

/-!
# Step-up stores

The passkeys, WebAuthn challenges, step-up confirmations, confirmation requests and security
events, and the commands on them. Each command is one atomic step.
-/
namespace Scarab.StepUp

open Depot (Bytes)

/-- A drawn 128-bit id. Draws do not repeat. -/
abbrev Id := ℕ

abbrev Digest := Bytes

def stepUpWindowMs : ℤ := 5 * 60 * 1000
def webauthnChallengeTtlMs : ℤ := 2 * 60 * 1000
def stepUpRequestTtlMs : ℤ := 5 * 60 * 1000

structure Passkey where
  id : Id
  principal : Text
  credentialId : Bytes
  publicKeyCose : Bytes
  alg : ℤ
  signCount : ℕ
  label : Text
  transports : List Text
  aaguid : Option Bytes
  backupEligible : Bool
  backupState : Bool
  createdAt : ℤ
  createdSessionHash : Text
  lastUsedAt : Option ℤ
  cloneSuspectedAt : Option ℤ
  userHandle : Option Bytes
  deriving DecidableEq, Repr

inductive PasskeyUse where
  | recorded | cloneSuspected | notFound
  deriving DecidableEq, Repr

inductive ChallengePurpose where
  | register | window | action | request
  deriving DecidableEq, Repr

structure OpSummary where
  operation : Text
  target : Text
  changes : List Text
  deriving DecidableEq, Repr

/-- What a challenge of the guard or of a request shows the human. -/
structure ChallengeSummary where
  op : Text
  org : Option Text
  summary : OpSummary
  requestId : Option Id
  deriving DecidableEq, Repr

structure WebauthnChallenge where
  id : Id
  principal : Text
  sessionHash : Text
  purpose : ChallengePurpose
  nonce : Bytes
  actionDigest : Option Digest
  requestId : Option Id
  label : Option Text
  summary : Option ChallengeSummary
  createdAt : ℤ
  expiresAt : ℤ
  consumedAt : Option ℤ
  deriving DecidableEq, Repr

inductive ConfirmationKind where
  | window | action | request
  deriving DecidableEq, Repr

structure StepUpConfirmation where
  id : Id
  principal : Text
  sessionHash : Text
  passkeyId : Id
  kind : ConfirmationKind
  actionDigest : Option Digest
  requestId : Option Id
  confirmedAt : ℤ
  expiresAt : ℤ
  consumedAt : Option ℤ
  deriving DecidableEq, Repr

inductive StepUpRequester where
  | apiToken (id : Text)
  | bearerSession (sessionHash : Text)
  deriving DecidableEq, Repr

inductive Role where
  | viewer | member | admin | owner
  deriving DecidableEq, Repr

/-- The roles in order, the strongest last. -/
def Role.rank : Role → ℕ
  | .viewer => 0
  | .member => 1
  | .admin => 2
  | .owner => 3

inductive RequestState where
  | pending | executing | executed | failed
  deriving DecidableEq, Repr

def RequestState.isTerminal : RequestState → Bool
  | .executed | .failed => true
  | .pending | .executing => false

structure RequestSummary where
  summary : OpSummary
  requester : Text
  deriving DecidableEq, Repr

structure StepUpRequest where
  id : Id
  org : Option Text
  op : Text
  method : Text
  path : Text
  query : Text
  sealed : Option Bytes
  actionDigest : Digest
  summary : RequestSummary
  forHuman : Text
  requester : StepUpRequester
  sessionRoleCap : Option Role
  createdAt : ℤ
  expiresAt : ℤ
  state : RequestState
  confirmedBy : Option Text
  confirmedAt : Option ℤ
  confirmationId : Option Id
  executedAt : Option ℤ
  resultStatus : Option ℕ
  deriving DecidableEq, Repr

def StepUpRequest.isExpired (r : StepUpRequest) (now : ℤ) : Bool :=
  r.state = .pending ∧ r.expiresAt ≤ now

/-- Pending and unexpired: what the caps count. -/
def StepUpRequest.isLive (r : StepUpRequest) (now : ℤ) : Bool :=
  r.state = .pending ∧ now < r.expiresAt

inductive EventKind where
  | stepUpConfirmed | stepUpRefused | opAuthorised | opCompleted | requestRaised
  | requestConfirmed | requestExecuted | requestFailed | passkeyEnrolled | passkeyRemoved
  | passkeyReset | passkeyBreakGlassReset | passkeyCloneSuspected | passkeyCounterRegressed
  deriving DecidableEq, Repr

structure SecurityEvent where
  id : Id
  org : Option Text
  at_ : ℤ
  kind : EventKind
  subject : Text
  caller : Text
  op : Option Text
  target : Option Text
  confirmationId : Option Id
  requestId : Option Id
  passkeyId : Option Id
  sessionHash : Option Text
  deriving DecidableEq, Repr

structure StepUpRequestPendingCaps where
  perRequester : ℕ
  perHuman : ℕ
  deriving DecidableEq, Repr

def StepUpRequestPendingCaps.default : StepUpRequestPendingCaps := ⟨10, 20⟩

inductive StepUpRequestRaiseOutcome where
  | raised
  | requesterFull (pending : ℕ)
  | humanFull (pending : ℕ)
  deriving DecidableEq, Repr

inductive BeginExecution where
  | begun (r : StepUpRequest)
  | notFound
  | expired
  | notPending (state : RequestState)
  deriving DecidableEq, Repr

/-- Every store under one roof, each a map or a list as the source keeps it. -/
structure Stores where
  passkeys : List Passkey
  handles : List (Text × Bytes)
  challenges : List WebauthnChallenge
  confirmations : List StepUpConfirmation
  requests : List StepUpRequest
  events : List SecurityEvent
  drawn : ℕ
  deriving DecidableEq, Repr

inductive IdentityError where
  | conflict
  | unreachable
  deriving DecidableEq, Repr

inductive Store where
  | listPasskeys (principal : Text)
  | getByCredential (credentialId : Bytes)
  | userHandle (principal : Text) (fresh : Bytes)
  | insertPasskey (p : Passkey)
  | recordUse (id : Id) (readCount newCount : ℕ) (backupState : Bool) (now : ℤ)
  | markClone (id : Id) (now : ℤ)
  | removePasskey (principal : Text) (id : Id)
  | removeAll (principal : Text)
  | putChallenge (c : WebauthnChallenge)
  | consumeChallenge (id : Id) (sessionHash : Text) (now : ℤ)
  | reapChallenges (now : ℤ)
  | putConfirmation (c : StepUpConfirmation)
  | liveWindow (sessionHash principal : Text) (now : ℤ)
  | consumeAction (sessionHash principal : Text) (digest : Digest) (now : ℤ)
  | deleteWindowsFor (principal : Text)
  | deleteForPasskey (passkeyId : Id)
  | raiseRequest (r : StepUpRequest) (caps : StepUpRequestPendingCaps) (now : ℤ)
  | getRequest (id : Id)
  | beginExecution (id : Id) (confirmedBy : Text) (confirmationId : Id) (now : ℤ)
  | finishRequest (id : Id) (state : RequestState) (resultStatus : Option ℕ) (now : ℤ)
  | reap (now olderThan : ℤ)
  | append (ev : SecurityEvent)
  deriving DecidableEq, Repr

/-- What each command answers. -/
abbrev Store.Ans : Store → Type
  | listPasskeys _ => List Passkey
  | getByCredential _ => Option Passkey
  | userHandle _ _ => Bytes
  | insertPasskey _ | putChallenge _ | putConfirmation _ | append _ => Unit
  | recordUse .. => PasskeyUse
  | markClone _ _ | removePasskey _ _ | finishRequest .. => Bool
  | removeAll _ | reapChallenges _ | deleteWindowsFor _ | deleteForPasskey _ | reap _ _ => ℕ
  | consumeChallenge .. => Option WebauthnChallenge
  | liveWindow .. => Option (Id × ℤ)
  | consumeAction .. => Option Id
  | raiseRequest .. => StepUpRequestRaiseOutcome
  | getRequest _ => Option StepUpRequest
  | beginExecution .. => BeginExecution

/-- Change the entry of one id. -/
def modifyAt {α : Type} (key : α → Id) (id : Id) (f : α → α) (l : List α) : List α :=
  l.map fun x => if key x = id then f x else x

/-- Flag a passkey as suspected cloned; the first flag time stands. -/
def Passkey.flag (p : Passkey) (now : ℤ) : Passkey :=
  { p with cloneSuspectedAt := some (p.cloneSuspectedAt.getD now) }

/-- The passkey a use is recorded on, and what became of it. -/
def Passkey.use (p : Passkey) (readCount newCount : ℕ) (backupState : Bool) (now : ℤ) :
    PasskeyUse × Passkey :=
  let forward := p.signCount < newCount ∨ (newCount = 0 ∧ p.signCount = 0)
  let lostRace := readCount < newCount ∧ p.signCount ≠ newCount
  if p.cloneSuspectedAt.isNone ∧ (forward ∨ lostRace ∨ p.backupEligible) then
    (.recorded, { p with
      signCount := max p.signCount newCount
      backupState := backupState
      lastUsedAt := some now })
  else (.cloneSuspected, p.flag now)

/-- A window, or an action confirmation nothing has consumed. -/
def StepUpConfirmation.stands (c : StepUpConfirmation) : Bool :=
  c.kind = .window ∨ (c.kind = .action ∧ c.consumedAt.isNone)

def StepUpConfirmation.coversWindow (c : StepUpConfirmation) (sessionHash principal : Text)
    (now : ℤ) : Bool :=
  c.kind = .window ∧ c.sessionHash = sessionHash ∧ c.principal = principal ∧ now < c.expiresAt

def StepUpConfirmation.coversAction (c : StepUpConfirmation) (sessionHash principal : Text)
    (digest : Digest) (now : ℤ) : Bool :=
  c.kind = .action ∧ c.sessionHash = sessionHash ∧ c.principal = principal ∧
    c.actionDigest = some digest ∧ c.consumedAt.isNone ∧ now < c.expiresAt

/-- The first of the best entries. -/
def pick {α : Type} (better : α → α → Bool) : List α → Option α
  | [] => none
  | x :: xs =>
      match pick better xs with
      | none => some x
      | some y => if better y x then some y else some x

namespace Stores

variable (s : Stores)

def listPasskeys (principal : Text) : List Passkey :=
  (s.passkeys.filter (·.principal = principal)).insertionSort fun a b =>
    a.createdAt < b.createdAt ∨ (a.createdAt = b.createdAt ∧ a.id ≤ b.id)

def getByCredential (credentialId : Bytes) : Option Passkey :=
  s.passkeys.find? (·.credentialId = credentialId)

def userHandle (principal : Text) (fresh : Bytes) : Bytes × Stores :=
  match s.handles.lookup principal with
  | some h => (h, s)
  | none => (fresh, { s with handles := s.handles ++ [(principal, fresh)] })

def insertPasskey (p : Passkey) : Except IdentityError Stores :=
  if s.passkeys.any fun q => q.id = p.id ∨ q.credentialId = p.credentialId then .error .conflict
  else .ok { s with passkeys := s.passkeys ++ [p] }

def recordUse (id : Id) (readCount newCount : ℕ) (backupState : Bool) (now : ℤ) :
    PasskeyUse × Stores :=
  match s.passkeys.find? (·.id = id) with
  | none => (.notFound, s)
  | some p =>
      ((p.use readCount newCount backupState now).1, { s with
        passkeys := modifyAt (·.id) id (fun p => (p.use readCount newCount backupState now).2)
          s.passkeys })

def markClone (id : Id) (now : ℤ) : Bool × Stores :=
  (s.passkeys.any (·.id = id), { s with
    passkeys := modifyAt (·.id) id (·.flag now) s.passkeys })

def removePasskey (principal : Text) (id : Id) : Bool × Stores :=
  (s.passkeys.any fun p => p.id = id ∧ p.principal = principal,
    { s with passkeys := s.passkeys.filter fun p => ¬(p.id = id ∧ p.principal = principal) })

def removeAll (principal : Text) : ℕ × Stores :=
  ((s.passkeys.filter (·.principal = principal)).length,
    { s with passkeys := s.passkeys.filter (·.principal ≠ principal) })

def putChallenge (c : WebauthnChallenge) : Except IdentityError Stores :=
  if s.challenges.any (·.id = c.id) then .error .conflict
  else .ok { s with challenges := s.challenges ++ [c] }

def consumeChallenge (id : Id) (sessionHash : Text) (now : ℤ) :
    Option WebauthnChallenge × Stores :=
  match s.challenges.find? (·.id = id) with
  | none => (none, s)
  | some c =>
      if c.sessionHash ≠ sessionHash ∨ c.consumedAt.isSome ∨ c.expiresAt ≤ now then (none, s)
      else
        (some { c with consumedAt := some now }, { s with
          challenges := modifyAt (·.id) id (fun c => { c with consumedAt := some now })
            s.challenges })

def reapChallenges (now : ℤ) : ℕ × Stores :=
  let kept := s.challenges.filter (now < ·.expiresAt)
  (s.challenges.length - kept.length, { s with challenges := kept })

def putConfirmation (c : StepUpConfirmation) : Except IdentityError Stores :=
  if s.confirmations.any (·.id = c.id) then .error .conflict
  else .ok { s with confirmations := s.confirmations ++ [c] }

/-- The window that ends last, and of these the one of the least id. -/
def liveWindow (sessionHash principal : Text) (now : ℤ) : Option (Id × ℤ) :=
  (pick (fun a b => b.expiresAt < a.expiresAt ∨ (a.expiresAt = b.expiresAt ∧ a.id < b.id))
    (s.confirmations.filter (·.coversWindow sessionHash principal now))).map
      fun c => (c.id, c.expiresAt)

/-- The confirmation made first, and of these the one of the least id. -/
def consumeAction (sessionHash principal : Text) (digest : Digest) (now : ℤ) :
    Option Id × Stores :=
  match pick (fun a b => a.confirmedAt < b.confirmedAt ∨
        (a.confirmedAt = b.confirmedAt ∧ a.id < b.id))
      (s.confirmations.filter (·.coversAction sessionHash principal digest now)) with
  | none => (none, s)
  | some c => (some c.id, { s with
      confirmations := modifyAt (·.id) c.id (fun c => { c with consumedAt := some now })
        s.confirmations })

def deleteWindowsFor (principal : Text) : ℕ × Stores :=
  let kept := s.confirmations.filter fun c => ¬(c.principal = principal ∧ c.stands)
  (s.confirmations.length - kept.length, { s with confirmations := kept })

def deleteForPasskey (passkeyId : Id) : ℕ × Stores :=
  let kept := s.confirmations.filter fun c => ¬(c.passkeyId = passkeyId ∧ c.stands)
  (s.confirmations.length - kept.length, { s with confirmations := kept })

/-- The live requests of one requester, or for one human. -/
def liveBy (requester : StepUpRequester) (now : ℤ) : ℕ :=
  s.requests.countP fun r => r.isLive now ∧ r.requester = requester

def liveFor (human : Text) (now : ℤ) : ℕ :=
  s.requests.countP fun r => r.isLive now ∧ r.forHuman = human

def raiseRequest (r : StepUpRequest) (caps : StepUpRequestPendingCaps) (now : ℤ) :
    Except IdentityError StepUpRequestRaiseOutcome × Stores :=
  if caps.perRequester ≤ s.liveBy r.requester now then
    (.ok (.requesterFull (s.liveBy r.requester now)), s)
  else if caps.perHuman ≤ s.liveFor r.forHuman now then
    (.ok (.humanFull (s.liveFor r.forHuman now)), s)
  else if s.requests.any (·.id = r.id) then (.error .conflict, s)
  else (.ok .raised, { s with requests := s.requests ++ [r] })

def getRequest (id : Id) : Option StepUpRequest := s.requests.find? (·.id = id)

def beginExecution (id : Id) (confirmedBy : Text) (confirmationId : Id) (now : ℤ) :
    BeginExecution × Stores :=
  match s.requests.find? (·.id = id) with
  | none => (.notFound, s)
  | some r =>
      if r.state ≠ .pending then (.notPending r.state, s)
      else if r.expiresAt ≤ now then (.expired, s)
      else
        let r' := { r with
          state := .executing
          confirmedBy := some confirmedBy
          confirmationId := some confirmationId
          confirmedAt := some now }
        (.begun r', { s with requests := modifyAt (·.id) id (fun _ => r') s.requests })

def finishRequest (id : Id) (state : RequestState) (resultStatus : Option ℕ) (now : ℤ) :
    Except IdentityError Bool × Stores :=
  if !state.isTerminal then (.error .conflict, s)
  else
    match s.requests.find? (·.id = id) with
    | none => (.ok false, s)
    | some r =>
        if r.state ≠ .executing then (.ok false, s)
        else (.ok true, { s with
          requests := modifyAt (·.id) id (fun _ => { r with
            state := state
            resultStatus := resultStatus
            executedAt := some now
            sealed := none }) s.requests })

/-- A request keeps no sealed body once it expired, or once it has been executing too long. -/
def dropSealed (now : ℤ) (r : StepUpRequest) : StepUpRequest :=
  let expired := r.state = .pending ∧ r.expiresAt ≤ now
  let leftExecuting := r.state = .executing ∧ r.confirmedAt.any (· ≤ now - stepUpRequestTtlMs)
  if expired ∨ leftExecuting then { r with sealed := none } else r

def longAgo (olderThan : ℤ) (r : StepUpRequest) : Bool :=
  (r.state.isTerminal ∧ r.executedAt.any (· < olderThan)) ∨
    (r.state = .pending ∧ r.expiresAt < olderThan) ∨
    (r.state = .executing ∧ r.confirmedAt.any (· < olderThan))

def reap (now olderThan : ℤ) : ℕ × Stores :=
  let confirmations := s.confirmations.filter (now < ·.expiresAt)
  let requests := (s.requests.map (dropSealed now)).filter fun r => ¬ longAgo olderThan r
  (s.confirmations.length + s.requests.length - confirmations.length - requests.length,
    { s with confirmations := confirmations, requests := requests })

def append (ev : SecurityEvent) : Stores := { s with events := s.events ++ [ev] }

/-- A command that only reads. -/
def reading {α : Type} (a : α) : Except IdentityError α × Stores := (.ok a, s)

/-- A command that always goes through. -/
def done {α : Type} (r : α × Stores) : Except IdentityError α × Stores := (.ok r.1, r.2)

/-- A command refused leaves the stores alone. -/
def orKeep (r : Except IdentityError Stores) : Except IdentityError Unit × Stores :=
  match r with
  | .ok s' => (.ok (), s')
  | .error e => (.error e, s)

/-- One command on the stores. -/
def exec : (x : Store) → Except IdentityError x.Ans × Stores
  | .listPasskeys principal => s.reading (s.listPasskeys principal)
  | .getByCredential credentialId => s.reading (s.getByCredential credentialId)
  | .userHandle principal fresh => done (s.userHandle principal fresh)
  | .insertPasskey p => s.orKeep (s.insertPasskey p)
  | .recordUse id read new backup now => done (s.recordUse id read new backup now)
  | .markClone id now => done (s.markClone id now)
  | .removePasskey principal id => done (s.removePasskey principal id)
  | .removeAll principal => done (s.removeAll principal)
  | .putChallenge c => s.orKeep (s.putChallenge c)
  | .consumeChallenge id session now => done (s.consumeChallenge id session now)
  | .reapChallenges now => done (s.reapChallenges now)
  | .putConfirmation c => s.orKeep (s.putConfirmation c)
  | .liveWindow session principal now => s.reading (s.liveWindow session principal now)
  | .consumeAction session principal digest now =>
      done (s.consumeAction session principal digest now)
  | .deleteWindowsFor principal => done (s.deleteWindowsFor principal)
  | .deleteForPasskey passkeyId => done (s.deleteForPasskey passkeyId)
  | .raiseRequest r caps now => s.raiseRequest r caps now
  | .getRequest id => s.reading (s.getRequest id)
  | .beginExecution id by_ confirmation now => done (s.beginExecution id by_ confirmation now)
  | .finishRequest id state status now => s.finishRequest id state status now
  | .reap now olderThan => done (s.reap now olderThan)
  | .append ev => (.ok (), s.append ev)

end Stores

/-- How the store's answer can be lost: before the command took effect, or after. -/
inductive Fault where
  | before | after
  deriving DecidableEq, Repr

def respondStore (x : Store) (fault : Option Fault) (s : Stores) :
    Except IdentityError x.Ans × Stores :=
  match fault with
  | none => s.exec x
  | some .before => (.error .unreachable, s)
  | some .after => (.error .unreachable, (s.exec x).2)

end Scarab.StepUp
