import Scarab.StepUpHandlers

/-!
# What the step-up calls justify

Every call of the server, by what it has done when it stores a challenge, a confirmation, a request
or a passkey and when it lets an operation through.
-/
namespace Scarab.StepUp

open Depot (Bytes)
open Interleave
open Prog (Since)

/-- A command by which a handler of the guard takes effect. -/
def Effect : Cmd → Prop
  | .ask (.perform ..) | .store (.removePasskey ..) | .store (.removeAll _) => True
  | .store (.putChallenge ch) => ch.purpose = .register
  | _ => False

def Draws (x : Exchange Cmd Cmd.Resp) (i : Id) : Prop := x = ⟨.drawId, i⟩

def Names (x : Exchange Cmd Cmd.Resp) (i : Id) : Prop := x.1.newId = some i

/-- A row is stored under an id its call drew and has stored nothing under. -/
def Fresh (h : List (Exchange Cmd Cmd.Resp)) (c : Cmd) : Prop :=
  ∀ i, c.newId = some i → Owes Draws Names h i

/-- Whether a caller is the human of a request, as `isForHuman` finds. -/
def ForHuman (caller : Caller) (r : StepUpRequest) (h : List (Exchange Cmd Cmd.Resp)) : Prop :=
  caller.subject = r.forHuman ∨
    ∃ aliases, ⟨.ask (.aliasesOf caller.subject), aliases⟩ ∈ h ∧ r.forHuman ∈ aliases

/-- The caller of a replay: the live token of its human, or the valid session within the role it
was raised with. -/
def RunsAs (host : Host) (human : Text) (r : StepUpRequest) (session : Option Text)
    (caller : Caller) (h : List (Exchange Cmd Cmd.Resp)) : Prop :=
  match r.requester with
  | .apiToken id => ∃ token roles now, ⟨.ask .clock, now⟩ ∈ h ∧
      ⟨.ask (.tokenById id), some token⟩ ∈ h ∧ token.isLive now ∧ token.ownerSubject = human ∧
      ⟨.ask (.ownerRoles human), roles⟩ ∈ h ∧ caller = ⟨human, roles, some token, some .bearer, none⟩
  | .bearerSession _ => ∃ sid row roles now, session = some sid ∧ ⟨.ask .clock, now⟩ ∈ h ∧
      ⟨.ask (.sessionById sid), some row⟩ ∈ h ∧ row.isValid now ∧ row.subject = human ∧
      ⟨.ask (.ownerRoles human), roles⟩ ∈ h ∧
      caller = ⟨human, roles.filter fun role => r.sessionRoleCap.any fun cap => role.rank ≤ cap.rank,
        none, some .bearer, some ⟨sid, host.sessionHash row.id, none⟩⟩

def requesterOn (r : StepUpRequest) (session : Option Text) : Option ReplayRequester :=
  match r.requester with
  | .apiToken id => some (.apiToken id)
  | .bearerSession _ => session.map .bearerSession

/-- A request its human signed for and that has begun executing. -/
structure Begun (host : Host) (caller : Caller) (id challengeId : Id) (credential : Bytes)
    (r : StepUpRequest) (confirmation : Id) (h : List (Exchange Cmd Cmd.Resp)) : Prop where
  signed : ∃ facts now row sent passkey shown, caller.browserSession = some facts ∧
    ⟨.store (.getRequest id), .ok (some shown)⟩ ∈ h ∧ ForHuman caller shown h ∧
    ⟨.ask .clock, now⟩ ∈ h ∧ Taken host challengeId caller facts [.request] now row sent h ∧ row.requestId = some id ∧
    row.actionDigest = some shown.actionDigest ∧
    Signed host caller.subject sent credential now passkey h
  begun : ∃ now, ⟨.ask .clock, now⟩ ∈ h ∧
    ⟨.store (.beginExecution id caller.subject confirmation now), .ok (.begun r)⟩ ∈ h
  logged : ∃ ev : SecurityEvent, ⟨.store (.append ev), .ok ()⟩ ∈ h ∧ ev.kind = .stepUpConfirmed ∧
    ev.confirmationId = some confirmation ∧ ev.requestId = some r.id

/-- What a replay rests on when its operation takes effect. -/
def Replays (host : Host) (caller : Caller) (id challengeId : Id) (credential : Bytes)
    (h : List (Exchange Cmd Cmd.Resp)) (c : Cmd) : Prop :=
  ∃ r confirmation sealed body session requester runner routed,
    Begun host caller id challengeId credential r confirmation h ∧ r.sealed = some sealed ∧
    host.openRequest sealed r.id = some (body, session) ∧ requesterOn r session = some requester ∧
    RunsAs host caller.subject r session runner h ∧
    host.route ⟨r.method, r.path, r.query, body⟩ = some routed ∧
    Carries runner ⟨r.method, r.path, r.query, body⟩ routed c ∧
    Permitted (some (authorityOf r confirmation requester caller.subject)) runner
      ⟨r.method, r.path, r.query, body⟩ routed h

/-- Why an operation takes effect. -/
def EffectDuty (host : Host) (h : List (Exchange Cmd Cmd.Resp)) (c : Cmd) : Call → Prop
  | .governed caller raw => (∀ x ∈ h, ¬ Effect x.1) ∧ ∃ routed, host.route raw = some routed ∧
      Carries caller raw routed c ∧ Permitted none caller raw routed h
  | .confirmRequest caller id challengeId credential => (∀ x ∈ h, ¬ Effect x.1) ∧
      Replays host caller id challengeId credential h c
  | .registration .. | .resetPasskeys .. => c.newId = none
  | _ => False

/-- A challenge of an always-ask operation, minted by the guard to show what its session asked. -/
def ShownBy (host : Host) (l : Call) (h : List (Exchange Cmd Cmd.Resp)) (ch : WebauthnChallenge) :
    Prop :=
  ∃ caller raw routed org summary facts, l = .governed caller raw ∧ host.route raw = some routed ∧
    Judged caller raw routed h summary ∧ routed.op.mode = .alwaysAsk ∧
    caller.browserSession = some facts ∧
    ch = guardChallenge ⟨caller, raw, routed, org⟩ summary facts ch.nonce ch.id ch.createdAt

/-- A challenge of a request, minted for its human to show what was raised. -/
def RequestShownBy (l : Call) (h : List (Exchange Cmd Cmd.Resp)) (ch : WebauthnChallenge) : Prop :=
  ∃ caller id facts r, l = .requestOptions caller id ∧ caller.browserSession = some facts ∧
    ⟨.store (.getRequest id), .ok (some r)⟩ ∈ h ∧ ForHuman caller r h ∧
    ch.principal = caller.subject ∧ ch.sessionHash = facts.idHash ∧
    ch.actionDigest = some r.actionDigest ∧ ch.requestId = some r.id ∧
    ch.summary = some ⟨r.op, none, r.summary.summary, some r.id⟩

def ChallengeDuty (host : Host) (l : Call) (h : List (Exchange Cmd Cmd.Resp))
    (ch : WebauthnChallenge) : Prop :=
  ch.consumedAt = none ∧ (ch.purpose = .action → ShownBy host l h ch) ∧
    (ch.purpose = .request → RequestShownBy l h ch)

/-- A window or action confirmation made by a passkey's answer to a challenge of the session, and
logged. -/
def SignedBy (host : Host) (l : Call) (h : List (Exchange Cmd Cmd.Resp)) (challengeId : Id)
    (row : WebauthnChallenge) (c : StepUpConfirmation) : Prop :=
  ∃ caller credential facts now sent passkey,
    l = .stepUpConfirm caller challengeId credential ∧ caller.browserSession = some facts ∧
    ⟨.ask .clock, now⟩ ∈ h ∧ Taken host challengeId caller facts [.window, .action] now row sent h ∧
    Signed host caller.subject sent credential now passkey h ∧
    c = ⟨c.id, caller.subject, facts.idHash, passkey.id, kindOf row.purpose, row.actionDigest, none,
      now, now + stepUpWindowMs, none⟩ ∧
    ∃ ev : SecurityEvent, ⟨.store (.append ev), .ok ()⟩ ∈ h ∧ ev.kind = .stepUpConfirmed ∧
      ev.confirmationId = some c.id ∧ ev.passkeyId = some passkey.id

def ConfirmDuty (host : Host) (l : Call) (h : List (Exchange Cmd Cmd.Resp))
    (c : StepUpConfirmation) : Prop :=
  c.kind ≠ .request → ∃ challengeId row, SignedBy host l h challengeId row c

/-- A request raised for a machine caller's operation, within the caps. -/
def RaisedBy (host : Host) (l : Call) (h : List (Exchange Cmd Cmd.Resp)) (r : StepUpRequest)
    (caps : StepUpRequestPendingCaps) (now : ℤ) : Prop :=
  ∃ caller raw routed org summary requester sealed, l = .governed caller raw ∧
    host.route raw = some routed ∧ Judged caller raw routed h summary ∧
    caller.browserSession = none ∧ requesterOf caller = some requester ∧
    r = raisedRow ⟨caller, raw, routed, org⟩ summary requester r.id sealed now ∧
    caps = .default ∧ ⟨.ask .clock, now⟩ ∈ h ∧ raw.body.length ≤ routed.op.maxRequestBody ∧
    host.sealRequest raw.body (sealedSession caller requester) r.id = some sealed

/-- A passkey enrolled under a challenge of its principal's session, the only one of its call. -/
def EnrolledBy (host : Host) (l : Call) (h : List (Exchange Cmd Cmd.Resp)) (challengeId : Id)
    (row : WebauthnChallenge) (p : Passkey) : Prop :=
  ∃ caller credential facts now sent cred,
    l = .registration caller challengeId credential ∧ caller.browserSession = some facts ∧
    Taken host challengeId caller facts [.register] now row sent h ∧
    host.verifyRegistration sent credential = .ok cred ∧
    p = enrolledPasskey caller facts row cred p.id now

/-- No passkey has been enrolled. -/
abbrev NoEnroll (h : List (Exchange Cmd Cmd.Resp)) : Prop :=
  ∀ x ∈ h, ∀ p, x.1 ≠ .store (.insertPasskey p)

def EnrollDuty (host : Host) (l : Call) (h : List (Exchange Cmd Cmd.Resp)) (p : Passkey) : Prop :=
  NoEnroll h ∧ ∃ challengeId row, EnrolledBy host l h challengeId row p

/-- What each command is justified by. -/
structure Duty (host : Host) (l : Call) (h : List (Exchange Cmd Cmd.Resp)) (c : Cmd) : Prop where
  fresh : Fresh h c
  effect : Effect c → EffectDuty host h c l
  challenge : ∀ ch, c = .store (.putChallenge ch) → ChallengeDuty host l h ch
  confirm : ∀ conf, c = .store (.putConfirmation conf) → ConfirmDuty host l h conf
  raise : ∀ r caps now, c = .store (.raiseRequest r caps now) → RaisedBy host l h r caps now
  enroll : ∀ p, c = .store (.insertPasskey p) → EnrollDuty host l h p

section duties

variable {host : Host} {l : Call} {α : Type} {h h' : List (Exchange Cmd Cmd.Resp)}

/-- The kinds no operation takes effect by. -/
def calmKinds : List Kind :=
  .insertPasskey :: .putConfirmation :: .raiseRequest :: .beginExecution :: .finishRequest :: easyKinds

theorem not_effect {c : Cmd} (hc : Within calmKinds c) : ¬ Effect c := by
  cases c with
  | drawId => exact id
  | ask q =>
    cases q with
    | perform caller raw => simp [Within, Cmd.kind, calmKinds, easyKinds] at hc
    | _ => exact id
  | store x =>
    rw [within_store] at hc
    cases x with
    | removePasskey | removeAll | putChallenge => simp [Store.kind, calmKinds, easyKinds] at hc
    | _ => exact id

/-- The kinds that neither store a row nor take an effect. -/
def plainKinds : List Kind := .beginExecution :: .finishRequest :: easyKinds

theorem newId_plain {c : Cmd} (hc : Within plainKinds c) : c.newId = none := by
  cases c with
  | drawId | ask => rfl
  | store x =>
    rw [within_store] at hc
    cases x with
    | insertPasskey | putChallenge | putConfirmation | raiseRequest =>
      simp [Store.kind, plainKinds, easyKinds] at hc
    | _ => rfl

theorem Duty.plain {c : Cmd} (hc : Within plainKinds c) : Duty host l h c := by
  have heffect : ¬ Effect c := not_effect (hc.mono (by simp [plainKinds, calmKinds, easyKinds]))
  refine ⟨fun i hi => ?_, fun he => absurd he heffect, ?_, ?_, ?_, ?_⟩
  · rw [newId_plain hc] at hi
    cases hi
  · rintro ch rfl
    simp [Within, Cmd.kind, Store.kind, plainKinds, easyKinds] at hc
  · rintro conf rfl
    simp [Within, Cmd.kind, Store.kind, plainKinds, easyKinds] at hc
  · rintro r caps now rfl
    simp [Within, Cmd.kind, Store.kind, plainKinds, easyKinds] at hc
  · rintro p rfl
    simp [Within, Cmd.kind, Store.kind, plainKinds, easyKinds] at hc

theorem duty_easy : Easy (Duty host l) :=
  fun _ _ hc => Duty.plain (hc.mono (by simp [plainKinds]))

theorem JustDrawn.fresh {c : Cmd} (hd : JustDrawn h c) : Fresh h c := by
  intro i hi
  obtain ⟨older, rfl⟩ := hd i hi
  exact owes_cons.mpr ⟨by simp [Names, Cmd.newId], .inl rfl⟩

/-- An id drawn stays unused through commands that store no row. -/
theorem since_unused {K : List Kind} {i : Id} (hs : Since (Within K) h h') (hK : K ⊆ plainKinds)
    (ho : Owes Draws Names h i) : Owes Draws Names h' i := by
  obtain ⟨newer, rfl, hnew⟩ := hs
  refine ho.append fun x hx hname => ?_
  rw [Names, newId_plain ((hnew x hx).mono hK)] at hname
  cases hname

theorem Duty.carried {caller : Caller} {raw : RawRequest} {routed : Routed} {c : Cmd}
    (hc : Carries caller raw routed c) (hdrawn : JustDrawn h c) (hd : EffectDuty host h c l) :
    Duty host l h c := by
  refine ⟨hdrawn.fresh, fun _ => hd, ?_, ?_, ?_, ?_⟩
  · rintro ch rfl
    obtain ⟨facts, label, nonce, id, now, -, -, rfl⟩ := hc
    exact ⟨rfl, by simp [registerChallenge], by simp [registerChallenge]⟩
  · rintro conf rfl
    exact hc.elim
  · rintro r caps now rfl
    exact hc.elim
  · rintro p rfl
    exact hc.elim

theorem Duty.challenged {ch : WebauthnChallenge} (hdrawn : JustDrawn h (.store (.putChallenge ch)))
    (hpurpose : ch.purpose ≠ .register) (hd : ChallengeDuty host l h ch) :
    Duty host l h (.store (.putChallenge ch)) := by
  refine ⟨hdrawn.fresh, fun he => absurd he hpurpose, ?_, by simp, by simp, by simp⟩
  intro ch' heq
  simp only [Cmd.store.injEq, Store.putChallenge.injEq] at heq
  exact heq ▸ hd

theorem Duty.raised {r : StepUpRequest} {caps : StepUpRequestPendingCaps} {now : ℤ}
    (hdrawn : JustDrawn h (.store (.raiseRequest r caps now)))
    (hd : RaisedBy host l h r caps now) : Duty host l h (.store (.raiseRequest r caps now)) := by
  refine ⟨hdrawn.fresh, fun he => he.elim, by simp, by simp, ?_, by simp⟩
  intro r' caps' now' heq
  simp only [Cmd.store.injEq, Store.raiseRequest.injEq] at heq
  obtain ⟨rfl, rfl, rfl⟩ := heq
  exact hd

theorem Duty.confirmed {conf : StepUpConfirmation} (hfresh : Owes Draws Names h conf.id)
    (hd : ConfirmDuty host l h conf) : Duty host l h (.store (.putConfirmation conf)) := by
  refine ⟨fun i hi => ?_, fun he => he.elim, by simp, ?_, by simp, by simp⟩
  · obtain rfl := Option.some.inj hi
    exact hfresh
  · intro conf' heq
    simp only [Cmd.store.injEq, Store.putConfirmation.injEq] at heq
    exact heq ▸ hd

theorem Duty.enrolled {p : Passkey} (hdrawn : JustDrawn h (.store (.insertPasskey p)))
    (hd : EnrollDuty host l h p) : Duty host l h (.store (.insertPasskey p)) := by
  refine ⟨hdrawn.fresh, fun he => he.elim, by simp, by simp, by simp, ?_⟩
  intro p' heq
  simp only [Cmd.store.injEq, Store.insertPasskey.injEq] at heq
  exact heq ▸ hd

theorem justDrawn {i : Id} {c : Cmd} (hc : ∀ j, c.newId = some j → j = i) :
    JustDrawn (⟨.drawId, i⟩ :: h) c :=
  fun j hj => ⟨h, by rw [hc j hj]⟩

/-- Nothing has taken effect. -/
abbrev NoEffect (h : List (Exchange Cmd Cmd.Resp)) : Prop := ∀ x ∈ h, ¬ Effect x.1

theorem NoEffect.since {K : List Kind} (hn : NoEffect h) (hs : Since (Within K) h h')
    (hK : K ⊆ calmKinds) : NoEffect h' := by
  intro x hx
  rcases hs.mem hx with hx | hx
  · exact hn x hx
  · exact not_effect (hx.mono hK)

theorem NoEnroll.since {K : List Kind} (hn : NoEnroll h) (hs : Since (Within K) h h')
    (hK : .insertPasskey ∉ K) : NoEnroll h' := by
  intro x hx p heq
  rcases hs.mem hx with hx | hx
  · exact hn x hx p heq
  · rw [heq, within_store] at hx
    exact hK hx

/-- The guard on an authenticated request. -/
theorem governed_duty {caller : Caller} {raw : RawRequest} :
    (guard host none caller raw).wp (Duty host (.governed caller raw)) [] fun _ _ => True := by
  refine guard_wp duty_easy (fun h' routed org summary _ hroute hjudged => ⟨duty_easy, ?_, ?_⟩)
    fun h' routed c hroute hs hc hdrawn hperm => ?_
  · intro h'' facts nonce id now hsub _ hfacts
    have hjudged' := hjudged.mono (hsub.trans ((List.suffix_cons _ _).trans (List.suffix_cons
      ⟨.drawId, id⟩ (⟨.ask .randomBytes, nonce⟩ :: h''))))
    refine Duty.challenged (justDrawn fun j hj => (Option.some.inj hj).symm) ?_ ⟨rfl, ?_, ?_⟩
    · simp only [guardChallenge]
      split_ifs <;> simp
    · intro haction
      refine ⟨caller, raw, routed, org, summary, facts, rfl, hroute, hjudged', ?_, hfacts, rfl⟩
      by_contra hmode
      simp [guardChallenge, hmode] at haction
    · intro hrequest
      simp only [guardChallenge] at hrequest
      split_ifs at hrequest
  · intro h'' requester now id sealed hsub _ hnone hrequester hclock hbody hsealed
    refine Duty.raised (justDrawn fun j hj => (Option.some.inj hj).symm) ?_
    exact ⟨caller, raw, routed, org, summary, requester, sealed, rfl, hroute,
      hjudged.mono (hsub.trans (List.suffix_cons _ _)), hnone, hrequester, rfl, rfl,
      List.mem_cons_of_mem _ hclock, hbody, hsealed⟩
  · refine Duty.carried hc hdrawn ⟨?_, routed, hroute, hc, hperm⟩
    exact NoEffect.since (List.forall_mem_nil _) hs (by simp [quietKinds, calmKinds, easyKinds])

theorem browserSession_wp {J : List (Exchange Cmd Cmd.Resp) → Cmd → Prop} {caller : Caller}
    (hJ : Easy J) : (browserSession caller).wp J h fun h' facts =>
      caller.browserSession = some facts ∧ Since (Within [.append]) h h' := by
  refine Prog.Issues.track browserSession_within ?_
  rw [browserSession]
  cases caller.browserSession with
  | some facts => rfl
  | none =>
    exact wp_after (K := []) clock_within hJ (by simp) fun _ now _ =>
      wp_after recordCeremonyRefusal_within hJ (by simp [easyKinds]) fun _ _ _ => trivial

theorem registration_duty {caller : Caller} {challengeId : Id} {credential : Bytes} :
    (passkeyRegistration host caller challengeId credential).wp
      (Duty host (.registration caller challengeId credential)) [] fun _ _ => True := by
  refine Prog.wp_bind (browserSession_wp duty_easy) fun h₁ facts _ hQ => ?_
  obtain ⟨hfacts, hs₁⟩ := hQ
  refine wp_after (K := []) clock_within duty_easy (by simp) fun h₂ now hs₂ => ?_
  refine Prog.wp_bind (consume_wp duty_easy) fun h₃ answer _ hQ => ?_
  obtain ⟨row, sent⟩ := answer
  obtain ⟨htaken, hs₃⟩ := hQ
  dsimp only
  split
  · trivial
  next cred hverify =>
  refine wp_after (K := [.readPasskeys]) (store_within (by simp [Store.kind])) duty_easy
    (by simp [easyKinds]) fun h₄ held hs₄ => ?_
  split_ifs
  · trivial
  refine wp_after usablePasskeys_within duty_easy (by simp [easyKinds]) fun h₅ _ hs₅ => ?_
  refine Prog.wp_bind (draw_wp duty_easy) fun h₆ id _ heq => ?_
  subst heq
  have hinsert : Duty host (.registration caller challengeId credential) (⟨.drawId, id⟩ :: h₅)
      (.store (.insertPasskey (enrolledPasskey caller facts row cred id now))) := by
    refine Duty.enrolled (justDrawn fun j hj => (Option.some.inj hj).symm) ?_
    refine ⟨?_, challengeId, row, caller, credential, facts, now, sent, cred, rfl, hfacts, ?_,
      hverify, rfl⟩
    · have hno : NoEnroll h₅ := ((((NoEnroll.since (List.forall_mem_nil _) hs₁ (by simp)).since hs₂
        (by simp)).since hs₃ (by simp)).since hs₄ (by simp)).since hs₅ (by simp)
      exact hno.since since_draw (List.not_mem_nil)
    · exact htaken.mono ((hs₄.suffix.trans hs₅.suffix).trans (List.suffix_cons _ _))
  refine Prog.wp_bind (tryStore_wp hinsert) fun h₇ inserted _ _ => ?_
  cases inserted with
  | error e => cases e <;> trivial
  | ok done =>
    refine wp_after (K := []) event_within duty_easy (by simp) fun h₈ ev _ => ?_
    refine wp_after (K := [.append]) (tryStore_within (by simp [Store.kind])) duty_easy
      (by simp [easyKinds]) fun h₉ logged _ => ?_
    cases logged with
    | ok done => trivial
    | error e =>
      -- the undo of an enrollment that could not be recorded
      refine Prog.wp_bind (tryStore_wp ?_) fun _ _ _ _ => trivial
      exact ⟨by simp [Fresh, Cmd.newId], fun _ => rfl, by simp, by simp, by simp, by simp⟩

theorem stepUpOptions_duty {caller : Caller} :
    (stepUpOptions host caller).wp (Duty host (.stepUpOptions caller)) [] fun _ _ => True := by
  refine Prog.wp_bind (browserSession_wp duty_easy) fun h₁ facts _ _ => ?_
  refine wp_after (K := []) clock_within duty_easy (by simp) fun h₂ now _ => ?_
  refine wp_after usablePasskeys_within duty_easy (by simp [easyKinds]) fun h₃ passkeys _ => ?_
  split_ifs
  · trivial
  refine Prog.wp_bind (mintChallenge_wp duty_easy fun nonce id => ?_) fun _ _ _ _ => trivial
  refine Duty.challenged (justDrawn fun j hj => (Option.some.inj hj).symm) (by simp) ?_
  exact ⟨rfl, by simp, by simp⟩

theorem stepUpConfirm_duty {caller : Caller} {challengeId : Id} {credential : Bytes} :
    (stepUpConfirm host caller challengeId credential).wp
      (Duty host (.stepUpConfirm caller challengeId credential)) [] fun _ _ => True := by
  refine Prog.wp_bind (browserSession_wp duty_easy) fun h₁ facts _ hQ => ?_
  obtain ⟨hfacts, -⟩ := hQ
  refine Prog.wp_bind (ask_wp (duty_easy.ask (by simp))) fun h₂ now _ heq => ?_
  subst heq
  refine Prog.wp_bind (consume_wp duty_easy) fun h₃ answer hsub₃ hQ => ?_
  have hclock : ⟨.ask .clock, now⟩ ∈ h₃ := hsub₃.subset List.mem_cons_self
  obtain ⟨row, sent⟩ := answer
  obtain ⟨htaken, -⟩ := hQ
  refine Prog.wp_bind (verifyAssertion_wp duty_easy) fun h₄ passkey hsub₄ hQ => ?_
  obtain ⟨hsigned, -⟩ := hQ
  refine Prog.wp_bind (draw_wp duty_easy) fun h₅ id _ heq => ?_
  subst heq
  have hdrawn : Owes Draws Names (⟨.drawId, id⟩ :: h₄) id :=
    owes_cons.mpr ⟨by simp [Names, Cmd.newId], .inl rfl⟩
  refine Prog.wp_bind (event_wp duty_easy) fun h₆ ev _ heq => ?_
  obtain ⟨eventId, rfl, rfl⟩ := heq
  refine Prog.wp_bind (tryStore_wp (duty_easy _ _ (by simp [Store.kind, easyKinds])))
    fun h₇ logged hsub₇ heq => ?_
  subst heq
  cases logged with
  | error e => trivial
  | ok done =>
    have hsub := ((List.suffix_cons _ _).trans (List.suffix_cons _ _)).trans hsub₇
    refine Prog.wp_bind (Q := fun _ _ => True) ?_ fun _ _ _ _ => trivial
    refine Prog.wp_bind (store_wp (Duty.confirmed ?_ fun _ => ?_)) fun h₇ _ _ _ => ?_
    · refine since_unused (K := [.append]) ?_ (by simp [plainKinds, easyKinds]) hdrawn
      exact (since_draw.cons (by simp [Store.kind]))
    · exact ⟨challengeId, row, caller, credential, facts, now, sent, passkey, rfl, hfacts,
        (hsub₄.trans hsub).subset hclock, htaken.mono (hsub₄.trans hsub), hsigned.mono hsub, rfl, _,
        List.mem_cons_self, rfl, rfl, rfl⟩
    · refine wp_after (K := [.readPasskeys]) (store_within (by simp [Store.kind])) duty_easy
        (by simp [easyKinds]) fun h₈ found _ => ?_
      split_ifs
      · trivial
      · exact wp_after (K := [.deleteForPasskey]) (store_within (by simp [Store.kind])) duty_easy
          (by simp [easyKinds]) fun _ _ _ => trivial

/-- The request of an id, read by its human. -/
theorem loadAsHuman_wp {J : List (Exchange Cmd Cmd.Resp) → Cmd → Prop} {id : Id} {caller : Caller}
    (hJ : Easy J) : (loadAsHuman id caller).wp J h fun h' r =>
      (⟨.store (.getRequest id), .ok (some r)⟩ ∈ h' ∧ ForHuman caller r h') ∧
        Since (Within [.getRequest, .append]) h h' := by
  refine Prog.Issues.track loadAsHuman_within ?_
  have hrefused : ∀ h' found, (probeRefused id caller found : Eff StepUpRequest).wp J h'
      fun _ _ => False := fun h' found => by
    refine wp_after (K := []) clock_within hJ (by simp) fun _ now _ => ?_
    refine wp_after recordCeremonyRefusal_within hJ (by simp [easyKinds]) fun _ _ _ => ?_
    cases found with
    | none => trivial
    | some r =>
      exact wp_after (K := []) event_within hJ (by simp) fun _ _ _ =>
        wp_after record_within hJ (by simp [easyKinds]) fun _ _ _ => trivial
  refine Prog.wp_bind (store_wp (hJ _ _ (by simp [Store.kind, easyKinds]))) fun h₁ found _ heq => ?_
  subst heq
  cases found with
  | none => exact Prog.wp_mono (hrefused _ _) fun _ _ _ hfalse => hfalse.elim
  | some r =>
    refine Prog.wp_bind (Q := fun h₂ human => human = true → ForHuman caller r h₂) ?_
      fun h₂ human hsub hhuman => ?_
    · rw [isForHuman]
      split_ifs with heq
      · exact fun _ => .inl heq
      · refine Prog.wp_bind (ask_wp (hJ.ask (by simp))) fun h₂ aliases _ heq => ?_
        subst heq
        exact fun hmem => .inr ⟨aliases, List.mem_cons_self, of_decide_eq_true hmem⟩
    · split_ifs with hyes
      · exact ⟨hsub.subset List.mem_cons_self, hhuman hyes⟩
      · exact Prog.wp_mono (hrefused _ _) fun _ _ _ hfalse => hfalse.elim

theorem ForHuman.mono {caller : Caller} {r : StepUpRequest} (hf : ForHuman caller r h)
    (hsub : h <:+ h') : ForHuman caller r h' := by
  rcases hf with heq | ⟨aliases, hmem, hin⟩
  · exact .inl heq
  · exact .inr ⟨aliases, hsub.subset hmem, hin⟩

theorem requestOptions_duty {caller : Caller} {id : Id} :
    (requestOptions host caller id).wp (Duty host (.requestOptions caller id)) []
      fun _ _ => True := by
  refine Prog.wp_bind (browserSession_wp duty_easy) fun h₁ facts _ hQ => ?_
  obtain ⟨hfacts, -⟩ := hQ
  refine Prog.wp_bind (loadAsHuman_wp duty_easy) fun h₂ r _ hQ => ?_
  obtain ⟨⟨hread, hhuman⟩, -⟩ := hQ
  refine wp_after (K := []) clock_within duty_easy (by simp) fun h₃ now hs₃ => ?_
  refine wp_after (K := []) confirmable_within duty_easy (by simp) fun h₄ _ hs₄ => ?_
  refine wp_after usablePasskeys_within duty_easy (by simp [easyKinds]) fun h₅ passkeys hs₅ => ?_
  split_ifs
  · trivial
  refine Prog.wp_bind (mintChallenge_wp duty_easy fun nonce challengeId => ?_)
    fun _ _ _ _ => trivial
  have hsub := ((hs₃.suffix.trans hs₄.suffix).trans hs₅.suffix).trans
    ((List.suffix_cons ⟨.ask .randomBytes, nonce⟩ _).trans
      (List.suffix_cons ⟨.drawId, challengeId⟩ _))
  refine Duty.challenged (justDrawn fun j hj => (Option.some.inj hj).symm) (by simp) ?_
  refine ⟨rfl, by simp, fun _ => ?_⟩
  exact ⟨caller, id, facts, r, rfl, hfacts, hsub.subset hread, hhuman.mono hsub, rfl, rfl, rfl, rfl,
    rfl⟩

theorem unless_wp {J : List (Exchange Cmd Cmd.Resp) → Cmd → Prop} {c : Prop} [Decidable c]
    {e : ApiError} {p : Eff α} {Q : List (Exchange Cmd Cmd.Resp) → α → Prop}
    (hp : ¬c → p.wp J h Q) : (if c then .err e else p : Eff α).wp J h Q := by
  split_ifs with hc
  · trivial
  · exact hp hc

/-- A replay runs as the requester, never in a browser session. -/
theorem replayCaller_wp {J : List (Exchange Cmd Cmd.Resp) → Cmd → Prop} {r : StepUpRequest}
    {confirmation : Id} {requester : ReplayRequester} {human : Text} {session : Option Text}
    (hJ : Easy J) (hon : requesterOn r session = some requester) :
    (replayCaller host (authorityOf r confirmation requester human)).wp J h fun h' runner =>
      (RunsAs host human r session runner h' ∧ runner.browserSession = none) ∧
        Since (Within []) h h' := by
  refine Prog.Issues.track replayCaller_within ?_
  refine Prog.wp_bind (ask_wp (hJ.ask (by simp))) fun h₁ now _ heq => ?_
  subst heq
  dsimp only [authorityOf]
  cases hrequester : r.requester with
  | apiToken id =>
    obtain rfl : requester = .apiToken id := by simpa [requesterOn, hrequester] using hon.symm
    refine Prog.wp_bind (ask_wp (hJ.ask (by simp))) fun h₂ found _ heq => ?_
    subst heq
    refine orElse_wp fun token htoken => ?_
    subst htoken
    refine unless_wp fun hbad => ?_
    push Not at hbad
    obtain ⟨hlive, howner⟩ := hbad
    refine Prog.wp_bind (ask_wp (hJ.ask (by simp))) fun h₃ roles _ heq => ?_
    subst heq
    refine ⟨?_, by simp [Caller.browserSession]⟩
    simp only [RunsAs, hrequester]
    exact ⟨token, roles, now, by simp, by simp, by simpa using hlive, howner, by simp [howner],
      by simp [howner]⟩
  | bearerSession hash =>
    cases session with
    | none => simp [requesterOn, hrequester] at hon
    | some sid =>
    obtain rfl : requester = .bearerSession sid := by simpa [requesterOn, hrequester] using hon.symm
    refine Prog.wp_bind (ask_wp (hJ.ask (by simp))) fun h₂ found _ heq => ?_
    subst heq
    refine orElse_wp fun row hrow => ?_
    subst hrow
    refine unless_wp fun hbad => ?_
    push Not at hbad
    obtain ⟨hvalid, hsubject⟩ := hbad
    refine Prog.wp_bind (ask_wp (hJ.ask (by simp))) fun h₃ roles _ heq => ?_
    subst heq
    refine ⟨?_, by simp [Caller.browserSession]⟩
    simp only [RunsAs, hrequester]
    exact ⟨sid, row, roles, now, rfl, by simp, by simp, by simpa using hvalid, hsubject, by simp,
      by simp [hsubject]⟩

theorem opened_eq {r : StepUpRequest} {body : Bytes} {requester : ReplayRequester}
    (ho : opened host r = some (body, requester)) : ∃ sealed session, r.sealed = some sealed ∧
      host.openRequest sealed r.id = some (body, session) ∧
      requesterOn r session = some requester := by
  unfold opened at ho
  simp only [Option.bind_eq_bind, Option.bind_eq_some_iff] at ho
  obtain ⟨sealed, hsealed, ⟨body', session⟩, hopen, hrest⟩ := ho
  refine ⟨sealed, session, hsealed, ?_⟩
  cases hrequester : r.requester with
  | apiToken id =>
    simp only [hrequester, Option.pure_def, Option.some.injEq, Prod.mk.injEq] at hrest
    obtain ⟨rfl, rfl⟩ := hrest
    exact ⟨hopen, by simp [requesterOn, hrequester]⟩
  | bearerSession hash =>
    simp only [hrequester, Option.pure_def, Option.bind_eq_some_iff, Option.some.injEq,
      Prod.mk.injEq] at hrest
    obtain ⟨sid, rfl, rfl, rfl⟩ := hrest
    exact ⟨hopen, by simp [requesterOn, hrequester]⟩

theorem Begun.mono {caller : Caller} {id challengeId : Id} {credential : Bytes}
    {r : StepUpRequest} {confirmation : Id}
    (hb : Begun host caller id challengeId credential r confirmation h) (hsub : h <:+ h') :
    Begun host caller id challengeId credential r confirmation h' := by
  obtain ⟨⟨facts, now, row, sent, passkey, shown, hfacts, hread, hhuman, hclock, htaken, hid,
    hdigest, hsigned⟩, ⟨then_, hthen, hbegun⟩, ev, hev, hrest⟩ := hb
  exact ⟨⟨facts, now, row, sent, passkey, shown, hfacts, hsub.subset hread, hhuman.mono hsub,
    hsub.subset hclock, htaken.mono hsub, hid, hdigest, hsigned.mono hsub⟩,
    ⟨then_, hsub.subset hthen, hsub.subset hbegun⟩, ev, hsub.subset hev, hrest⟩

theorem RunsAs.mono {human : Text} {r : StepUpRequest} {session : Option Text} {runner : Caller}
    (hr : RunsAs host human r session runner h) (hsub : h <:+ h') :
    RunsAs host human r session runner h' := by
  unfold RunsAs at hr ⊢
  split at hr
  · obtain ⟨token, roles, now, hclock, hfound, hlive, howner, hroles, heq⟩ := hr
    exact ⟨token, roles, now, hsub.subset hclock, hsub.subset hfound, hlive, howner,
      hsub.subset hroles, heq⟩
  · obtain ⟨sid, row, roles, now, hsession, hclock, hfound, hvalid, hsubject, hroles, heq⟩ := hr
    exact ⟨sid, row, roles, now, hsession, hsub.subset hclock, hsub.subset hfound, hvalid, hsubject,
      hsub.subset hroles, heq⟩

/-- The replay of a request that was signed for and has begun. -/
theorem replay_duty {caller : Caller} {id challengeId confirmation : Id} {credential : Bytes}
    {r : StepUpRequest} {body : Bytes} {requester : ReplayRequester} (hno : NoEffect h)
    (hb : Begun host caller id challengeId credential r confirmation h)
    (ho : opened host r = some (body, requester)) :
    (replay host (authorityOf r confirmation requester caller.subject) r body).wp
      (Duty host (.confirmRequest caller id challengeId credential)) h fun _ _ => True := by
  obtain ⟨sealed, session, hsealed, hopen, hon⟩ := opened_eq ho
  refine Prog.wp_attempt (Q := fun _ _ => True) ?_ (by simp) (by simp)
  refine Prog.wp_bind (replayCaller_wp duty_easy hon) fun h₁ runner _ hQ => ?_
  obtain ⟨⟨hruns, -⟩, hs₁⟩ := hQ
  refine guard_wp duty_easy (fun h' routed org summary _ _ _ => ⟨duty_easy, by simp, by simp⟩)
    fun h' routed c hroute hs hc hdrawn hperm => Duty.carried hc hdrawn ⟨?_, ?_⟩
  · exact (hno.since hs₁ (by simp)).since hs (by simp [quietKinds, calmKinds, easyKinds])
  · exact ⟨r, confirmation, sealed, body, session, requester, runner, routed,
      hb.mono (hs₁.suffix.trans hs.suffix), hsealed, hopen, hon, hruns.mono hs.suffix, hroute,
      hc, hperm⟩

theorem settle_duty {l : Call} {caller : Caller} {r : StepUpRequest} {confirmation : Id}
    {outcome : Option (Except ApiError Response)} :
    (settle caller r confirmation outcome).wp (Duty host l) h fun _ _ => True := by
  refine Prog.wp_mono (Prog.Issues.wp settle_within fun h' c _ hc => ?_) fun _ _ _ _ => trivial
  exact Duty.plain (hc.mono (by simp [plainKinds, easyKinds]))

theorem requestEvent_wp {J : List (Exchange Cmd Cmd.Resp) → Cmd → Prop} {kind : EventKind}
    {subject : Text} {caller : Caller} {r : StepUpRequest} {confirmation : Id}
    {passkeyId : Option Id} {session : Option Text} {now : ℤ} (hJ : Easy J) :
    (requestEvent kind subject caller r confirmation passkeyId session now).wp J h fun h' ev =>
      (ev.kind = kind ∧ ev.confirmationId = some confirmation ∧ ev.requestId = some r.id) ∧
        Since (Within []) h h' := by
  refine Prog.Issues.track requestEvent_within ?_
  refine Prog.wp_bind (event_wp hJ) fun h₁ ev _ heq => ?_
  obtain ⟨id, -, rfl⟩ := heq
  exact ⟨rfl, rfl, rfl⟩

/-- What is left of a request that has begun: the replay comes after the confirmation and its
event. -/
theorem executeBegun_duty {caller : Caller} {facts : SessionFacts} {id challengeId : Id}
    {credential : Bytes} {r : StepUpRequest} {passkey : Passkey} {confirmation : Id} {now : ℤ}
    (hno : NoEffect h) (hfresh : Owes Draws Names h confirmation)
    (hbegun : ∀ h', h <:+ h' → (∃ ev : SecurityEvent, ⟨.store (.append ev), .ok ()⟩ ∈ h' ∧
      ev.kind = .stepUpConfirmed ∧ ev.confirmationId = some confirmation ∧
      ev.requestId = some r.id) → Begun host caller id challengeId credential r confirmation h') :
    (executeBegun host caller facts r passkey confirmation now).wp
      (Duty host (.confirmRequest caller id challengeId credential)) h fun _ _ => True := by
  refine Prog.wp_bind (Prog.Issues.track (K := Within [.putConfirmation])
    (store_within (by simp [Store.kind])) (store_wp (Duty.confirmed hfresh fun hk => absurd rfl hk)))
    fun h₁ _ _ hQ => ?_
  have hno₁ := hno.since hQ.2 (by simp [calmKinds])
  refine Prog.wp_bind (requestEvent_wp duty_easy) fun h₂ ev _ hev => ?_
  have hno₂ := hno₁.since hev.2 (by simp)
  refine Prog.wp_bind (Prog.Issues.track (K := Within [.append])
    (tryStore_within (by simp [Store.kind]))
    (tryStore_wp (duty_easy _ _ (by simp [Store.kind, easyKinds])))) fun h₃ logged _ hlogged => ?_
  have hno₃ := hno₂.since hlogged.2 (by simp [calmKinds, easyKinds])
  refine wp_after (K := []) requestEvent_within duty_easy (by simp) fun h₄ ev' hs₄ => ?_
  refine wp_after record_within duty_easy (by simp [easyKinds]) fun h₅ _ hs₅ => ?_
  split
  · next done body requester hopened =>
    have hin : ⟨.store (.append ev), .ok done⟩ ∈ h₅ := by
      rw [hlogged.1] at hs₄
      exact (hs₄.suffix.trans hs₅.suffix).subset List.mem_cons_self
    have hsub := (((hQ.2.suffix.trans hev.2.suffix).trans hlogged.2.suffix).trans
      hs₄.suffix).trans hs₅.suffix
    have hno₅ := (hno₃.since hs₄ (by simp)).since hs₅ (by simp [calmKinds, easyKinds])
    refine Prog.wp_bind (replay_duty hno₅ (hbegun h₅ hsub ?_) hopened) fun _ outcome _ _ =>
      settle_duty
    exact ⟨ev, hin, hev.1⟩
  · exact settle_duty

theorem confirmRequest_duty {caller : Caller} {id challengeId : Id} {credential : Bytes} :
    (confirmRequest host caller id challengeId credential).wp
      (Duty host (.confirmRequest caller id challengeId credential)) [] fun _ _ => True := by
  refine Prog.wp_bind (browserSession_wp duty_easy) fun h₁ facts _ hQ => ?_
  obtain ⟨hfacts, hs₁⟩ := hQ
  have hno₁ : NoEffect h₁ :=
    NoEffect.since (List.forall_mem_nil _) hs₁ (by simp [calmKinds, easyKinds])
  refine Prog.wp_bind (loadAsHuman_wp duty_easy) fun h₂ shown _ hQ => ?_
  obtain ⟨⟨hread, hhuman⟩, hs₂⟩ := hQ
  have hno₂ := hno₁.since hs₂ (by simp [calmKinds, easyKinds])
  refine Prog.wp_bind (ask_wp (duty_easy.ask (by simp))) fun h₃ now _ heq => ?_
  subst heq
  have hs₃ : Since (Within []) h₂ (⟨.ask .clock, now⟩ :: h₂) := since_ask (by simp)
  refine wp_after (K := []) confirmable_within duty_easy (by simp) fun h₄ _ hs₄ => ?_
  have hno₄ := (hno₂.since hs₃ (by simp)).since hs₄ (by simp)
  refine Prog.wp_bind (consume_wp duty_easy) fun h₅ answer _ hQ => ?_
  obtain ⟨row, sent⟩ := answer
  obtain ⟨htaken, hs₅⟩ := hQ
  have hno₅ := hno₄.since hs₅ (by simp [calmKinds, easyKinds])
  refine unless_wp fun hmatch => ?_
  push Not at hmatch
  obtain ⟨hid, hdigest⟩ := hmatch
  refine Prog.wp_bind (verifyAssertion_wp duty_easy) fun h₆ passkey _ hQ => ?_
  obtain ⟨hsigned, hs₆⟩ := hQ
  have hno₆ := hno₅.since hs₆ (by simp [assertKinds, calmKinds, easyKinds])
  refine Prog.wp_bind (draw_wp duty_easy) fun h₇ confirmation _ heq => ?_
  subst heq
  have hbegin : Within plainKinds
      (.store (.beginExecution id caller.subject confirmation now)) := by
    simp [Store.kind, plainKinds]
  refine Prog.wp_bind (store_wp (Duty.plain hbegin)) fun h₈ begun _ heq => ?_
  subst heq
  cases begun with
  | notFound => trivial
  | expired => trivial
  | notPending state => trivial
  | begun r =>
    have hs₈ : Since (Within [.beginExecution]) h₆
        (⟨.store (.beginExecution id caller.subject confirmation now), .ok (.begun r)⟩ ::
          ⟨.drawId, confirmation⟩ :: h₆) := since_draw.cons (by simp [Store.kind])
    have hclock' : ⟨.ask .clock, now⟩ :: h₂ <:+ h₆ :=
      (hs₄.suffix.trans hs₅.suffix).trans hs₆.suffix
    have hread' : h₂ <:+ h₆ := hs₃.suffix.trans hclock'
    refine executeBegun_duty (hno₆.since hs₈ (by simp [calmKinds])) ?_ fun h' hsub hlogged => ?_
    · refine owes_cons.mpr ⟨by simp [Names, Cmd.newId], .inr ?_⟩
      exact owes_cons.mpr ⟨by simp [Names, Cmd.newId], .inl rfl⟩
    · have hsub₆ := hs₈.suffix.trans hsub
      have hclock : ⟨.ask .clock, now⟩ ∈ h' := (hclock'.trans hsub₆).subset List.mem_cons_self
      exact ⟨⟨facts, now, row, sent, passkey, shown, hfacts, (hread'.trans hsub₆).subset hread,
        hhuman.mono (hread'.trans hsub₆), hclock, htaken.mono (hs₆.suffix.trans hsub₆), hid, hdigest,
        hsigned.mono hsub₆⟩, ⟨now, hclock, hsub.subset List.mem_cons_self⟩, hlogged⟩

/-- Every command of every call has its justification. -/
theorem handle_duty (l : Call) : (handle host l).wp (Duty host l) [] fun _ _ => True := by
  cases l with
  | governed caller raw => exact Prog.wp_bind governed_duty fun _ _ _ _ => trivial
  | registration caller challengeId credential => exact registration_duty
  | stepUpOptions caller => exact stepUpOptions_duty
  | stepUpConfirm caller challengeId credential => exact stepUpConfirm_duty
  | requestOptions caller id => exact requestOptions_duty
  | confirmRequest caller id challengeId credential => exact confirmRequest_duty
  | resetPasskeys principal now =>
    refine wp_after (K := []) (ask_within (by simp)) duty_easy (by simp) fun h₁ target _ => ?_
    refine orElse_wp fun subject _ => ?_
    refine wp_after (K := [.readPasskeys]) (store_within (by simp [Store.kind])) duty_easy
      (by simp [easyKinds]) fun h₂ held _ => ?_
    refine wp_after (K := []) event_within duty_easy (by simp) fun h₃ ev _ => ?_
    refine wp_after (K := [.append]) (store_within (by simp [Store.kind])) duty_easy
      (by simp [easyKinds]) fun h₄ _ _ => ?_
    refine Prog.wp_bind (store_wp ?_) fun h₅ _ _ _ => ?_
    · exact ⟨by simp [Fresh, Cmd.newId], fun _ => rfl, by simp, by simp, by simp, by simp⟩
    · exact wp_after (K := [.deleteWindowsFor]) (store_within (by simp [Store.kind])) duty_easy
        (by simp [easyKinds]) fun _ _ _ => trivial
  | reap =>
    exact Prog.wp_mono (easy_wp reapStepUp_within duty_easy (by simp [easyKinds]))
      fun _ _ _ _ => trivial

end duties
end Scarab.StepUp
