import Scarab.StepUpStanding

/-!
# What the step-up programs rest on

One rule for each program: which of its commands need a justification, and what is known once it
ends.
-/
namespace Scarab.StepUp

open Depot (Bytes)
open Interleave
open Prog (Since)

section specs

variable {host : Host} {α β : Type} {J : List (Exchange Cmd Cmd.Resp) → Cmd → Prop}
  {h h' : List (Exchange Cmd Cmd.Resp)} {replay : Option ReplayAuthority} {p : Prepared}
  {summary : OpSummary} {caller : Caller} {raw : RawRequest} {routed : Routed}

/-- The kinds of commands that need no justification. -/
def easyKinds : List Kind :=
  [.readPasskeys, .userHandle, .recordUse, .markClone, .consumeChallenge, .reapChallenges,
    .liveWindow, .consumeAction, .deleteWindowsFor, .deleteForPasskey, .getRequest, .reap, .append]

def Easy (J : List (Exchange Cmd Cmd.Resp) → Cmd → Prop) : Prop := ∀ h c, Within easyKinds c → J h c

theorem easy_wp {p : Eff α} {K : List Kind} (hp : p.Issues (Within K)) (hJ : Easy J)
    (hK : K ⊆ easyKinds) : p.wp J h fun h' _ => Since (Within K) h h' :=
  hp.wp fun h' c _ hc => hJ h' c (hc.mono hK)

/-- A program of easy commands first, then the rest. -/
theorem wp_after {p : Eff α} {f : α → Eff β} {K : List Kind}
    {Q : List (Exchange Cmd Cmd.Resp) → β → Prop} (hp : p.Issues (Within K)) (hJ : Easy J)
    (hK : K ⊆ easyKinds) (hf : ∀ h' a, Since (Within K) h h' → (f a).wp J h' Q) :
    (p.bind f).wp J h Q :=
  Prog.wp_bind (easy_wp hp hJ hK) fun h' a _ hs => hf h' a hs

theorem store_wp {x : Store} (hx : J h (.store x)) :
    (store x).wp J h fun h' a => h' = ⟨.store x, .ok a⟩ :: h := by
  simp only [store, tryStore, Prog.bind_eq, Prog.bind_call, Prog.bind_ok, Prog.wp_call]
  refine ⟨hx, fun r => ?_⟩
  cases r with
  | ok a => rfl
  | error e => trivial

theorem since_store {x : Store} {r : Cmd.Resp (.store x)} :
    Since (Within [x.kind]) h (⟨.store x, r⟩ :: h) :=
  Prog.Since.refl.cons (by simp)

theorem since_ask {K : List Kind} {q : Ask} {r : q.Ans} (hq : ∀ caller raw, q ≠ .perform caller raw) :
    Since (Within K) h (⟨.ask q, r⟩ :: h) :=
  Prog.Since.refl.cons (within_ask K hq)

theorem since_draw {K : List Kind} {i : Id} : Since (Within K) h (⟨.drawId, i⟩ :: h) :=
  Prog.Since.refl.cons (by simp)

theorem Easy.ask (hJ : Easy J) {q : Ask} (hq : ∀ caller raw, q ≠ .perform caller raw) :
    J h (.ask q) :=
  hJ h _ (within_ask _ hq)

theorem tryStore_wp {x : Store} (hx : J h (.store x)) :
    (tryStore x).wp J h fun h' r => h' = ⟨.store x, r⟩ :: h :=
  ⟨hx, fun _ => rfl⟩

theorem ask_wp {q : Ask} (hq : J h (.ask q)) :
    (ask q).wp J h fun h' a => h' = ⟨.ask q, a⟩ :: h :=
  ⟨hq, fun _ => rfl⟩

theorem orElse_wp {e : ApiError} {o : Option α} {f : α → Eff β}
    {Q : List (Exchange Cmd Cmd.Resp) → β → Prop} (hf : ∀ a, o = some a → (f a).wp J h Q) :
    ((orElse e o).bind f).wp J h Q := by
  cases o with
  | none => trivial
  | some a => exact hf a rfl

theorem draw_wp (hJ : Easy J) : randomId.wp J h fun h' i => h' = ⟨.drawId, i⟩ :: h :=
  ⟨hJ _ _ (by simp), fun _ => rfl⟩

theorem mintChallenge_wp {principal session : Text} {purpose : ChallengePurpose}
    {digest : Option Digest} {requestId : Option Id} {label : Option Text}
    {summary : Option ChallengeSummary} {now : ℤ} (hJ : Easy J)
    (hput : ∀ nonce id, J (⟨.drawId, id⟩ :: ⟨.ask .randomBytes, nonce⟩ :: h)
      (.store (.putChallenge ⟨id, principal, session, purpose, nonce, digest, requestId, label,
        summary, now, now + webauthnChallengeTtlMs, none⟩))) :
    (mintChallenge host principal session purpose digest requestId label summary now).wp J h
      fun _ _ => True := by
  refine Prog.wp_bind (ask_wp (hJ.ask (by simp))) fun h₁ nonce _ heq => ?_
  subst heq
  refine Prog.wp_bind (draw_wp hJ) fun h₂ id _ heq => ?_
  subst heq
  exact Prog.wp_bind (store_wp (hput nonce id)) fun _ _ _ _ => trivial

/-- A challenge of the caller's own session taken for one of the purposes. -/
structure Taken (host : Host) (id : Id) (caller : Caller) (facts : SessionFacts)
    (purposes : List ChallengePurpose) (now : ℤ) (row : WebauthnChallenge) (sent : Bytes)
    (h : List (Exchange Cmd Cmd.Resp)) : Prop where
  answered : ⟨.store (.consumeChallenge id facts.idHash now), .ok (some row)⟩ ∈ h
  principal : row.principal = caller.subject
  purpose : row.purpose ∈ purposes
  sent_eq : sent = host.actionChallenge row.nonce row.actionDigest

theorem Taken.mono {id : Id} {facts : SessionFacts} {purposes : List ChallengePurpose} {now : ℤ}
    {row : WebauthnChallenge} {sent : Bytes} (ht : Taken host id caller facts purposes now row sent h)
    (hsub : h <:+ h') : Taken host id caller facts purposes now row sent h' :=
  ⟨hsub.subset ht.answered, ht.principal, ht.purpose, ht.sent_eq⟩

theorem consume_wp {id : Id} {facts : SessionFacts} {purposes : List ChallengePurpose} {now : ℤ}
    (hJ : Easy J) : (consume host id caller facts purposes now).wp J h fun h' a =>
      Taken host id caller facts purposes now a.1 a.2 h' ∧ Since (Within [.consumeChallenge]) h h' := by
  refine Prog.wp_bind (store_wp (hJ _ _ (by simp [Store.kind, easyKinds]))) fun h₁ found _ heq => ?_
  subst heq
  cases found with
  | none => trivial
  | some row =>
    dsimp only
    split_ifs with hwrong
    · trivial
    · push Not at hwrong
      exact ⟨⟨List.mem_cons_self, hwrong.1, hwrong.2, rfl⟩, since_store⟩

/-- An assertion over a challenge by a passkey of the subject, whose use was recorded. -/
structure Signed (host : Host) (subject : Text) (sent credential : Bytes) (now : ℤ)
    (passkey : Passkey) (h : List (Exchange Cmd Cmd.Resp)) : Prop where
  found : ∃ rawId, host.rawId credential = some rawId ∧
    ⟨.store (.getByCredential rawId), .ok (some passkey)⟩ ∈ h
  principal : passkey.principal = subject
  unflagged : passkey.cloneSuspectedAt = none
  accepted : ∃ handle ok, host.verifyAssertion sent ⟨passkey.credentialId, passkey.publicKeyCose,
      passkey.alg, passkey.signCount, passkey.backupEligible⟩ handle credential = .ok ok ∧
    ⟨.store (.recordUse passkey.id passkey.signCount ok.newCount ok.backupState now),
      .ok .recorded⟩ ∈ h

theorem Signed.mono {subject : Text} {sent credential : Bytes} {now : ℤ} {passkey : Passkey}
    (hs : Signed host subject sent credential now passkey h) (hsub : h <:+ h') :
    Signed host subject sent credential now passkey h' := by
  obtain ⟨⟨rawId, hraw, hfound⟩, hprincipal, hflag, handle, ok, hverify, hused⟩ := hs
  exact ⟨⟨rawId, hraw, hsub.subset hfound⟩, hprincipal, hflag, handle, ok, hverify,
    hsub.subset hused⟩

/-- The kinds an assertion is checked with. -/
def assertKinds : List Kind :=
  [.readPasskeys, .append, .userHandle, .markClone, .deleteForPasskey, .recordUse]

theorem refuseClone_within {facts : SessionFacts} {passkey : Passkey} {now : ℤ} :
    (refuseClone caller facts passkey now : Eff α).Issues (Within assertKinds) :=
  Prog.Issues.bind (store_within (by simp [Store.kind, assertKinds])) fun _ =>
    Prog.Issues.bind (within_mono passkeyEvent_within (by simp [assertKinds])) fun _ => trivial

theorem acceptUse_within {facts : SessionFacts} {passkey : Passkey} {ok : AssertionOk} {now : ℤ} :
    (acceptUse caller facts passkey ok now).Issues (Within assertKinds) := by
  refine Prog.Issues.bind (store_within (by simp [Store.kind, assertKinds])) fun used => ?_
  cases used with
  | recorded => trivial
  | cloneSuspected => exact refuseClone_within
  | notFound => trivial

theorem verifyAssertionOnce_within {facts : SessionFacts} {sent credential : Bytes} {now : ℤ} :
    (verifyAssertionOnce host caller facts sent credential now).Issues (Within assertKinds) := by
  refine Prog.Issues.bind (orElse_within _) fun rawId => ?_
  refine Prog.Issues.bind (store_within (by simp [Store.kind, assertKinds])) fun found => ?_
  refine Prog.Issues.bind (orElse_within _) fun passkey => ?_
  split_ifs
  · exact Prog.Issues.bind event_within fun _ =>
      Prog.Issues.bind (within_mono record_within (by simp [assertKinds])) fun _ => trivial
  · refine Prog.Issues.bind (within_mono handleOf_within (by simp [assertKinds])) fun handle => ?_
    dsimp only
    split
    · exact Prog.Issues.bind (store_within (by simp [Store.kind, assertKinds])) fun _ =>
        refuseClone_within
    · trivial
    · exact Prog.Issues.bind (within_mono noteRegressed_within (by simp [assertKinds])) fun _ =>
        acceptUse_within
  · trivial

theorem verifyAssertion_within {facts : SessionFacts} {sent credential : Bytes} {now : ℤ} :
    (verifyAssertion host caller facts sent credential now).Issues (Within assertKinds) := by
  refine Prog.Issues.bind verifyAssertionOnce_within.attempt fun answer => ?_
  cases answer with
  | ok passkey => trivial
  | error e =>
    exact Prog.Issues.bind (within_mono recordFailedAssertion_within (by simp [assertKinds]))
      fun _ => trivial

theorem refuseClone_wp {facts : SessionFacts} {passkey : Passkey} {now : ℤ} (hJ : Easy J) :
    (refuseClone caller facts passkey now : Eff α).wp J h fun _ _ => False :=
  wp_after (K := [.deleteForPasskey]) (store_within (by simp [Store.kind])) hJ
    (by simp [easyKinds]) fun _ _ _ =>
    wp_after passkeyEvent_within hJ (by simp [easyKinds]) fun _ _ _ => trivial

theorem acceptUse_wp {facts : SessionFacts} {passkey : Passkey} {ok : AssertionOk} {now : ℤ}
    (hJ : Easy J) : (acceptUse caller facts passkey ok now).wp J h fun h' p => p = passkey ∧
      ⟨.store (.recordUse passkey.id passkey.signCount ok.newCount ok.backupState now),
        .ok .recorded⟩ ∈ h' := by
  refine Prog.wp_bind (store_wp (hJ _ _ (by simp [Store.kind, easyKinds]))) fun h₁ used _ heq => ?_
  subst heq
  cases used with
  | recorded => exact ⟨rfl, List.mem_cons_self⟩
  | cloneSuspected => exact Prog.wp_mono (refuseClone_wp hJ) fun _ _ _ hfalse => hfalse.elim
  | notFound => trivial

theorem verifyAssertionOnce_wp {facts : SessionFacts} {sent credential : Bytes} {now : ℤ}
    (hJ : Easy J) : (verifyAssertionOnce host caller facts sent credential now).wp J h
      fun h' passkey => Signed host caller.subject sent credential now passkey h' := by
  refine orElse_wp fun rawId hraw => ?_
  refine Prog.wp_bind (store_wp (hJ _ (.store (.getByCredential rawId))
    (by simp [Store.kind, easyKinds]))) fun h₁ found _ heq => ?_
  subst heq
  refine orElse_wp fun passkey hown => ?_
  obtain ⟨rfl, hprincipal⟩ := Option.filter_eq_some_iff.mp hown
  split_ifs with hflag halg
  · exact wp_after (K := []) event_within hJ (by simp) fun _ _ _ =>
      wp_after record_within hJ (by simp [easyKinds]) fun _ _ _ => trivial
  · refine wp_after handleOf_within hJ (by simp [easyKinds]) fun h₂ handle hs₂ => ?_
    dsimp only
    split
    · exact wp_after (K := [.markClone]) (store_within (by simp [Store.kind])) hJ
        (by simp [easyKinds]) fun h₃ _ _ =>
        Prog.wp_mono (refuseClone_wp hJ) fun _ _ _ hfalse => hfalse.elim
    · trivial
    · next ok hverify =>
      refine wp_after noteRegressed_within hJ (by simp [easyKinds]) fun h₃ _ hs₃ => ?_
      refine Prog.wp_mono (acceptUse_wp hJ) fun h₄ p hs₄ hQ => ?_
      obtain ⟨rfl, hused⟩ := hQ
      have hsub := (hs₂.suffix.trans hs₃.suffix).trans hs₄
      exact ⟨⟨rawId, hraw, hsub.subset List.mem_cons_self⟩, of_decide_eq_true hprincipal,
        by simpa using hflag, handle, ok, hverify, hused⟩
  · trivial

theorem verifyAssertion_wp {facts : SessionFacts} {sent credential : Bytes} {now : ℤ}
    (hJ : Easy J) : (verifyAssertion host caller facts sent credential now).wp J h
      fun h' passkey => Signed host caller.subject sent credential now passkey h' ∧
        Since (Within assertKinds) h h' := by
  refine Prog.Issues.track verifyAssertion_within ?_
  refine Prog.wp_bind (Q := fun h' x => ∀ passkey, x = .ok passkey →
    Signed host caller.subject sent credential now passkey h') ?_ fun h₁ answer _ hans => ?_
  · refine Prog.wp_attempt (verifyAssertionOnce_wp hJ) (fun h₁ passkey _ hs x hx => ?_) (by simp)
    exact Except.ok.inj hx ▸ hs
  · cases answer with
    | ok passkey => exact hans passkey rfl
    | error e => exact wp_after recordFailedAssertion_within hJ (by simp [easyKinds]) fun _ _ _ => trivial

end specs
end Scarab.StepUp
