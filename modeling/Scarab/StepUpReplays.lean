import Scarab.StepUpAuthority

/-!
# Requests run once

In every run a request a machine raised takes effect at most once, exactly as it was raised, after
its human was shown it and signed for it, and as the requester.
-/
namespace Scarab.StepUp

open Depot (Bytes)
open Interleave

/-- What a machine asked for when it raised a request. -/
structure Raised where
  machine : Caller
  raw : RawRequest
  routed : Routed
  org : Option Text
  summary : OpSummary
  requester : StepUpRequester
  sealed : Bytes
  at_ : ℤ

def Raised.row (q : Raised) (id : Id) : StepUpRequest :=
  raisedRow ⟨q.machine, q.raw, q.routed, q.org⟩ q.summary q.requester id q.sealed q.at_

/-- The call that raised it: an operation of a caller without a browser session, as it was judged,
stored at a clock reading of the call. -/
def Raised.By (host : Host) (q : Raised) (id : Id) (l : Call) (h : List (Exchange Cmd Cmd.Resp)) :
    Prop :=
  l = .governed q.machine q.raw ∧ host.route q.raw = some q.routed ∧
    Judged q.machine q.raw q.routed h q.summary ∧ q.machine.browserSession = none ∧
    requesterOf q.machine = some q.requester ∧
    host.sealRequest q.raw.body (sealedSession q.machine q.requester) id = some q.sealed ∧
    ⟨.ask .clock, q.at_⟩ ∈ h ∧ ∃ answer, ⟨.store (.raiseRequest (q.row id) .default q.at_), answer⟩ ∈ h

/-- A request taking effect: raised by a machine, shown to and signed by its human, begun once and
run as the requester, changing no more than was shown. -/
structure Replayed (host : Host) (g : Config (stepUp host)) (human : Caller) (id challengeId : Id)
    (credential : Bytes) (older : List (Exchange Cmd Cmd.Resp)) (c : Cmd) (q : Raised)
    (confirmation : Id) : Prop where
  raised : ∃ pid l, StartedAs g.log pid l ∧ q.By host id l (ownOf g.log pid)
  forHuman : ForHuman human (q.row id) older
  signed : ∃ facts at_ row sent passkey, human.browserSession = some facts ∧
    Taken host challengeId human facts [.request] at_ row sent older ∧ row.requestId = some id ∧
    row.actionDigest = some q.routed.digest ∧ ⟨.ask .clock, at_⟩ ∈ older ∧
    Signed host human.subject sent credential at_ passkey older ∧
    ∃ pid l shown, StartedAs g.log pid l ∧ RequestShownBy l (ownOf g.log pid) shown ∧
      shown.core = row.core ∧
      row.summary = some ⟨q.routed.op.id, none, q.summary, some id⟩
  begun : ∃ now r, ⟨.ask .clock, now⟩ ∈ older ∧ now < q.at_ + stepUpRequestTtlMs ∧
    ⟨.store (.beginExecution id human.subject confirmation now), .ok (.begun r)⟩ ∈ older
  runs : ∃ runner, RunsAs host human.subject (q.row id) (sealedSession q.machine q.requester) runner
      older ∧ Carries runner q.raw q.routed c ∧
    (Unasked runner q.raw q.routed older ∨ ∃ summary,
      Judged runner q.raw q.routed older summary ∧
      (∀ change ∈ summary.changes, change ∈ q.summary.changes) ∧
      Logged runner q.routed older confirmation)

/-- What a run does with the requests: each takes effect as raised, and begins once. -/
structure ReplayedOnce (host : Host) (g : Config (stepUp host)) : Prop where
  effect : ∀ pid human id challengeId credential newer x older,
    StartedAs g.log pid (.confirmRequest human id challengeId credential) →
    ownOf g.log pid = newer ++ x :: older → Effect x.1 → (∀ y ∈ older, ¬ Effect y.1) ∧
      ∃ q confirmation, Replayed host g human id challengeId credential older x.1 q confirmation
  request : ∀ i, Apart g.log fun x y => SpendsRequest x i → ¬ SpendsRequest y i

section runs

variable {host : Host} {cond : Config (stepUp host) → Entry (stepUp host) → Prop} {s : Stores}
  {g : Config (stepUp host)} {pid : ℕ}

/-- No request begins twice. -/
theorem request_once (hblank : Blank s) (hr : Reach cond s g) (i : Id) :
    Apart g.log fun x y => SpendsRequest x i → ¬ SpendsRequest y i := by
  refine Reach.spent_once (M := stepUp host) LiveRequest Names SpendsRequest ?_ ?_ ?_ hr
    (names_apart hr i)
  · exact fun c a s r s' hresp i hl => respond_liveRequest hresp hl
  · exact fun c a s r s' hresp hspend => respond_spendsRequest hresp hspend
  · rintro i ⟨q, hmem, -⟩
    simp [hblank.requests] at hmem

/-- The call that raised a request is the only one to have stored a row under its id. -/
theorem request_origin (hblank : Blank s) (hr : Reach cond s g) {r : StepUpRequest}
    (hmem : r ∈ g.state.requests) : ∃ pid l x q caps now, StartedAs g.log pid l ∧
      x ∈ ownOf g.log pid ∧ x.1 = .store (.raiseRequest q caps now) ∧
      RaisedBy host l (ownOf g.log pid) q caps now ∧ SameRequest q r := by
  have horigin := Reach.comes_from (M := stepUp host) (fun s r => r ∈ s.requests)
    (fun x r => ∃ caps now, x.1 = .store (.raiseRequest r caps now)) SameRequest
    SameRequest.refl (fun _ _ _ => SameRequest.trans) ?_ ?_ hr r hmem
  · obtain ⟨pid, x, hx, q, ⟨caps, now, hput⟩, hsame⟩ := horigin
    obtain ⟨l, older, hl, hsub, hduty⟩ := duty_of_mem hr hx
    obtain ⟨caller, raw, routed, org, summary, requester, sealed, hcall, hroute, hjudged, hrest,
      hrequester, hrow, hcaps, hclock, hbody, hsealed⟩ := hduty.raise q caps now hput
    exact ⟨pid, l, x, q, caps, now, hl, hx, hput, ⟨caller, raw, routed, org, summary, requester,
      sealed, hcall, hroute, hjudged.mono hsub, hrest, hrequester, hrow, hcaps, hsub.subset hclock,
      hbody, hsealed⟩, hsame⟩
  · intro c a s r s' hresp q hq
    rcases respond_requests hresp hq with hput | ⟨q₀, hmem, hsame, -⟩
    · exact .inl hput
    · exact .inr ⟨q₀, hmem, hsame⟩
  · intro r hmem
    simp [hblank.requests] at hmem

/-- Two commands that store a row under one id are one. -/
theorem names_same (hr : Reach cond s g) {i : Id} {p q : ℕ} {x y : Exchange Cmd Cmd.Resp}
    (hx : x ∈ ownOf g.log p) (hy : y ∈ ownOf g.log q) (hnx : Names x i) (hny : Names y i) :
    x = y := by
  by_contra hne
  have hsymm : Std.Symm fun x y : Exchange Cmd Cmd.Resp => Names x i → ¬ Names y i :=
    ⟨fun x y h hy hx => h hx hy⟩
  exact List.Pairwise.forall (apart_iff.mp (names_apart hr i)) (mem_exchanges.mpr ⟨p, hx⟩)
    (mem_exchanges.mpr ⟨q, hy⟩) hne hnx hny

/-- Two readings of the requests under one id show the same request. -/
theorem request_same (hblank : Blank s) {g₀ g₁ : Config (stepUp host)} (hr₀ : Reach cond s g₀)
    (hr₁ : Reach cond s g₁) (hr : Reach cond s g) (hlog₀ : ∃ newer, g.log = newer ++ g₀.log)
    (hlog₁ : ∃ newer, g.log = newer ++ g₁.log) {r r' : StepUpRequest}
    (hmem : r ∈ g₀.state.requests) (hmem' : r' ∈ g₁.state.requests) (hid : r.id = r'.id) :
    r.core = r'.core := by
  obtain ⟨pid, l, x, q, caps, now, -, hx, hput, -, hsame⟩ := request_origin hblank hr₀ hmem
  obtain ⟨pid', l', x', q', caps', now', -, hx', hput', -, hsame'⟩ :=
    request_origin hblank hr₁ hmem'
  obtain ⟨newer₀, hlog₀⟩ := hlog₀
  obtain ⟨newer₁, hlog₁⟩ := hlog₁
  have hname : Names x r.id := by
    rw [Names, hput, hsame.id_eq]
    rfl
  have hname' : Names x' r.id := by
    rw [Names, hput', hid, hsame'.id_eq]
    rfl
  have hxin : x ∈ ownOf g.log pid := (hlog₀ ▸ ownOf_mono : _ <:+ ownOf g.log pid).subset hx
  have hxin' : x' ∈ ownOf g.log pid' := (hlog₁ ▸ ownOf_mono : _ <:+ ownOf g.log pid').subset hx'
  obtain rfl := names_same hr hxin hxin' hname hname'
  rw [hput] at hput'
  simp only [Cmd.store.injEq, Store.raiseRequest.injEq] at hput'
  rw [hsame.1, hsame'.1, hput'.1]

/-- The request a challenge answered shows is the one in the store. -/
theorem requestShown_of (hblank : Blank s) (hr : Reach cond s g) {r : StepUpRequest}
    {g₀ : Config (stepUp host)} (hr₀ : Reach cond s g₀) (hlog₀ : ∃ newer, g.log = newer ++ g₀.log)
    (hmem : r ∈ g₀.state.requests) {caller : Caller} {facts : SessionFacts} {challengeId : Id}
    {now : ℤ} {row : WebauthnChallenge} {sent : Bytes}
    (htaken : Taken host challengeId caller facts [.request] now row sent (ownOf g.log pid))
    (hrequest : row.requestId = some r.id) : row.actionDigest = some r.actionDigest ∧
      ∃ pid l shown, StartedAs g.log pid l ∧ RequestShownBy l (ownOf g.log pid) shown ∧
        shown.core = row.core ∧ row.summary = some ⟨r.op, none, r.summary.summary, some r.id⟩ := by
  obtain ⟨g₁, s₁, hr₁, hexec, newer, hlog⟩ := answered_at hr htaken.answered
  obtain ⟨⟨ch, hch, hcore, -⟩, -⟩ := exec_consumeChallenge hexec
  obtain ⟨pid', l, older, shown, hl, hsub, hduty, hcore'⟩ := challenge_origin hblank hr₁ hch
  have hsame : shown.core = row.core := hcore'.trans hcore
  have hfields : shown.purpose = row.purpose ∧ shown.actionDigest = row.actionDigest ∧
      shown.requestId = row.requestId ∧ shown.summary = row.summary := by
    simp only [WebauthnChallenge.core, WebauthnChallenge.mk.injEq] at hsame
    obtain ⟨-, -, -, hpurpose, -, hdigest, hid, -, hsummary, -⟩ := hsame
    exact ⟨hpurpose, hdigest, hid, hsummary⟩
  obtain ⟨hpurpose, hdigest, hid, hsummary⟩ := hfields
  have hrequest' : shown.purpose = .request := hpurpose.trans (by simpa using htaken.purpose)
  obtain ⟨human, id, facts', r', hcall, hfacts', hread, hhuman, hprincipal, hsession, hdigest',
    hid', hsummary'⟩ := (hduty.challenge shown rfl).2.2 hrequest'
  have hsub' : older <:+ ownOf g.log pid' := hsub.trans (hlog ▸ ownOf_mono)
  obtain ⟨g₂, s₂, hr₂, hexec₂, hlog₂⟩ := answered_at hr (hsub'.subset hread)
  have hrid : r'.id = r.id := by
    rw [hid, hrequest] at hid'
    exact (Option.some.inj hid').symm
  have hcores : r'.core = r.core := request_same hblank hr₂ hr₀ hr hlog₂ hlog₀
    (exec_getRequest hexec₂).1 hmem hrid
  have hraised : r'.actionDigest = r.actionDigest ∧ r'.op = r.op ∧ r'.summary = r.summary := by
    simp only [StepUpRequest.core, StepUpRequest.mk.injEq] at hcores
    obtain ⟨-, -, hop, -, -, -, -, hdig, hsum, -⟩ := hcores
    exact ⟨hdig, hop, hsum⟩
  obtain ⟨hdig, hop, hsum⟩ := hraised
  refine ⟨by rw [← hdigest, hdigest', hdig], pid', l, shown, hlog ▸ startedAs_mono hl, ?_, hsame,
    by rw [← hsummary, hsummary', hop, hsum, hrid]⟩
  exact ⟨human, id, facts', r', hcall, hfacts', hsub'.subset hread, hhuman.mono hsub', hprincipal,
    hsession, hdigest', hid', hsummary'⟩

/-- What a replay reads of a request it reads of the request as it was raised. -/
theorem RunsAs.of_core {human : Text} {r r' : StepUpRequest} {session : Option Text}
    {runner : Caller} {h : List (Exchange Cmd Cmd.Resp)} (hcore : r.core = r'.core)
    (hruns : RunsAs host human r session runner h) : RunsAs host human r' session runner h := by
  have hsame : r.requester = r'.requester ∧ r.sessionRoleCap = r'.sessionRoleCap := by
    simp only [StepUpRequest.core, StepUpRequest.mk.injEq] at hcore
    obtain ⟨-, -, -, -, -, -, -, -, -, -, hrequester, hcap, -⟩ := hcore
    exact ⟨hrequester, hcap⟩
  unfold RunsAs at hruns ⊢
  rwa [← hsame.1, ← hsame.2]

theorem Raised.By.mono {q : Raised} {id : Id} {l : Call} {h h' : List (Exchange Cmd Cmd.Resp)}
    (hq : q.By host id l h) (hsub : h <:+ h') : q.By host id l h' := by
  obtain ⟨hl, hroute, hjudged, hnone, hrequester, hsealed, hclock, answer, hraise⟩ := hq
  exact ⟨hl, hroute, hjudged.mono hsub, hnone, hrequester, hsealed, hsub.subset hclock, answer,
    hsub.subset hraise⟩

/-- A request in the store, as its call raised it. -/
theorem raised_of (hblank : Blank s) {g₀ : Config (stepUp host)} (hr₀ : Reach cond s g₀)
    (hlog₀ : ∃ newer, g.log = newer ++ g₀.log) {r : StepUpRequest} (hmem : r ∈ g₀.state.requests) :
    ∃ q : Raised, (∃ pid l, StartedAs g.log pid l ∧ q.By host r.id l (ownOf g.log pid)) ∧
      SameRequest (q.row r.id) r := by
  obtain ⟨pid, l, x, row, caps, now, hl, hx, hput, hraised, hsame⟩ := request_origin hblank hr₀ hmem
  obtain ⟨caller, raw, routed, org, summary, requester, sealed, hcall, hroute, hjudged, hnone,
    hrequester, hrow, hcaps, hclock, -, hsealed⟩ := hraised
  obtain ⟨c, answer⟩ := x
  obtain rfl : c = .store (.raiseRequest row caps now) := hput
  obtain ⟨newer, hlog⟩ := hlog₀
  refine ⟨⟨caller, raw, routed, org, summary, requester, sealed, now⟩, ⟨pid, l,
    hlog ▸ startedAs_mono hl, ?_⟩, ?_⟩
  · refine Raised.By.mono ?_ (hlog ▸ ownOf_mono)
    refine ⟨hcall, hroute, hjudged, hnone, hrequester, hsame.id_eq ▸ hsealed, hclock, answer, ?_⟩
    rw [Raised.row, hsame.id_eq, ← hrow, ← hcaps]
    exact hx
  · rw [hsame.id_eq]
    exact hrow ▸ hsame

/-- What a request that is what was raised keeps of it. -/
theorem Raised.kept {q : Raised} {id : Id} {r : StepUpRequest} (hsame : SameRequest (q.row id) r) :
    r.id = id ∧ r.op = q.routed.op.id ∧ r.method = q.raw.method ∧ r.path = q.raw.path ∧
      r.query = q.raw.query ∧ r.actionDigest = q.routed.digest ∧ r.summary.summary = q.summary ∧
      r.forHuman = q.machine.subject ∧ r.expiresAt = q.at_ + stepUpRequestTtlMs := by
  have hcore := hsame.1
  simp only [StepUpRequest.core, StepUpRequest.mk.injEq] at hcore
  obtain ⟨hid, -, hop, hmethod, hpath, hquery, -, hdigest, hsummary, hhuman, -, -, -, hexpires, -⟩ :=
    hcore
  exact ⟨hid, hop, hmethod, hpath, hquery, hdigest, by rw [hsummary]; rfl, hhuman, hexpires⟩

/-- In every run a request takes effect at most once, and only as its machine raised it, once its
human was shown it and signed for it, run as the requester. -/
theorem replayed_once (hseals : ∀ body session id sealed,
      host.sealRequest body session id = some sealed → host.openRequest sealed id = some (body, session))
    (hblank : Blank s) (hr : Reach cond s g) : ReplayedOnce host g := by
  refine ⟨fun pid human id challengeId credential newer x older hl hsplit heffect => ?_,
    request_once hblank hr⟩
  obtain ⟨l, hl', hduty⟩ := duty_at hr hsplit
  obtain rfl := started_once hr hl hl'
  obtain ⟨hno, r, confirmation, sealed, body, session, requester, runner, routed, hbegun, hsealed,
    hopen, hon, hruns, hroute, hcarries, hperm⟩ := hduty.effect heffect
  have hsuffix : older <:+ ownOf g.log pid := ⟨newer ++ [x], by simp [hsplit]⟩
  obtain ⟨facts, at_, row, sent, passkey, shown, hfacts, hread, hhuman, hclock, htaken, hid, -,
    hsigned⟩ := hbegun.signed
  obtain ⟨now, hnow, hbegin⟩ := hbegun.begun
  obtain ⟨g₀, s₁, hr₀, hexec, hlog₀⟩ := answered_at hr (hsuffix.subset hbegin)
  obtain ⟨⟨r₀, hmem₀, hsame₀, -, hlt⟩, hrid, -⟩ := exec_beginExecution hexec
  have hr₀id : r₀.id = id := hsame₀.id_eq.symm.trans hrid
  -- the request that began is the one that was raised
  obtain ⟨q, hraised, hsame⟩ := raised_of (g := g) hblank hr₀ hlog₀ hmem₀
  rw [hr₀id] at hraised hsame
  obtain ⟨-, hop₀, -, -, -, hdigest₀, hsummary₀, hhuman₀, hexpires₀⟩ := Raised.kept hsame
  have hsameR := hsame.trans hsame₀
  obtain ⟨-, -, hmethod, hpath, hquery, -, hsummary, -, -⟩ := Raised.kept hsameR
  -- and so is the one its human read and the one the challenge showed
  obtain ⟨g₁, s₂, hr₁, hexec₁, hlog₁⟩ := answered_at hr (hsuffix.subset hread)
  obtain ⟨hshown, hshownId⟩ := exec_getRequest hexec₁
  have hcore := request_same hblank hr₁ hr₀ hr hlog₁ hlog₀ hshown hmem₀ (hshownId.trans hr₀id.symm)
  obtain ⟨hdigest, hshownBy⟩ := requestShown_of hblank hr hr₀ hlog₀ hmem₀ (htaken.mono hsuffix)
    (by rw [hid, hr₀id])
  obtain ⟨pid', l', ch, hl₁, hby, hchcore, hchsummary⟩ := hshownBy
  -- the sealed body is the one that was sealed
  have hsealed' : sealed = q.sealed := by
    rcases hsameR.2 with hnone | hkept
    · rw [hsealed] at hnone
      cases hnone
    · rw [hsealed] at hkept
      exact Option.some.inj hkept
  obtain ⟨pid₂, l₂, hl₂, hqby⟩ := hraised
  obtain ⟨hcall, hqroute, hqjudged, hqnone, hqrequester, hqsealed, hqrest⟩ := hqby
  have hbody : body = q.raw.body ∧ session = sealedSession q.machine q.requester := by
    rw [hsealed', hrid, hseals _ _ _ _ hqsealed] at hopen
    obtain ⟨rfl, rfl⟩ := Prod.mk.inj (Option.some.inj hopen)
    exact ⟨rfl, rfl⟩
  obtain ⟨rfl, rfl⟩ := hbody
  have hraw : (⟨r.method, r.path, r.query, q.raw.body⟩ : RawRequest) = q.raw := by
    rw [hmethod, hpath, hquery]
  rw [hraw] at hroute hcarries hperm
  obtain rfl : q.routed = routed := Option.some.inj (hqroute.symm.trans hroute)
  refine ⟨hno, q, confirmation, ⟨pid₂, l₂, hl₂, hcall, hqroute, hqjudged, hqnone, hqrequester,
    hqsealed, hqrest⟩, ?_, ⟨facts, at_, row, sent, passkey, hfacts, htaken, hid,
      by rw [hdigest, hdigest₀], hclock, hsigned, pid', l', ch, hl₁, hby, hchcore, ?_⟩,
    ⟨now, r, hnow, by omega, hbegin⟩, runner, hruns.of_core (hsameR.1), hcarries, ?_⟩
  · have hforHuman : shown.forHuman = q.machine.subject := by
      simp only [StepUpRequest.core, StepUpRequest.mk.injEq] at hcore
      obtain ⟨-, -, -, -, -, -, -, -, -, hfor, -⟩ := hcore
      exact hfor.trans hhuman₀
    rcases hhuman with heq | ⟨aliases, hmem, hin⟩
    · exact .inl (heq.trans hforHuman)
    · rw [hforHuman] at hin
      exact .inr ⟨aliases, hmem, hin⟩
  · rw [hchsummary, hop₀, hsummary₀, hr₀id]
  · refine hperm.imp_right ?_
    rintro ⟨org, summary, confirmation', hjudged, hcovered, hlogged⟩
    obtain ⟨-, -, hchanges, hsame'⟩ := hcovered.replayed _ rfl
    have hconfirmation : confirmation' = confirmation := hsame'
    refine ⟨summary, hjudged, fun change hmem => ?_, hconfirmation ▸ hlogged⟩
    have hchange := hchanges change hmem
    rwa [authorityOf, hsummary] at hchange

/-- A token's request, raised, confirmed and run. -/
theorem replayed_once_token : ∃ g, Reach (M := stepUp sampleHost) (fun _ _ => True) sampleStores g ∧
    ReplayedOnce sampleHost g ∧ ∃ x ∈ ownOf g.log 2, Effect x.1 := by
  obtain ⟨g, hr, htest⟩ := Reach.of_play (M := stepUp sampleHost) sampleStores
    [.start (.governed sampleMachine ⟨[], ['p'], [], [7]⟩), .runOut 0 12 sampleAnswer,
      .start (.requestOptions sampleCaller 0), .runOut 1 12 sampleAnswer,
      .start (.confirmRequest sampleCaller 0 3 []), .acts 2 30 sampleAnswer]
    (fun g => (ownOf g.log 2).any fun x => x.1 = .ask (.perform sampleMachine ⟨[], ['p'], [], [7]⟩))
    (by decide +kernel)
  obtain ⟨x, hx, hperform⟩ := List.any_eq_true.mp htest
  refine ⟨g, hr, replayed_once ?_ ⟨rfl, rfl, rfl⟩ hr, x, hx, ?_⟩
  · intro body session id sealed hsealed
    simp only [sampleHost] at hsealed ⊢
    split_ifs at hsealed with hnone
    rw [hnone, Option.some.inj hsealed]
  · rw [of_decide_eq_true hperform]
    trivial

end runs
end Scarab.StepUp
