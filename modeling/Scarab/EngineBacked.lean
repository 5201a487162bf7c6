import Scarab.EngineEvidence

/-!
# Rules for backed programs

A program's commands are backed one by one as its past grows. The rules here take one
command, and the lemmas about pasts say what survives as a past grows.
-/
namespace Scarab.Engine

open Interleave

section kit

variable {α β : Type} {l : Call} {h : Past} {Q : Past → α → Prop} {G : Past → β → Prop}

theorem wp_read_bind {q : Query} {k : q.Ans → Eff β}
    (hk : ∀ a, (k a).wp (Backed l) (⟨.read q, .ok a⟩ :: h) G) :
    ((read q).bind k).wp (Backed l) h G := by
  refine ⟨trivial, fun r => ?_⟩
  cases r with
  | ok a => exact hk a
  | error e => trivial

theorem wp_ask {q : Ask} {Q : Past → q.Ans → Prop} (hQ : ∀ a, Q (⟨.ask q, a⟩ :: h) a) :
    (ask q).wp (Backed l) h Q := ⟨trivial, hQ⟩

theorem wp_ask_bind {q : Ask} {k : q.Ans → Eff β}
    (hk : ∀ a, (k a).wp (Backed l) (⟨.ask q, a⟩ :: h) G) :
    ((ask q).bind k).wp (Backed l) h G := ⟨trivial, hk⟩

theorem wp_now_bind {k : Timestamp → Eff β}
    (hk : ∀ a : Timestamp, (k a).wp (Backed l) (⟨.ask .now, a⟩ :: h) G) :
    (now.bind k).wp (Backed l) h G := ⟨trivial, hk⟩

theorem wp_commit {t : Tx} {Q : Past → t.Ans → Prop} (hb : Backed l h (.write t))
    (hQ : ∀ a, Q (⟨.write t, .ok a⟩ :: h) a) : (commit t).wp (Backed l) h Q := by
  refine ⟨hb, fun r => ?_⟩
  cases r with
  | ok a => exact hQ a
  | error e => trivial

theorem wp_commit_bind {t : Tx} {k : t.Ans → Eff β} (hb : Backed l h (.write t))
    (hk : ∀ a, (k a).wp (Backed l) (⟨.write t, .ok a⟩ :: h) G) :
    ((commit t).bind k).wp (Backed l) h G := by
  refine ⟨hb, fun r => ?_⟩
  cases r with
  | ok a => exact hk a
  | error e => trivial

theorem wp_tryCommit_bind {t : Tx} {k : Except DbError t.Ans → Eff β}
    (hb : Backed l h (.write t)) (hk : ∀ r, (k r).wp (Backed l) (⟨.write t, r⟩ :: h) G) :
    ((tryCommit t).bind k).wp (Backed l) h G := ⟨hb, hk⟩

theorem wp_commitOrLose {t : Tx} {Q : Past → Unit → Prop} (hb : Backed l h (.write t))
    (hok : ∀ a, Q (⟨.write t, .ok a⟩ :: h) ()) (hlost : Q (⟨.write t, .error .conflict⟩ :: h) ()) :
    (commitOrLose t).wp (Backed l) h Q := by
  refine ⟨hb, fun r => ?_⟩
  rcases r with e | a
  · cases e <;> first | exact hlost | trivial
  · exact hok a

theorem wp_orDb_bind {x : Except DbError α} {k : α → Eff β}
    (hk : ∀ a, x = .ok a → (k a).wp (Backed l) h G) : ((orDb x).bind k).wp (Backed l) h G := by
  cases x with
  | ok a => exact hk a rfl
  | error e => trivial

theorem wp_orExec_bind {x : Except ExecError α} {k : α → Eff β}
    (hk : ∀ a, x = .ok a → (k a).wp (Backed l) h G) : ((orExec x).bind k).wp (Backed l) h G := by
  cases x with
  | ok a => exact hk a rfl
  | error e => trivial

end kit

namespace Past

variable {h h' h₁ h₂ : Past} {run : RunId} {step : StepId} {attempt : AttemptId}

theorem Saw.mono {q : Query} {a : q.Ans} (hs : h <:+ h') (hsaw : h.Saw q a) : h'.Saw q a :=
  hs.subset hsaw

theorem Did.mono {t : Tx} {a : t.Ans} (hs : h <:+ h') (hd : h.Did t a) : h'.Did t a :=
  hs.subset hd

theorem Lost.mono {t : Tx} (hs : h <:+ h') (hl : h.Lost t) : h'.Lost t := hs.subset hl

theorem Asked.mono {q : Ask} {a : q.Ans} (hs : h <:+ h') (ha : h.Asked q a) : h'.Asked q a :=
  hs.subset ha

theorem SawStep.subset {s : StepRun} (hs : h ⊆ h') (hsaw : h.SawStep run s) : h'.SawStep run s := by
  obtain ⟨steps, hsteps, hmem⟩ := hsaw
  exact ⟨steps, hs hsteps, hmem⟩

theorem SawStep.mono {s : StepRun} (hs : h <:+ h') (hsaw : h.SawStep run s) : h'.SawStep run s :=
  hsaw.subset hs.subset

theorem SawGate.mono (hs : h <:+ h') (hsaw : h.SawGate run step) : h'.SawGate run step := by
  obtain ⟨s, hs', he, hg⟩ := hsaw
  exact ⟨s, hs'.mono hs, he, hg⟩

theorem Claimed.mono {kind : OutboxKind} {id : ℕ} {msg : OutboxMessage} (hs : h <:+ h')
    (hc : h.Claimed kind id msg) : h'.Claimed kind id msg := by
  obtain ⟨owner, limit, msgs, hd, hm⟩ := hc
  exact ⟨owner, limit, msgs, hd.mono hs, hm⟩

theorem Unwanted.mono (hs : h <:+ h') (hu : h.Unwanted run step attempt) :
    h'.Unwanted run step attempt := by
  cases hu with
  | moved steps saw gone => exact .moved steps (saw.mono hs) gone
  | settled status saw ended => exact .settled status (saw.mono hs) ended

theorem UnitOf.mono {handle : Text} (hs : h <:+ h') (hu : h.UnitOf run step attempt handle) :
    h'.UnitOf run step attempt handle :=
  hu.imp (Saw.mono hs) (Did.mono hs)

theorem Polled.mono {st : ExecState} (hs : h <:+ h') (hp : h.Polled run step attempt st) :
    h'.Polled run step attempt st := by
  obtain ⟨handle, hu, ha⟩ := hp
  exact ⟨handle, hu.mono hs, ha.mono hs⟩

theorem Refused.mono (hs : h <:+ h') (hr : h.Refused run step attempt) :
    h'.Refused run step attempt := by
  rcases hr with ⟨spec, why, ha⟩ | ⟨spec, launched, why, ha, hr⟩
  · exact .inl ⟨spec, why, ha.mono hs⟩
  · exact .inr ⟨spec, launched, why, ha.mono hs, hr⟩

theorem Gone.mono {item : TeardownAttempt} (hs : h <:+ h') (hg : h.Gone run item) :
    h'.Gone run item := by
  obtain ⟨t, rfl⟩ := hs
  cases hg with
  | tornDown handle newer older past saw =>
    exact .tornDown handle (t ++ newer) older (by rw [past, List.append_assoc]) saw
  | unlaunched newer older past saw =>
    exact .unlaunched (t ++ newer) older (by rw [past, List.append_assoc]) saw

theorem CancelTried.sublist {tries : ℕ} (hs : List.Sublist h h')
    (hc : h.CancelTried run step tries) : h'.CancelTried run step tries := by
  cases hc with
  | cancelled s at_ same did => exact .cancelled s at_ same (hs.subset did)
  | finished s saw same ended => exact .finished s (saw.subset hs.subset) same ended
  | missing steps saw none => exact .missing steps (hs.subset saw) none
  | gaveUp lost => exact .gaveUp (lost.trans hs.countP_le)

/-- What was done about a step stays done, whatever came before and after. -/
theorem Rearmed.grow {target : StepId} {s : StepRun} (hr : h.Rearmed run target s)
    (h₁ h₂ : Past) : Past.Rearmed (h₁ ++ (h ++ h₂)) run target s := by
  have hsub : h ⊆ h₁ ++ (h ++ h₂) := fun x hx =>
    List.mem_append_right _ (List.mem_append_left _ hx)
  cases hr with
  | waiting pending idle => exact .waiting pending idle
  | superseded a by_ at_ pending wait did => exact .superseded a by_ at_ pending wait (hsub did)
  | rearmed s' by_ at_ same did => exact .rearmed s' by_ at_ same (hsub did)
  | seenPending s' saw same pending => exact .seenPending s' (saw.subset hsub) same pending
  | missing steps saw none => exact .missing steps (hsub saw) none
  | raced s' by_ at_ newer older same live past saw =>
    refine .raced s' by_ at_ (h₁ ++ newer) (older ++ h₂) same live (by rw [past]; simp) ?_
    exact saw.imp_right (SawStep.subset (List.subset_append_left _ _))

theorem Entered.mono {leader : LeaderTerm} (hs : h <:+ h') (he : h.Entered leader run) :
    h'.Entered leader run := by
  obtain ⟨c, hc, hd⟩ := he
  exact ⟨c, hc.mono hs, fun group policy hg => (hd group policy hg).mono hs⟩

theorem noRearm_append : (h₁ ++ h₂).NoRearm run ↔ h₁.NoRearm run ∧ h₂.NoRearm run := by
  simp only [NoRearm, Did, List.mem_append]
  exact ⟨fun hn => ⟨fun t ht => hn t (.inl ht), fun t ht => hn t (.inr ht)⟩,
    fun hn t ht => ht.elim (hn.1 t) (hn.2 t)⟩

theorem noRearm_nil : Past.NoRearm [] run := fun _ ht => absurd ht List.not_mem_nil

theorem noRearm_move {t : StepTransition} {r : Resp (.write (.commitStepTransition t))}
    (ht : t.to_ ≠ .pending) : Past.NoRearm [⟨.write (.commitStepTransition t), r⟩] run := by
  intro t' hd _
  have he := congrArg Sigma.fst (List.mem_singleton.mp hd)
  rwa [Tx.commitStepTransition.inj (Cmd.write.inj he)]

/-- The call moved no step. -/
def MovesNone (h : Past) : Prop := ∀ t, ¬h.Did (.commitStepTransition t) ()

theorem movesNone_nil : Past.MovesNone [] := fun _ ht => List.not_mem_nil ht

theorem MovesNone.noRearm (hn : h.MovesNone) : h.NoRearm run := fun t ht => absurd ht (hn t)

theorem noRearm_cons {x : Exchange Cmd Resp} :
    NoRearm (x :: h) run ↔ NoRearm [x] run ∧ h.NoRearm run := by
  rw [← noRearm_append, List.singleton_append]

theorem MovesNone.append (h1 : h₁.MovesNone) (h2 : h₂.MovesNone) : Past.MovesNone (h₁ ++ h₂) :=
  fun t ht => (List.mem_append.mp ht).elim (h1 t) (h2 t)

theorem MovesNone.cons {x : Exchange Cmd Resp} (h1 : MovesNone [x]) (h2 : h.MovesNone) :
    MovesNone (x :: h) := h1.append h2

theorem Since.refl {P : Past → Prop} (hP : P []) : h.Since P h := ⟨[], rfl, hP⟩

theorem Since.suffix {P : Past → Prop} (hs : h.Since P h') : h <:+ h' := by
  obtain ⟨new, rfl, -⟩ := hs
  exact List.suffix_append _ _

/-- Join what happened up to a point with what happened after it. -/
theorem Since.trans {P P' P'' : Past → Prop} (h12 : h.Since P h₁) (h23 : h₁.Since P' h₂)
    (hP : ∀ n n', P n → P' n' → P'' (n' ++ n)) : h.Since P'' h₂ := by
  obtain ⟨n, rfl, hn⟩ := h12
  obtain ⟨n', rfl, hn'⟩ := h23
  exact ⟨n' ++ n, by rw [List.append_assoc], hP n n' hn hn'⟩

theorem Since.cons {P P' : Past → Prop} {x : Exchange Cmd Resp} (hs : Past.Since (x :: h) P h')
    (hP : ∀ new, P new → P' (new ++ [x])) : h.Since P' h' := by
  obtain ⟨new, rfl, hn⟩ := hs
  exact ⟨new ++ [x], by simp, hP new hn⟩

/-- An exchange that moves no step. -/
def Still (x : Exchange Cmd Resp) : Prop := ∀ t, x ≠ ⟨.write (.commitStepTransition t), .ok ()⟩

theorem still_read {q : Query} {r : Resp (.read q)} : Still ⟨.read q, r⟩ :=
  fun _ ht => nomatch congrArg Sigma.fst ht

theorem still_ask {q : Ask} {r : Resp (.ask q)} : Still ⟨.ask q, r⟩ :=
  fun _ ht => nomatch congrArg Sigma.fst ht

theorem still_write {t : Tx} {r : Resp (.write t)} (ht : t.isStepMove = false) :
    Still ⟨.write t, r⟩ := by
  intro t' he
  rw [Cmd.write.inj (congrArg Sigma.fst he)] at ht
  exact Bool.noConfusion ht

theorem still_error {t : StepTransition} {e : DbError} :
    Still ⟨.write (.commitStepTransition t), .error e⟩ := by
  intro t' he
  obtain ⟨h1, h2⟩ := Sigma.mk.inj he
  obtain rfl := Tx.commitStepTransition.inj (Cmd.write.inj h1)
  exact nomatch eq_of_heq h2

theorem Still.movesNone {x : Exchange Cmd Resp} (hx : Still x) : Past.MovesNone [x] :=
  fun t ht => hx t (List.mem_singleton.mp ht).symm

theorem StepsSettled.append (hn : h₁.NoRearm run) (hs : h.StepsSettled run) :
    Past.StepsSettled (h₁ ++ h) run := by
  obtain ⟨steps, newer, older, rfl, hno, hall⟩ := hs
  refine ⟨steps, h₁ ++ newer, older, by rw [List.append_assoc], noRearm_append.mpr ⟨hn, hno⟩, ?_⟩
  exact fun s hs => (hall s hs).imp_right (CancelTried.sublist (List.sublist_append_right _ _))

theorem StepsSettled.cons_still {x : Exchange Cmd Resp} (hx : Still x) (hs : h.StepsSettled run) :
    Past.StepsSettled (x :: h) run :=
  hs.append hx.movesNone.noRearm

theorem StepsTerminal.append {steps : List StepRun} (hn : h₁.NoRearm run)
    (hs : h.StepsTerminal run steps) : Past.StepsTerminal (h₁ ++ h) run steps := by
  obtain ⟨hne, hall, newer, older, rfl, hno⟩ := hs
  exact ⟨hne, hall, h₁ ++ newer, older, by rw [List.append_assoc], noRearm_append.mpr ⟨hn, hno⟩⟩

theorem StepsTerminal.cons_still {steps : List StepRun} {x : Exchange Cmd Resp} (hx : Still x)
    (hs : h.StepsTerminal run steps) : Past.StepsTerminal (x :: h) run steps :=
  hs.append hx.movesNone.noRearm

end Past

section quiet

variable {α β : Type}

/-- A program none of whose commands needs backing, and which moves no step. -/
def Quiet (p : Eff α) : Prop :=
  ∀ l (h : Past), p.wp (Backed l) h fun h' _ => h.Since Past.MovesNone h'

/-- A program all of whose commands are backed, whatever came before it. -/
def Safe (p : Eff α) : Prop := ∀ l h, p.wp (Backed l) h fun _ _ => True

theorem Quiet.safe {p : Eff α} (hp : Quiet p) : Safe p := fun l h =>
  Prog.wp_mono (hp l h) fun _ _ _ _ => trivial

theorem Quiet.wp {p : Eff α} (hp : Quiet p) {l : Call} {h : Past} {Q : Past → α → Prop}
    (hQ : ∀ h' a, h.Since Past.MovesNone h' → Q h' a) : p.wp (Backed l) h Q :=
  Prog.wp_mono (hp l h) fun h' a _ hs => hQ h' a hs

theorem Quiet.wp_bind {p : Eff α} {k : α → Eff β} (hp : Quiet p) {l : Call} {h : Past}
    {G : Past → β → Prop} (hk : ∀ h' a, h.Since Past.MovesNone h' → (k a).wp (Backed l) h' G) :
    (p.bind k).wp (Backed l) h G :=
  Prog.wp_bind (hp l h) fun h' a _ hs => hk h' a hs

theorem Safe.wp_bind {p : Eff α} {k : α → Eff β} (hp : Safe p) {l : Call} {h : Past}
    {G : Past → β → Prop} (hk : ∀ h' a, h <:+ h' → (k a).wp (Backed l) h' G) :
    (p.bind k).wp (Backed l) h G :=
  Prog.wp_bind (hp l h) fun h' a hs _ => hk h' a hs

theorem Safe.bind {p : Eff α} {k : α → Eff β} (hp : Safe p) (hk : ∀ a, Safe (k a)) :
    Safe (p.bind k) := fun l _ => hp.wp_bind fun h' a _ => hk a l h'

theorem Safe.attempt {p : Eff α} (hp : Safe p) : Safe p.attempt := fun l h =>
  Prog.wp_attempt (hp l h) (fun _ _ _ _ => trivial) fun _ _ _ => trivial

theorem Safe.forEach {xs : List α} {body : α → Eff Unit} (hbody : ∀ x ∈ xs, Safe (body x)) :
    Safe (Prog.forEach xs body) := fun l _ =>
  Prog.wp_forEach_keeps trivial fun x hx h' _ _ => hbody x hx l h'

theorem quiet_ok (a : α) : Quiet (.ok a : Eff α) := fun _ _ => .refl Past.movesNone_nil

theorem quiet_err (e : Err) : Quiet (.err e : Eff α) := fun _ _ => trivial

theorem quiet_call {c : Cmd} {k : Resp c → Eff α} (hb : ∀ l h, Backed l h c)
    (hc : ∀ r, Past.Still ⟨c, r⟩) (hk : ∀ r, Quiet (k r)) : Quiet (.call c k) := fun l h =>
  ⟨hb l h, fun r => (hk r).wp fun _ _ hs => hs.cons fun _ hn => hn.append (hc r).movesNone⟩

theorem Quiet.bind {p : Eff α} {k : α → Eff β} (hp : Quiet p) (hk : ∀ a, Quiet (k a)) :
    Quiet (p.bind k) := fun _ _ => hp.wp_bind fun _ a hs => (hk a).wp fun _ _ hs' =>
  hs.trans hs' fun _ _ hn hn' => hn'.append hn

theorem quiet_read (q : Query) : Quiet (read q) := by
  refine quiet_call (fun _ _ => trivial) (fun _ => Past.still_read) fun r => ?_
  cases r with
  | ok a => exact quiet_ok a
  | error e => exact quiet_err _

theorem quiet_ask (q : Ask) : Quiet (ask q) :=
  quiet_call (fun _ _ => trivial) (fun _ => Past.still_ask) fun r => quiet_ok r

theorem quiet_now : Quiet now := quiet_ask .now

theorem quiet_commit {t : Tx} (hb : ∀ l h, Backed l h (.write t))
    (ht : ∀ r, Past.Still ⟨.write t, r⟩) : Quiet (commit t) := by
  refine quiet_call hb ht fun r => ?_
  cases r with
  | ok a => exact quiet_ok a
  | error e => exact quiet_err _

theorem quiet_orDb (x : Except DbError α) : Quiet (orDb x) := by
  cases x with
  | ok a => exact quiet_ok a
  | error e => exact quiet_err _

theorem quiet_orExec (x : Except ExecError α) : Quiet (orExec x) := by
  cases x with
  | ok a => exact quiet_ok a
  | error e => exact quiet_err _

theorem Quiet.forEach {xs : List α} {body : α → Eff Unit} (hbody : ∀ x ∈ xs, Quiet (body x)) :
    Quiet (Prog.forEach xs body) := by
  induction xs with
  | nil => exact quiet_ok ()
  | cons x xs ih => exact (hbody x (by simp)).bind fun _ => ih fun y hy => hbody y (by simp [hy])

theorem Quiet.collect {xs : List α} {body : α → Eff β} (hbody : ∀ x ∈ xs, Quiet (body x)) :
    Quiet (Prog.collect xs body) := by
  induction xs with
  | nil => exact quiet_ok []
  | cons x xs ih =>
    refine (hbody x (by simp)).bind fun y => (ih fun z hz => hbody z (by simp [hz])).bind fun ys => ?_
    exact quiet_ok _

end quiet
end Scarab.Engine
