import Scarab.EngineBackedAdmission

/-!
# Backed: launches and teardowns

A launch intent is retired only once its step has left the Attempt behind or its unit is
queued for teardown, and a teardown only once each unit it names is gone.
-/
namespace Scarab.Engine

open Interleave

variable {l : Call} {h h' : Past}

namespace Past

variable {run : RunId} {step : StepId} {attempt : AttemptId}

end Past

theorem launchStillWanted_wp {run : RunId} {step : StepId} {attempt : AttemptId} :
    (launchStillWanted run step attempt).wp (Backed l) h fun (h' : Past) wanted =>
      wanted = false → h'.Unwanted run step attempt := by
  refine wp_read_bind fun steps => ?_
  split
  · refine wp_read_bind fun status hno => ?_
    exact .settled status List.mem_cons_self hno
  · next hgone => exact fun _ => .moved steps List.mem_cons_self (Bool.eq_false_iff.mpr hgone)

section intent

variable {id : ℕ} {msg : OutboxMessage} {intent : LaunchIntent}

theorem enqueueLateLaunchTeardown_wp (hc : h.Claimed .launchStep id msg)
    (hp : msg.payload = .launch intent)
    (hu : h.Unwanted intent.run intent.step intent.attempt) :
    (enqueueLateLaunchTeardown intent.run intent.step intent.attempt).wp (Backed l) h
      fun (h' : Past) _ => ∃ at_, h'.Did (.enqueueOutbox
        (lateLaunchTeardown intent.run intent.step intent.attempt at_)) () :=
  wp_now_bind fun at_ => wp_commit ⟨id, msg, intent, at_, hc.mono (List.suffix_cons _ _), hp,
    hu.mono (List.suffix_cons _ _), rfl⟩ fun _ => ⟨at_, List.mem_cons_self⟩

theorem adoptUnitOfRefusedLaunch_wp (hc : h.Claimed .launchStep id msg)
    (hp : msg.payload = .launch intent)
    (hu : h.Unwanted intent.run intent.step intent.attempt) :
    (adoptUnitOfRefusedLaunch intent.run intent.step intent.attempt).wp (Backed l) h
      fun (h' : Past) _ => h'.Asked (.unitHandle intent.run intent.step intent.attempt) none ∨
        (∃ handle, h'.Did (.setAttemptHandle intent.run intent.step intent.attempt handle) ()) ∧
        ∃ at_, h'.Did (.enqueueOutbox
          (lateLaunchTeardown intent.run intent.step intent.attempt at_)) () := by
  refine wp_ask_bind fun handle => ?_
  cases handle with
  | none => exact .inl List.mem_cons_self
  | some handle =>
    refine wp_commit_bind (.inl List.mem_cons_self) fun _ => ?_
    refine Prog.wp_mono (enqueueLateLaunchTeardown_wp (hc.mono ⟨[_, _], rfl⟩) hp
      (hu.mono ⟨[_, _], rfl⟩)) fun h' _ hsuf hdid => .inr ⟨⟨handle, ?_⟩, hdid⟩
    exact hsuf.subset List.mem_cons_self

section verdict

variable {run : RunId} {step : StepId} {attempt : AttemptId}

theorem finalizeStep_wp {to_ : StepStatus} {failure : Option FailureKind} {cause : Option String}
    (hto : to_ = .succeeded ∨ to_ = .failed)
    (hm : ∀ at_, StepMove l (⟨.ask .now, at_⟩ :: h)
      (finalizeCommit run step attempt to_ failure cause at_)) :
    (finalizeStep run step attempt to_ failure cause).wp (Backed l) h
      fun (h' : Past) _ => h'.LeftBehind run step attempt :=
  wp_now_bind fun at_ => wp_commitOrLose (hm at_)
    (fun _ => .finalized to_ failure cause at_ hto (.inl List.mem_cons_self))
    (.finalized to_ failure cause at_ hto (.inr List.mem_cons_self))

theorem settleFailedAttempt_wp {st : ExecState} {kind : FailureKind} {cause : Option String}
    (hp : h.Polled run step attempt st) (hst : st ≠ .succeeded) :
    (settleFailedAttempt run step attempt kind cause).wp (Backed l) h
      fun (h' : Past) _ => h'.LeftBehind run step attempt := by
  refine wp_read_bind fun attempts => ?_
  split
  · next hstale => exact .stale attempts List.mem_cons_self hstale
  · next hstale =>
    refine wp_commit_bind ⟨st, hp.mono (List.suffix_cons _ _), hst⟩ fun _ => ?_
    refine wp_read_bind fun events => wp_read_bind fun ir => ?_
    dsimp only
    split
    · next hused =>
      refine wp_now_bind fun at_ => wp_commitOrLose
        (.retry run step attempt kind cause at_ (by simp [Past.Did])
          ⟨attempts, events, ir, [_, _], _, rfl, by simpa using hstale, by simp [Past.Saw], hused⟩)
        (fun _ => .retried kind cause at_ (.inl List.mem_cons_self))
        (.retried kind cause at_ (.inr List.mem_cons_self))
    · exact finalizeStep_wp (.inr rfl) fun at_ =>
        .fail run step attempt kind cause at_ (.inl (by simp [Past.Did]))

theorem succeedStep_wp (hp : h.Polled run step attempt .succeeded) :
    (succeedStep run step attempt).wp (Backed l) h
      fun (h' : Past) _ => h'.LeftBehind run step attempt := by
  refine wp_read_bind fun attempts => ?_
  split
  · next hstale => exact .stale attempts List.mem_cons_self hstale
  · exact finalizeStep_wp (.inl rfl) fun at_ =>
      .succeed run step attempt at_ (hp.mono ⟨[_, _], rfl⟩)

end verdict

theorem failBeforeStart_wp {reason : String} (hc : h.Claimed .launchStep id msg)
    (hp : msg.payload = .launch intent)
    (hr : h.Refused intent.run intent.step intent.attempt) :
    (failBeforeStart id intent reason).wp (Backed l) h fun _ r => r = none := by
  refine Prog.wp_bind (finalizeStep_wp (.inr rfl) fun at_ => .fail _ _ _ _ _ at_
    (.inr (hr.mono (List.suffix_cons _ _)))) fun h₁ _ hsuf hleft => ?_
  exact wp_commit_bind (.launch msg intent (hc.mono hsuf) hp (.refused (hr.mono hsuf) hleft))
    fun _ => rfl

theorem recordLaunched_wp {handle : Text} {spec : StepSpec} {launched : Launched}
    (hc : h.Claimed .launchStep id msg) (hp : msg.payload = .launch intent)
    (ha : h.Asked (.launch intent.run intent.step intent.attempt spec) launched)
    (hl : launched.result = .ok handle) :
    (recordLaunched id intent handle).wp (Backed l) h fun (h' : Past) r => ∀ handle,
      r = some handle → h'.UnitOf intent.run intent.step intent.attempt handle := by
  refine wp_commit_bind (.inr ⟨spec, launched, ha, hl⟩) fun _ => ?_
  refine Prog.wp_bind launchStillWanted_wp fun h₁ wanted hsuf₁ hu => ?_
  have hset : Past.Did h₁ (.setAttemptHandle intent.run intent.step intent.attempt handle) () :=
    hsuf₁.subset List.mem_cons_self
  cases wanted with
  | true =>
    intro handle' he
    obtain rfl := Option.some.inj he
    exact .inr hset
  | false =>
    have hc₁ := hc.mono ((List.suffix_cons _ _).trans hsuf₁)
    refine Prog.wp_bind (enqueueLateLaunchTeardown_wp hc₁ hp (hu rfl)) fun h₂ _ hsuf₂ hdid => ?_
    refine wp_commit_bind (.launch msg intent (hc₁.mono hsuf₂) hp (.unwanted ((hu rfl).mono hsuf₂)
      (.inr ⟨⟨handle, hset.mono hsuf₂⟩, hdid⟩))) fun _ => ?_
    exact nofun

theorem stampConsumed_quiet (run : RunId) (step : StepId) (attempt : AttemptId)
    (upstream : List StepId) : Quiet (stampConsumed run step attempt upstream) := by
  refine Quiet.bind (Quiet.collect fun up _ => (quiet_read _).bind fun _ => quiet_ok _)
    fun found => ?_
  dsimp only
  split
  · exact quiet_ok ()
  · exact quiet_commit (fun _ _ => trivial) fun _ => Past.still_write rfl

theorem resolveInputs_quiet (run : RunId) (step : StepId) (attempt : AttemptId) (spec : StepSpec) :
    Quiet (resolveInputs run step attempt spec) := by
  refine (quiet_read _).bind fun all => ?_
  split
  · exact quiet_ok _
  · refine (quiet_read _).bind fun explicit => Quiet.bind
      (Quiet.collect fun s _ => (quiet_read _).bind fun _ => quiet_ok _) fun outputs => ?_
    refine Quiet.bind ?_ fun _ => (stampConsumed_quiet _ _ _ _).bind fun _ => quiet_ok _
    simp only [stampInputSteps]
    split
    · exact quiet_ok ()
    · exact quiet_commit (fun _ _ => trivial) fun _ => Past.still_write rfl

theorem launchUnit_wp (hc : h.Claimed .launchStep id msg) (hp : msg.payload = .launch intent) :
    (launchUnit id intent).wp (Backed l) h fun (h' : Past) r => ∀ handle,
      r = some handle → h'.UnitOf intent.run intent.step intent.attempt handle := by
  refine wp_read_bind fun spec => ?_
  split
  · trivial
  · next spec =>
    refine (resolveInputs_quiet _ _ _ spec).wp_bind fun h₁ spec' hn => ?_
    have hc₁ := hc.mono ((List.suffix_cons _ _).trans hn.suffix)
    refine wp_ask_bind fun rendered => wp_orDb_bind fun outcome hren => ?_
    split
    · next reason =>
      refine Prog.wp_mono (failBeforeStart_wp (hc₁.mono (List.suffix_cons _ _)) hp
        (.inl ⟨spec', reason, ?_⟩)) fun h' r _ hr handle he => ?_
      · rw [← hren]
        exact List.mem_cons_self
      · rw [hr] at he
        cases he
    · next spec'' =>
      refine wp_now_bind fun at_ => wp_ask_bind fun launched => ?_
      have hc₂ : Past.Claimed (⟨.ask (.launch intent.run intent.step intent.attempt spec''),
          launched⟩ :: ⟨.ask .now, at_⟩ ::
            ⟨.ask (.renderLaunchSpec intent.run intent.step spec'), rendered⟩ :: h₁)
          .launchStep id msg := hc₁.mono ⟨[_, _, _], rfl⟩
      split
      · next handle hok => exact recordLaunched_wp hc₂ hp List.mem_cons_self hok
      · next reason hrefused =>
        refine Prog.wp_mono (failBeforeStart_wp hc₂ hp
          (.inr ⟨spec'', launched, reason, List.mem_cons_self, hrefused⟩)) fun h' r _ hr handle he => ?_
        rw [hr] at he
        cases he
      · trivial

theorem noteReadoption_quiet (run : RunId) (step : StepId) (attempt : AttemptId) :
    Quiet (noteReadoption run step attempt) := by
  refine (quiet_ask _).bind fun first => ?_
  split
  · exact quiet_now.bind fun _ => append_quiet (by simp)
  · exact quiet_ok ()

theorem launchOrAdopt_wp (hc : h.Claimed .launchStep id msg) (hp : msg.payload = .launch intent) :
    (launchOrAdopt id intent).wp (Backed l) h fun (h' : Past) r => ∀ handle,
      r = some handle → h'.UnitOf intent.run intent.step intent.attempt handle := by
  refine wp_read_bind fun recorded => ?_
  cases recorded with
  | some handle =>
    refine (noteReadoption_quiet _ _ _).wp_bind fun h₁ _ hn handle' he => ?_
    obtain rfl := Option.some.inj he
    exact .inl (hn.suffix.subset List.mem_cons_self)
  | none =>
    refine Prog.wp_bind launchStillWanted_wp fun h₁ wanted hsuf₁ hu => ?_
    have hc₁ := hc.mono ((List.suffix_cons _ _).trans hsuf₁)
    cases wanted with
    | true => exact launchUnit_wp hc₁ hp
    | false =>
      refine Prog.wp_bind (adoptUnitOfRefusedLaunch_wp hc₁ hp (hu rfl)) fun h₂ _ hsuf₂ hlate => ?_
      refine wp_commit_bind (.launch msg intent (hc₁.mono hsuf₂) hp
        (.unwanted ((hu rfl).mono hsuf₂) hlate)) fun _ => ?_
      exact nofun

theorem recordOutput_quiet (intent : LaunchIntent) (handle : Text) :
    Quiet (recordOutput intent handle) := by
  refine (quiet_ask _).bind fun x => (quiet_orExec _).bind fun output => ?_
  split
  · exact quiet_ok ()
  · exact (quiet_ask _).bind fun y => (quiet_orExec _).bind fun identity =>
      quiet_commit (fun _ _ => trivial) fun _ => Past.still_write rfl

theorem recordResults_quiet (intent : LaunchIntent) (handle : Text) :
    Quiet (recordResults intent handle) := by
  refine (quiet_ask _).bind fun x => (quiet_orExec _).bind fun results => ?_
  split
  · exact quiet_ok ()
  · exact quiet_commit (fun _ _ => trivial) fun _ => Past.still_write rfl

theorem recordArtifacts_quiet (intent : LaunchIntent) (handle : Text) (succeeded : Bool) :
    Quiet (recordArtifacts intent handle succeeded) := by
  refine (quiet_ask _).bind fun x => (quiet_orExec _).bind fun artifacts => ?_
  split
  · exact quiet_ok ()
  · exact quiet_now.bind fun at_ =>
      quiet_commit (fun _ _ => trivial) fun _ => Past.still_write rfl

theorem launchedInputSteps_quiet (run : RunId) (step : StepId) (attempt : AttemptId) :
    Quiet (launchedInputSteps run step attempt) := by
  refine (quiet_read _).bind fun launched => ?_
  split
  · exact quiet_ok _
  · refine (quiet_read _).bind fun all => ?_
    split
    · exact quiet_ok _
    · exact (quiet_read _).bind fun explicit => Quiet.bind
        (Quiet.collect fun s _ => (quiet_read _).bind fun _ => quiet_ok _) fun _ => quiet_ok _

theorem recordWorkspaceCollisions_safe (intent : LaunchIntent) (handle : Text) :
    Safe (recordWorkspaceCollisions intent handle) := by
  refine Safe.bind (Safe.attempt (Quiet.safe ?_)) fun _ => (quiet_ok ()).safe
  refine (quiet_ask _).bind fun x => (quiet_orExec _).bind fun report => ?_
  split
  · exact quiet_ok ()
  · split
    · exact quiet_ok ()
    · refine (launchedInputSteps_quiet _ _ _).bind fun ordered => ?_
      split
      · exact quiet_ok ()
      · exact quiet_now.bind fun _ => append_quiet (by simp)

theorem settleSucceeded_wp {handle : Text} (hc : h.Claimed .launchStep id msg)
    (hp : msg.payload = .launch intent)
    (hpoll : h.Polled intent.run intent.step intent.attempt .succeeded) :
    (settleSucceeded id intent handle).wp (Backed l) h fun _ _ => True := by
  refine (recordOutput_quiet intent handle).wp_bind fun h₁ _ hn₁ =>
    (recordResults_quiet intent handle).wp_bind fun h₂ _ hn₂ =>
      (recordArtifacts_quiet intent handle true).wp_bind fun h₃ _ hn₃ =>
        (recordWorkspaceCollisions_safe intent handle).wp_bind fun h₄ _ hsuf => ?_
  have hall := ((hn₁.suffix.trans hn₂.suffix).trans hn₃.suffix).trans hsuf
  refine Prog.wp_bind (succeedStep_wp (hpoll.mono hall)) fun h₅ _ hsuf₅ hleft => ?_
  exact wp_commit (.launch msg intent (hc.mono (hall.trans hsuf₅)) hp
    (.polled .succeeded (hpoll.mono (hall.trans hsuf₅)) hleft)) fun _ => trivial

theorem retireFailed_wp {st : ExecState} {kind : FailureKind} {cause : Option String}
    (hc : h.Claimed .launchStep id msg) (hp : msg.payload = .launch intent)
    (hpoll : h.Polled intent.run intent.step intent.attempt st) (hst : st ≠ .succeeded) :
    ((settleFailedAttempt intent.run intent.step intent.attempt kind cause).bind fun _ =>
      commit (.markDispatched id)).wp (Backed l) h fun _ _ => True := by
  refine Prog.wp_bind (settleFailedAttempt_wp hpoll hst) fun h₁ _ hsuf hleft => ?_
  exact wp_commit (.launch msg intent (hc.mono hsuf) hp (.polled st (hpoll.mono hsuf) hleft))
    fun _ => trivial

theorem settleFailed_wp {handle : Text} {class_ : FailureClass} {cause : Option String}
    (hc : h.Claimed .launchStep id msg) (hp : msg.payload = .launch intent)
    (hpoll : h.Polled intent.run intent.step intent.attempt (.failed class_ cause)) :
    (settleFailed id intent handle class_ cause).wp (Backed l) h fun _ _ => True := by
  refine (recordArtifacts_quiet intent handle false).wp_bind fun h₁ _ hn₁ => ?_
  have hcollide : Safe (collisionsOfFailure intent handle class_) := by
    simp only [collisionsOfFailure]
    split
    · exact recordWorkspaceCollisions_safe intent handle
    · exact (quiet_ok ()).safe
  refine hcollide.wp_bind fun h₂ _ hsuf => ?_
  have hall := hn₁.suffix.trans hsuf
  exact retireFailed_wp (hc.mono hall) hp (hpoll.mono hall) nofun

theorem superviseRunning_wp {cfg : SchedulerConfig} {handle : Text} {st : ExecState}
    (hc : h.Claimed .launchStep id msg) (hp : msg.payload = .launch intent)
    (hpoll : h.Polled intent.run intent.step intent.attempt st) (hst : st ≠ .succeeded) :
    (superviseRunning cfg id intent handle).wp (Backed l) h fun _ _ => True := by
  refine wp_read_bind fun attempts => ?_
  split
  · trivial
  · refine Prog.wp_bind (Q := fun _ _ => True) (wp_read_bind fun ir => trivial)
      fun h₁ timeoutMs hsuf _ => wp_now_bind fun at_ => ?_
    split
    · refine wp_ask_bind fun stopped => ?_
      have hall : h <:+ ⟨.ask (.cancel handle), stopped⟩ :: ⟨.ask .now, at_⟩ :: h₁ :=
        ((List.suffix_cons _ _).trans hsuf).trans ⟨[_, _], rfl⟩
      exact retireFailed_wp (hc.mono hall) hp (hpoll.mono hall) hst
    · trivial

theorem pollUnit_wp {cfg : SchedulerConfig} {handle : Text}
    (hc : h.Claimed .launchStep id msg) (hp : msg.payload = .launch intent)
    (hu : h.UnitOf intent.run intent.step intent.attempt handle) :
    (pollUnit cfg id intent handle).wp (Backed l) h fun _ _ => True := by
  refine wp_ask_bind fun polled => wp_orExec_bind fun st hst => ?_
  have hpoll : Past.Polled (⟨.ask (.poll handle), polled⟩ :: h) intent.run intent.step
      intent.attempt st := ⟨handle, hu.mono (List.suffix_cons _ _), by rw [← hst]; exact
        List.mem_cons_self⟩
  have hc' : Past.Claimed (⟨.ask (.poll handle), polled⟩ :: h) .launchStep id msg :=
    hc.mono (List.suffix_cons _ _)
  cases st with
  | succeeded => exact settleSucceeded_wp hc' hp hpoll
  | failed class_ cause => exact settleFailed_wp hc' hp hpoll
  | lost => exact retireFailed_wp hc' hp hpoll nofun
  | pending => exact superviseRunning_wp hc' hp hpoll nofun
  | running => exact superviseRunning_wp hc' hp hpoll nofun

end intent

theorem processLaunchIntent_wp {cfg : SchedulerConfig} {id : ℕ} {msg : OutboxMessage}
    (hc : h.Claimed .launchStep id msg) :
    (processLaunchIntent cfg id msg).wp (Backed l) h fun _ _ => True := by
  simp only [processLaunchIntent]
  split
  · next intent hp =>
    refine Prog.wp_bind (launchOrAdopt_wp hc hp) fun h₁ unit hsuf hu => ?_
    cases unit with
    | none => trivial
    | some handle => exact pollUnit_wp (hc.mono hsuf) hp (hu handle rfl)
  · trivial

theorem countFailedDelivery_safe (id : ℕ) (msg : OutboxMessage) (e : Err) :
    Safe (countFailedDelivery id msg e) := by
  intro l h
  refine wp_commit_bind trivial fun failures => ?_
  split
  · exact wp_commit_bind trivial fun _ => deadLetterRun_safe _ _ l _
  · trivial

theorem reconcileMessage_wp {cfg : SchedulerConfig} {owner : Text} {m : ℕ × OutboxMessage}
    (hc : h.Claimed .launchStep m.1 m.2) :
    (reconcileMessage cfg owner m).wp (Backed l) h fun _ _ => True := by
  have hheld : Safe (holdsClaim cfg owner m.1) := by
    simp only [holdsClaim]
    split
    · exact (quiet_ok _).safe
    · refine Quiet.safe (quiet_commit ?_ ?_)
      · exact fun _ _ => trivial
      · exact fun _ => Past.still_write rfl
  refine hheld.wp_bind fun h₁ held hsuf => ?_
  split
  · refine Prog.wp_bind (Q := fun _ _ => True) (Prog.wp_attempt (processLaunchIntent_wp
      (hc.mono hsuf)) (fun _ _ _ _ => trivial) fun _ _ _ => trivial) fun h₂ r _ _ => ?_
    cases r with
    | ok a => trivial
    | error e => exact countFailedDelivery_safe _ _ e l h₂
  · trivial

theorem reconcile_wp (cfg : SchedulerConfig) (owner : Text) :
    (reconcile cfg owner).wp (Backed l) [] fun _ _ => True := by
  refine wp_commit_bind (.inr rfl) fun msgs => Prog.wp_forEach_keeps (I := fun _ => True) trivial
    fun m hm h' hsuf _ => reconcileMessage_wp ?_
  exact ⟨owner, _, msgs, hsuf.subset List.mem_cons_self, hm⟩

theorem countTeardown_safe (id : ℕ) (msg : OutboxMessage) (why : String) :
    Safe (countTeardown id msg why) := by
  intro l h
  refine wp_commit_bind trivial fun failures => ?_
  split
  · exact wp_commit_bind trivial fun _ => wp_now_bind fun at_ => (append_quiet (by simp)).safe l _
  · trivial

theorem cancelUntilGone_wp {handle : Text} :
    (cancelUntilGone handle).wp (Backed l) h fun (h' : Past) gone => gone = .ok true →
      ∃ newer older : Past, h' = newer ++
        (⟨.ask (.tornDown handle), .ok true⟩ : Exchange Cmd Resp) :: older ∧ h <:+ older := by
  refine wp_ask_bind fun stopped => ?_
  cases stopped with
  | error e => exact nofun
  | ok _ =>
    refine wp_ask fun gone he => ?_
    subst he
    exact ⟨[], _, rfl, List.suffix_cons _ _⟩

/-- A pass that is still clean after a unit was clean before it and saw the unit gone. -/
theorem absorb_why {p : TeardownPass} {unit : Except ExecError Bool} {handle : Text}
    (hw : (p.absorb unit handle).why = none) : p.why = none ∧ unit = .ok true := by
  rcases unit with e | b
  · simp [TeardownPass.absorb, TeardownPass.why] at hw
  · cases b with
    | true => exact ⟨hw, rfl⟩
    | false => cases p <;> simp [TeardownPass.absorb, TeardownPass.why] at hw

theorem awaitLaunch_why {p : TeardownPass} {key : Text} : (p.awaitLaunch key).why ≠ none := by
  cases p <;> simp [TeardownPass.awaitLaunch, TeardownPass.why]

theorem teardownUnit_wp {run : RunId} {p : TeardownPass} {item : TeardownAttempt} :
    (teardownUnit run p item).wp (Backed l) h fun (h' : Past) p' =>
      p'.why = none → p.why = none ∧ h'.Gone run item := by
  refine wp_read_bind fun recorded => ?_
  cases recorded with
  | some handle =>
    refine Prog.wp_bind cancelUntilGone_wp fun h₁ unit _ hgone => ?_
    intro hw
    obtain ⟨hp, hunit⟩ := absorb_why hw
    obtain ⟨newer, older, rfl, hsuf⟩ := hgone hunit
    exact ⟨hp, .tornDown handle newer older rfl (hsuf.subset List.mem_cons_self)⟩
  | none =>
    refine wp_read_bind fun pending => ?_
    cases pending with
    | true => exact fun hw => absurd hw awaitLaunch_why
    | false => exact fun hw => ⟨hw, .unlaunched [] _ rfl List.mem_cons_self⟩

/-- A pass over the units a message names is clean only if each was seen gone. -/
theorem teardownUnits_wp {run : RunId} {items : List TeardownAttempt} {p : TeardownPass} :
    (Prog.foldEach items p (teardownUnit run)).wp (Backed l) h fun (h' : Past) p' =>
      p'.why = none → p.why = none ∧ ∀ item ∈ items, h'.Gone run item := by
  induction items generalizing h p with
  | nil => exact fun hw => ⟨hw, by simp⟩
  | cons item items ih =>
    refine Prog.wp_bind teardownUnit_wp fun h₁ p₁ _ hone => ?_
    refine Prog.wp_mono ih fun h₂ p₂ hsuf hall hw => ?_
    obtain ⟨hp₁, hrest⟩ := hall hw
    obtain ⟨hp, hgone⟩ := hone hp₁
    refine ⟨hp, fun x hx => ?_⟩
    rcases List.mem_cons.mp hx with rfl | hx
    · exact hgone.mono hsuf
    · exact hrest x hx

theorem settleTeardown_wp {id : ℕ} {msg : OutboxMessage} {p : TeardownPass}
    (hd : p.why = none → h.Dispatches id) :
    (settleTeardown id msg p).wp (Backed l) h fun _ _ => True := by
  simp only [settleTeardown]
  split
  · next hw => exact wp_commit (hd hw) fun _ => trivial
  · exact countTeardown_safe _ _ _ l h

theorem processTeardown_wp {id : ℕ} {msg : OutboxMessage} {kind : OutboxKind}
    (hk : kind = .cancelAttempt ∨ kind = .supersedeTeardown) (hc : h.Claimed kind id msg) :
    (processTeardown id msg).wp (Backed l) h fun _ _ => True := by
  simp only [processTeardown]
  split
  · next items hp =>
    refine Prog.wp_bind teardownUnits_wp fun h₁ p hsuf hall => settleTeardown_wp fun hw => ?_
    exact .teardown msg kind items hk (hc.mono hsuf) hp (hall hw).2
  · trivial

theorem isolateMessage_wp {id : ℕ} {msg : OutboxMessage} {work : Eff Unit}
    (hw : work.wp (Backed l) h fun _ _ => True) :
    (isolateMessage id msg work).wp (Backed l) h fun _ _ => True := by
  refine Prog.wp_bind (Q := fun _ _ => True) (Prog.wp_attempt hw (fun _ _ _ _ => trivial)
    fun _ _ _ => trivial) fun h₁ r _ _ => ?_
  cases r with
  | ok a => trivial
  | error e => exact countTeardown_safe _ _ _ l h₁

theorem drainAttemptTeardowns_wp (cfg : SchedulerConfig) (owner : Text) (kind : OutboxKind)
    (hk : kind = .cancelAttempt ∨ kind = .supersedeTeardown) :
    (drainAttemptTeardowns cfg owner kind).wp (Backed l) [] fun _ _ => True := by
  refine wp_commit_bind (.inr rfl) fun msgs => Prog.wp_forEach_keeps (I := fun _ => True) trivial
    fun m hm h' hsuf _ => isolateMessage_wp (processTeardown_wp hk ?_)
  exact ⟨owner, _, msgs, hsuf.subset List.mem_cons_self, hm⟩

theorem teardownCancelled_quiet (run : RunId) (p : TeardownPass) (item : TeardownAttempt) :
    Quiet (teardownCancelled run p item) := by
  refine (quiet_read _).bind fun recorded => ?_
  split
  · exact quiet_ok _
  · refine Quiet.bind ?_ fun _ => quiet_ok _
    refine (quiet_ask _).bind fun stopped => ?_
    split
    · exact quiet_ok _
    · exact quiet_ask _

theorem teardownService_quiet (run : RunId) (p : TeardownPass) (svc : RunService) :
    Quiet (teardownService run p svc) := by
  have hset : Quiet (commit (.setRunService none run svc.take svc.name .tornDown none)) :=
    quiet_commit (fun _ _ => trivial) fun _ => Past.still_write rfl
  simp only [teardownService]
  split
  · exact hset.bind fun _ => quiet_ok _
  · refine (quiet_ask _).bind fun stopped => ?_
    split
    · exact quiet_ok _
    · exact hset.bind fun _ => quiet_ok _

theorem processCancelRun_wp {id : ℕ} {msg : OutboxMessage} (hc : h.Claimed .cancelRun id msg) :
    (processCancelRun id msg).wp (Backed l) h fun _ _ => True := by
  have hlegacy : Safe (teardownLegacyCancel msg) := by
    simp only [teardownLegacyCancel]
    split
    · exact (quiet_read _).safe.bind fun steps l h => Prog.wp_foldEach trivial
        fun p item _ h' _ _ => (teardownCancelled_quiet msg.run p item).safe l h'
    · exact (quiet_ok _).safe
  refine hlegacy.wp_bind fun h₁ p hsuf₁ => wp_read_bind fun status => wp_read_bind fun rows => ?_
  refine Prog.wp_bind (Q := fun _ _ => True) (Prog.wp_foldEach trivial fun p svc _ h' _ _ =>
    (teardownService_quiet msg.run p svc).safe l h') fun h₂ p' hsuf₂ _ => ?_
  refine settleTeardown_wp fun _ => .services msg (hc.mono ?_)
  exact hsuf₁.trans ((List.suffix_append [_, _] _).trans hsuf₂)

theorem reconcileCancellations_wp (cfg : SchedulerConfig) (owner : Text) :
    (reconcileCancellations cfg owner).wp (Backed l) [] fun _ _ => True := by
  refine Prog.wp_bind (drainAttemptTeardowns_wp cfg owner _ (.inl rfl)) fun h _ _ _ => ?_
  refine wp_commit_bind (.inl rfl) fun msgs => Prog.wp_forEach_keeps (I := fun _ => True) trivial
    fun m hm h' hsuf _ => isolateMessage_wp (processCancelRun_wp ?_)
  exact ⟨owner, _, msgs, hsuf.subset List.mem_cons_self, hm⟩

section services

variable {cfg : SchedulerConfig} {leader : LeaderTerm} {run : RunId} {take : ℤ} {name : Text}

theorem setRunService_quiet {leader : Option LeaderTerm} {status : ServiceStatus}
    {handle : Option Text} : Quiet (commit (.setRunService leader run take name status handle)) :=
  quiet_commit (fun _ _ => trivial) fun _ => Past.still_write rfl

theorem launchServiceBounded_quiet {createdAt at_ : Timestamp} :
    Quiet (launchServiceBounded cfg leader run take name createdAt at_) := by
  refine (quiet_ask _).bind fun launched => ?_
  split
  · exact setRunService_quiet.bind fun _ => quiet_ok _
  · split
    · exact setRunService_quiet.bind fun _ => quiet_ok _
    · exact quiet_ok _

theorem pollHealthy_quiet (leader : LeaderTerm) (run : RunId) (r : RunService) :
    Quiet (pollHealthy leader run r) := by
  simp only [pollHealthy]
  split
  · exact quiet_ok ()
  · refine (quiet_ask _).bind fun ready => (quiet_orExec _).bind fun b => ?_
    split
    · exact quiet_ok ()
    · exact setRunService_quiet

theorem pollStarting_quiet (cfg : SchedulerConfig) (leader : LeaderTerm) (run : RunId)
    (r : RunService) (handle : Option Text) (at_ : Timestamp) :
    Quiet (pollStarting cfg leader run r handle at_) := by
  simp only [pollStarting]
  split
  · exact quiet_ok ()
  · refine (quiet_ask _).bind fun ready => (quiet_orExec _).bind fun b => ?_
    split
    · exact setRunService_quiet
    · split
      · exact setRunService_quiet
      · exact quiet_ok ()

theorem reconcileService_quiet (cfg : SchedulerConfig) (leader : LeaderTerm) (run : RunId)
    (rows : List RunService) (take : ℤ) (at_ : Timestamp) (name : Text) :
    Quiet (reconcileService cfg leader run rows take at_ name) := by
  simp only [reconcileService]
  split
  · refine Quiet.bind (quiet_commit ?_ ?_) fun _ =>
      launchServiceBounded_quiet.bind fun _ => quiet_ok ()
    · exact fun _ _ => trivial
    · exact fun _ => Past.still_write rfl
  · next r _ =>
    split
    · refine Quiet.bind ?_ fun handle => pollStarting_quiet cfg leader run r handle at_
      simp only [startingHandle]
      split
      · exact quiet_ok _
      · exact launchServiceBounded_quiet
    · exact pollHealthy_quiet leader run r
    · exact pollHealthy_quiet leader run r
    · exact quiet_ok ()
    · exact quiet_ok ()

theorem reconcileServicesAsLeader_quiet (cfg : SchedulerConfig) (leader : LeaderTerm)
    (run : RunId) : Quiet (reconcileServicesAsLeader cfg leader run) := by
  refine (quiet_read _).bind fun ir => ?_
  split
  · exact quiet_ok ()
  · refine (quiet_read _).bind fun status => ?_
    split
    · exact quiet_err _
    · split
      · exact teardownServices_quiet _ run
      · refine (quiet_read _).bind fun rows => quiet_now.bind fun at_ => Quiet.bind
          (Quiet.forEach fun r _ => ?_) fun _ =>
            Quiet.forEach fun name _ => reconcileService_quiet cfg leader run rows _ at_ name
        exact (stopServiceUnit_quiet r).bind fun _ => setRunService_quiet

theorem reconcileServices_safe (cfg : SchedulerConfig) (owner : Text) (run : RunId) :
    Safe (reconcileServices cfg owner run) := by
  refine (leaderTerm_quiet owner).safe.bind fun term => ?_
  split
  · exact (quiet_ok _).safe
  · exact leaderLeg_safe (reconcileServicesAsLeader_quiet cfg _ run).safe

end services

theorem sweepUnfinishedCreations_safe (cfg : SchedulerConfig) (owner : Text) :
    Safe (sweepUnfinishedCreations cfg owner) := by
  intro l h
  refine (leaderTerm_quiet owner).wp_bind fun h₁ term _ => ?_
  split
  · trivial
  · next term =>
    refine wp_now_bind fun at_ => wp_read_bind fun stale => Prog.wp_bind (Q := fun _ _ => True)
      (Prog.wp_foldEach trivial fun live run hrun h' hsuf _ => ?_) fun _ _ _ _ => trivial
    split
    · refine Prog.wp_bind (Q := fun _ _ => True) (Prog.wp_attempt
        (commitRunTransitionAfter_wp fun generation => .uncreated term run _ stale _ at_ generation
          (List.mem_cons_of_mem _ (hsuf.subset List.mem_cons_self)) hrun)
        (fun _ _ _ _ => trivial) fun _ _ _ => trivial) fun h₂ r _ _ => ?_
      split
      · trivial
      · trivial
      · trivial
    · trivial

theorem recordApprovalMet_safe (run : RunId) (step : StepId) (approvers : List Text)
    (required : Option ℕ) (releaseAt : Timestamp) :
    Safe (recordApprovalMet run step approvers required releaseAt) :=
  quiet_now.safe.bind fun _ => (append_quiet (by simp)).safe

theorem Safe.returning {α : Type} {p : Eff α} (hp : Safe p) {f : α → Value} {Q : Past → Value → Prop}
    (hQ : ∀ h' a, Q h' (f a)) : (returning p f).wp (Backed l) h Q :=
  hp.wp_bind fun h' a _ => hQ h' a

/-- Every command of every call is backed, and what it returns is fulfilled. -/
theorem body_backed (l : Call) : (l.body).wp (Backed l) [] (Fulfilled l) := by
  cases l with
  | admitRun cfg owner run => exact (admit_safe cfg owner run).returning fun _ _ => trivial
  | reconcile cfg owner => exact Prog.wp_bind (reconcile_wp cfg owner) fun _ _ _ _ => trivial
  | reconcileCancellations cfg owner =>
    exact Prog.wp_bind (reconcileCancellations_wp cfg owner) fun _ _ _ _ => trivial
  | reconcileSupersessions cfg owner =>
    exact Prog.wp_bind (drainAttemptTeardowns_wp cfg owner _ (.inr rfl)) fun _ _ _ _ => trivial
  | reconcileServices cfg owner run =>
    exact (reconcileServices_safe cfg owner run).returning fun _ _ => trivial
  | sweepUnfinishedCreations cfg owner =>
    exact (sweepUnfinishedCreations_safe cfg owner).returning fun _ _ => trivial
  | advance run => exact (advance_safe run).returning fun _ _ => trivial
  | deadLetterRun run reason => exact (deadLetterRun_safe run reason).returning fun _ _ => trivial
  | cancelRunRequest run by_ =>
    refine Prog.wp_bind cancelRunRequest_wp fun h' accepted _ hacc => ?_
    cases accepted with
    | true => exact hacc rfl
    | false => trivial
  | rerunStep snapshots run target by_ =>
    have hl : Call.Reruns run target (.rerunStep snapshots run target by_) := ⟨rfl, rfl⟩
    exact Prog.wp_bind (rerunStepWidened_wp hl) fun h' plan _ hplan => hplan
  | retryStep snapshots run target by_ =>
    have hl : Call.Reruns run target (.retryStep snapshots run target by_) := ⟨rfl, rfl⟩
    exact Prog.wp_bind (retryStepWidened_wp hl) fun h' plan _ hplan => hplan
  | releaseGate run step => exact (releaseGate_safe run step).returning fun _ _ => trivial
  | rejectGate run step by_ reason =>
    exact (rejectGate_safe run step by_ reason).returning fun _ _ => trivial
  | resolvePluginGate run step releaser attempt verdict =>
    exact (resolvePluginGate_safe run step releaser attempt verdict).returning fun _ _ => trivial
  | recordGateApproval run step by_ =>
    exact Prog.wp_bind recordGateApproval_wp fun _ _ _ _ => trivial
  | recordApprovalMet run step approvers required releaseAt =>
    exact (recordApprovalMet_safe run step approvers required releaseAt).returning
      fun _ _ => trivial
  | ingestAttemptResults run step attempt results =>
    exact wp_commit_bind trivial fun _ => trivial

end Scarab.Engine
