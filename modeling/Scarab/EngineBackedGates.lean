import Scarab.EngineBackedRuns

/-!
# Backed: gates

Whoever resolves a gate has seen it, and seen it reached if it was waiting.
-/
namespace Scarab.Engine

open Interleave

variable {l : Call} {h h' : Past} {run : RunId} {step : StepId}

theorem ResolutionBacked.mono (hs : h <:+ h') (hr : ResolutionBacked h run step) :
    ResolutionBacked h' run step := by
  obtain ⟨steps, gate, hsaw, hrest⟩ := hr
  exact ⟨steps, gate, hsaw.mono hs, hrest⟩

theorem needs_of_gateReached {gate : StepRun} {steps : List StepRun}
    (hr : gateReached gate steps = true) :
    ∀ n ∈ gate.needs, ∃ s ∈ steps, s.step = n ∧ s.status = .succeeded := by
  simpa [gateReached] using hr

theorem needs_of_depsSatisfied {gate : StepRun} {steps : List StepRun}
    (hd : depsSatisfied steps gate = true) :
    ∀ n ∈ gate.needs, ∃ s ∈ steps, s.step = n ∧ s.status = .succeeded := by
  intro n hn
  have hstat : statusOf steps n = some .succeeded := by
    simpa using List.all_eq_true.mp hd n hn
  obtain ⟨s, hfind, hs⟩ := Option.map_eq_some_iff.mp hstat
  exact ⟨s, List.mem_of_find?_eq_some hfind, by simpa using List.find?_some hfind, hs⟩

theorem legacyStart_quiet (run : RunId) (gate : StepRun) (fence : Option AttemptId)
    (at_ : Timestamp) : Quiet (legacyStart run gate fence at_) := by
  simp only [legacyStart]
  split
  · exact quiet_ok _
  · exact (quiet_read _).bind fun _ => quiet_ok _

theorem resolveGate_wp {gate : StepRun} {v : GateVerdict} {by_ : Option Text}
    {fence : Option AttemptId} (hr : ResolutionBacked h run gate.step) :
    (resolveGate run gate v by_ fence).wp (Backed l) h fun _ _ => True := by
  refine wp_now_bind fun at_ => (legacyStart_quiet run gate fence at_).wp_bind fun h₁ legacy hn => ?_
  exact wp_commit_bind (hr.mono ((List.suffix_cons _ _).trans hn.suffix)) fun _ => trivial

theorem reopenIfRunnable_safe (run : RunId) : Safe (reopenIfRunnable run) := by
  intro l h
  refine wp_read_bind fun status => ?_
  split
  · refine wp_read_bind fun steps => ?_
    split
    · trivial
    · exact wp_now_bind fun at_ => Prog.wp_mono (commitRunTransitionAfter_wp fun generation =>
        .resume none run at_ _ generation) fun _ _ _ _ => trivial
  · trivial

theorem releaseGate_safe (run : RunId) (step : StepId) : Safe (releaseGate run step) := by
  intro l h
  refine (ensureCreationFinished_quiet run).wp_bind fun h₁ _ _ => wp_read_bind fun steps => ?_
  split
  · trivial
  · next gate hfind =>
    split
    · trivial
    · next hreached =>
      have hgate : gate.step = step ∧ gate.isGate = true := by
        simpa using List.find?_some hfind
      refine Prog.wp_bind (resolveGate_wp ⟨steps, gate, List.mem_cons_self,
        List.mem_of_find?_eq_some hfind, rfl, hgate.2, fun hp => ?_⟩) fun h₂ closed _ _ => ?_
      · exact needs_of_gateReached (by simpa [hp] using hreached)
      · split
        · exact reopenIfRunnable_safe run l h₂
        · trivial

theorem rejectGate_safe (run : RunId) (step : StepId) (by_ : Text) (reason : String) :
    Safe (rejectGate run step by_ reason) := by
  intro l h
  refine (ensureCreationFinished_quiet run).wp_bind fun h₁ _ _ => wp_read_bind fun steps => ?_
  split
  · trivial
  · next gate hfind =>
    split
    · trivial
    · next hrej =>
      split
      · trivial
      · split
        · trivial
        · next hreached =>
          have hgate : gate.isGate = true := by
            cases hk : gate.gateKind with
            | none => simp [hk] at hrej
            | some kind => simp [StepRun.isGate, hk]
          refine Prog.wp_bind (resolveGate_wp ⟨steps, gate, List.mem_cons_self,
            List.mem_of_find?_eq_some hfind, rfl, hgate, fun _ => ?_⟩) fun h₂ closed _ _ => ?_
          · exact needs_of_gateReached (by simpa using hreached)
          · split
            · exact (reopenIfRunnable_safe run).wp_bind fun _ _ _ => trivial
            · trivial

theorem releasesPluginGate_quiet (run : RunId) (step : StepId) (releaser : Text) :
    Quiet (releasesPluginGate run step releaser) := by
  refine (quiet_read _).bind fun steps => ?_
  split
  · exact (quiet_read _).bind fun _ => quiet_ok _
  · exact quiet_ok _

theorem pluginVerdict_quiet (run : RunId) (step : StepId) (releaser : Text)
    (v : PluginGateVerdict) : Quiet (pluginVerdict run step releaser v) := by
  simp only [pluginVerdict]
  split
  · refine (quiet_ask _).bind fun checked => (quiet_orDb _).bind fun outcome => ?_
    split
    · exact quiet_err _
    · exact quiet_err _
    · exact quiet_ok _
  · split
    · exact quiet_err _
    · exact quiet_ok _

theorem resolvePluginGate_safe (run : RunId) (step : StepId) (releaser : Text)
    (attempt : AttemptId) (v : PluginGateVerdict) :
    Safe (resolvePluginGate run step releaser attempt v) := by
  intro l h
  refine wp_read_bind fun steps => ?_
  split
  · trivial
  · next gate hfind =>
    have hgate : gate.step = step ∧ gate.gateKind = some .plugin := by
      simpa using List.find?_some hfind
    refine (releasesPluginGate_quiet run step releaser).wp_bind fun h₁ releases hn₁ => ?_
    split
    · trivial
    · split
      · trivial
      · split
        · trivial
        · next hreached =>
          split
          · trivial
          · next wait _ =>
            split
            · trivial
            · refine wp_now_bind fun at_ => wp_read_bind fun ir => ?_
              split
              · trivial
              · refine (pluginVerdict_quiet run step releaser v).wp_bind fun h₂ outcome hn₂ => ?_
                refine wp_commit_bind ?_ fun closed => ?_
                · refine ⟨steps, gate, ?_, List.mem_of_find?_eq_some hfind, hgate.1, ?_, fun _ => ?_⟩
                  · exact hn₂.suffix.subset (List.mem_cons_of_mem _ (List.mem_cons_of_mem _
                      (hn₁.suffix.subset List.mem_cons_self)))
                  · simp [StepRun.isGate, hgate.2]
                  · exact needs_of_gateReached (by simpa using hreached)
                · split
                  · exact (reopenIfRunnable_safe run).wp_bind fun _ _ _ => trivial
                  · trivial

/-- An approval is recorded by a call that saw its gate Pending and reached. -/
theorem recordGateApproval_wp {by_ : Text} :
    (recordGateApproval run step by_).wp (Backed (.recordGateApproval run step by_)) h
      fun _ _ => True := by
  refine (ensureCreationFinished_quiet run).wp_bind fun h₁ _ _ => wp_read_bind fun steps => ?_
  split
  · trivial
  · next gate hfind =>
    split
    · trivial
    · split
      · trivial
      · next hpend =>
        split
        · trivial
        · next hreached =>
          refine wp_read_bind fun events => ?_
          split
          · trivial
          · refine wp_now_bind fun at_ => wp_commit ⟨fun s b he => ?_, rfl⟩ fun _ => trivial
            obtain ⟨rfl, rfl⟩ := EventPayload.gateApproved.inj he
            exact ⟨rfl, steps, gate, by simp [Past.Saw], List.mem_of_find?_eq_some hfind,
              by simpa using List.find?_some hfind, by simpa using hpend, by simpa using hreached⟩

theorem gateVerdict_quiet (run : RunId) (gate : StepRun) (wait : Attempt) (settings : GateSettings)
    (releaseAt : Option Timestamp) (at_ : Timestamp) :
    Quiet (gateVerdict run gate wait settings releaseAt at_) := by
  simp only [gateVerdict]
  split
  · split
    · exact quiet_ok _
    · exact quiet_ok _
  · refine (quiet_read _).bind fun secs => ?_
    split
    · exact quiet_ok _
    · exact quiet_ok _
  · exact quiet_ok _
  · exact quiet_ok _

theorem readEvents_quiet (run : RunId) (p : GatePass) : Quiet (p.readEvents run) := by
  simp only [GatePass.readEvents]
  split
  · exact quiet_ok _
  · exact (quiet_read _).bind fun _ => quiet_ok _

theorem readIr_quiet (run : RunId) (p : GatePass) : Quiet (p.readIr run) := by
  simp only [GatePass.readIr]
  split
  · exact quiet_ok _
  · exact (quiet_read _).bind fun _ => quiet_ok _

theorem gateWait_wp {leader : LeaderTerm} {gate : StepRun} {p : GatePass}
    (hg : h.SawGate run gate.step) :
    (gateWait leader run gate p).wp (Backed l) h fun _ _ => True := by
  simp only [gateWait]
  split
  · trivial
  · refine (readEvents_quiet run p).wp_bind fun h₁ x hn => wp_now_bind fun at_ => ?_
    exact wp_commit_bind (hg.mono (hn.suffix.trans (List.suffix_cons _ _))) fun _ => trivial

theorem storeGateInputs_wp {leader : LeaderTerm} {gate : StepRun} {wait : Attempt}
    (hr : ResolutionBacked h run gate.step) :
    (storeGateInputs leader run gate wait).wp (Backed l) h fun _ _ => True := by
  simp only [storeGateInputs]
  split
  · trivial
  · refine wp_read_bind fun stored => ?_
    split
    · trivial
    · refine wp_ask_bind fun rendered => wp_orDb_bind fun outcome _ => ?_
      split
      · exact wp_commit_bind trivial fun _ => trivial
      · exact Prog.wp_bind (resolveGate_wp (hr.mono ⟨[_, _], rfl⟩)) fun _ _ _ _ => trivial

theorem approvalReleaseAt_quiet (run : RunId) (gate : StepRun) (settings : GateSettings)
    (p : GatePass) : Quiet (approvalReleaseAt run gate settings p) := by
  simp only [approvalReleaseAt]
  split
  · exact (readEvents_quiet run p).bind fun _ => quiet_ok _
  · exact quiet_ok _

theorem refuseRelease_quiet (run : RunId) (gate : StepRun) (v : GateVerdict) :
    Quiet (refuseRelease run gate v) := by
  simp only [refuseRelease]
  split
  · refine (quiet_ask _).bind fun refusal => (quiet_orExec _).bind fun outcome => ?_
    split
    · exact quiet_ok _
    · exact quiet_ok _
  · exact quiet_ok _

theorem settleWait_wp {gate : StepRun} {wait : Attempt} {p : GatePass}
    (hr : ResolutionBacked h run gate.step) :
    (settleWait run gate wait p).wp (Backed l) h fun _ _ => True := by
  refine (readIr_quiet run p).wp_bind fun h₁ x hn₁ => ?_
  refine (approvalReleaseAt_quiet run gate _ _).wp_bind fun h₂ y hn₂ => wp_now_bind fun at_ => ?_
  refine (gateVerdict_quiet run gate wait _ _ at_).wp_bind fun h₃ v hn₃ => ?_
  split
  · trivial
  · next v =>
    refine (refuseRelease_quiet run gate v).wp_bind fun h₄ v' hn₄ => ?_
    have hsuf := (hn₁.suffix.trans hn₂.suffix).trans
      ((List.suffix_cons _ _).trans (hn₃.suffix.trans hn₄.suffix))
    exact Prog.wp_bind (resolveGate_wp (hr.mono hsuf)) fun _ _ _ _ => trivial

theorem evaluateGate_wp {leader : LeaderTerm} {steps : List StepRun} {p : GatePass}
    {gate : StepRun} (hsaw : h.Saw (.stepsOfRun run) steps) (hmem : gate ∈ steps)
    (hgate : gate.isGate = true) :
    (evaluateGate leader run steps p gate).wp (Backed l) h fun _ _ => True := by
  simp only [evaluateGate]
  split
  · next hdeps =>
    have hr : ResolutionBacked h run gate.step :=
      ⟨steps, gate, hsaw, hmem, rfl, hgate, fun _ => needs_of_depsSatisfied hdeps⟩
    refine Prog.wp_bind (gateWait_wp ⟨gate, ⟨steps, hsaw, hmem⟩, rfl, hgate⟩)
      fun h₁ x hsuf _ => ?_
    obtain ⟨wait, p'⟩ := x
    cases wait with
    | none => trivial
    | some wait =>
      refine Prog.wp_bind (storeGateInputs_wp (hr.mono hsuf)) fun h₂ waits hsuf₂ _ => ?_
      split
      · exact settleWait_wp (hr.mono (hsuf.trans hsuf₂))
      · trivial
  · split
    · trivial
    · next a _ =>
      refine wp_now_bind fun at_ => wp_commit_bind ⟨rfl, ⟨gate,
        ⟨steps, List.mem_cons_of_mem _ hsaw, hmem⟩, rfl, hgate⟩,
        fun e he => ⟨none, at_, (Option.some.inj he).symm⟩⟩ fun _ => trivial

theorem evaluateWaitingGates_safe (leader : LeaderTerm) (run : RunId) :
    Safe (evaluateWaitingGates leader run) := by
  intro l h
  refine wp_read_bind fun steps => Prog.wp_bind (Prog.wp_foldEach (I := fun _ _ => True) trivial
    fun p gate hg h' hsuf _ => ?_) fun _ _ _ _ => trivial
  have hg := List.mem_filter.mp hg
  refine evaluateGate_wp (hsuf.subset List.mem_cons_self) hg.1 ?_
  simpa using (of_decide_eq_true hg.2).1

theorem settleUnneededGate_wp {steps : List StepRun} {p : GatePass} {gate : StepRun}
    (hsaw : h.Saw (.stepsOfRun run) steps) (hmem : gate ∈ steps) (hgate : gate.isGate = true) :
    (settleUnneededGate run steps p gate).wp (Backed l) h fun _ _ => True := by
  simp only [settleUnneededGate]
  split
  · trivial
  · split
    · refine wp_now_bind fun at_ => Prog.wp_bind (Q := fun _ _ => True) (wp_commitOrLose
        (.unneeded run gate at_ ⟨steps, List.mem_cons_of_mem _ hsaw, hmem⟩ hgate)
        (fun _ => trivial) trivial) fun _ _ _ _ => trivial
    · split
      · refine (readEvents_quiet run p).wp_bind fun h₁ x hn => ?_
        split
        · refine Prog.wp_bind (Q := fun _ _ => True) (wp_now_bind fun at_ => wp_commitOrLose
            (.revive run gate.step at_ ⟨gate, ⟨steps, ?_, hmem⟩, rfl, hgate⟩)
            (fun _ => trivial) trivial) fun _ _ _ _ => trivial
          exact List.mem_cons_of_mem _ (hn.suffix.subset hsaw)
        · trivial
      · trivial

theorem settleUnneededGates_safe (run : RunId) : Safe (settleUnneededGates run) := by
  intro l h
  refine wp_read_bind fun steps => Prog.wp_bind (Prog.wp_foldEach (I := fun _ _ => True) trivial
    fun p gate hg h' hsuf _ => ?_) fun _ _ _ _ => trivial
  have hg := List.mem_filter.mp hg
  exact settleUnneededGate_wp (hsuf.subset List.mem_cons_self) hg.1 hg.2

end Scarab.Engine
