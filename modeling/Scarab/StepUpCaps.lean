import Scarab.StepUpReplays

/-!
# Pending requests are capped

However many replicas raise requests at once, and however their clocks differ, a requester has at
most ten live requests and a human at most twenty.
-/
namespace Scarab.StepUp

open Interleave

section counting

variable {s : Stores} {f : StepUpRequest → Bool}

theorem countP_map_le {α : Type} {f : α → Bool} {m : α → α} {l : List α}
    (h : ∀ x, f (m x) = true → f x = true) : (l.map m).countP f ≤ l.countP f := by
  rw [List.countP_map]
  exact List.countP_mono_left fun x _ hx => h x hx

/-- No command but a raise adds to the pending requests. -/
theorem exec_countP (hpending : ∀ r, f r = true → r.state = .pending)
    (hsealed : ∀ r, f { r with sealed := none } = f r) {x : Store}
    (hx : ∀ r caps now, x ≠ .raiseRequest r caps now) :
    (s.exec x).2.requests.countP f ≤ s.requests.countP f := by
  by_cases hk : x.kind ∈ requestKinds
  case neg => rw [(exec_untouched x).requests hk]
  have hreplaced : ∀ (id : Id) (r' : StepUpRequest), r'.state ≠ .pending →
      (modifyAt (·.id) id (fun _ => r') s.requests).countP f ≤ s.requests.countP f := by
    intro id r' hr'
    refine countP_map_le fun r hr => ?_
    split_ifs at hr
    · exact absurd (hpending _ hr) hr'
    · exact hr
  cases x with
  | raiseRequest r caps now => exact absurd rfl (hx r caps now)
  | beginExecution id by_ confirmation now =>
    simp only [Stores.exec, Stores.done, Stores.beginExecution]
    split
    · exact le_rfl
    · split_ifs
      · exact le_rfl
      · exact le_rfl
      · exact hreplaced _ _ (by simp)
  | finishRequest id state status now =>
    simp only [Stores.exec, Stores.finishRequest]
    split_ifs with hterminal
    · exact le_rfl
    split
    · exact le_rfl
    · split_ifs
      · exact le_rfl
      · refine hreplaced _ _ ?_
        rintro rfl
        simp [RequestState.isTerminal] at hterminal
  | reap now olderThan =>
    refine le_trans (List.Sublist.countP_le List.filter_sublist) (countP_map_le fun r hr => ?_)
    simp only [Stores.dropSealed] at hr
    split_ifs at hr
    · rwa [hsealed] at hr
    · exact hr
  | _ => simp [Store.kind, requestKinds] at hk

/-- A raise that goes through leaves both counts within the caps. -/
theorem exec_raise {r : StepUpRequest} {caps : StepUpRequestPendingCaps} {now : ℤ} :
    (s.exec (.raiseRequest r caps now)).2 = s ∨
      (s.exec (.raiseRequest r caps now)).2 = { s with requests := s.requests ++ [r] } ∧
        s.liveBy r.requester now < caps.perRequester ∧ s.liveFor r.forHuman now < caps.perHuman := by
  simp only [Stores.exec, Stores.raiseRequest]
  split_ifs with hrequester hhuman
  · exact .inl rfl
  · exact .inl rfl
  · exact .inl rfl
  · exact .inr ⟨rfl, by omega, by omega⟩

theorem isLive_antitone {r : StepUpRequest} {now t : ℤ} (hle : now ≤ t) (hr : r.isLive t = true) :
    r.isLive now = true := by
  simp only [StepUpRequest.isLive, decide_eq_true_eq] at hr ⊢
  exact ⟨hr.1, by omega⟩

theorem liveBy_antitone {requester : StepUpRequester} {now t : ℤ} (hle : now ≤ t) :
    s.liveBy requester t ≤ s.liveBy requester now := by
  refine List.countP_mono_left fun r _ hr => ?_
  simp only [decide_eq_true_eq] at hr ⊢
  exact ⟨isLive_antitone hle hr.1, hr.2⟩

theorem liveFor_antitone {human : Text} {now t : ℤ} (hle : now ≤ t) :
    s.liveFor human t ≤ s.liveFor human now := by
  refine List.countP_mono_left fun r _ hr => ?_
  simp only [decide_eq_true_eq] at hr ⊢
  exact ⟨isLive_antitone hle hr.1, hr.2⟩

end counting

/-- Both caps, at a time. -/
def Capped (s : Stores) (t : ℤ) : Prop :=
  (∀ requester, s.liveBy requester t ≤ StepUpRequestPendingCaps.default.perRequester) ∧
    ∀ human, s.liveFor human t ≤ StepUpRequestPendingCaps.default.perHuman

section runs

variable {host : Host} {cond : Config (stepUp host) → Entry (stepUp host) → Prop} {s : Stores}
  {g : Config (stepUp host)}

theorem exec_capped {t : ℤ} {x : Store} (hs : Capped s t)
    (hraise : ∀ r caps now, x = .raiseRequest r caps now → caps = .default ∧ now ≤ t) :
    Capped (s.exec x).2 t := by
  by_cases hx : ∃ r caps now, x = .raiseRequest r caps now
  · obtain ⟨r, caps, now, rfl⟩ := hx
    obtain ⟨rfl, hle⟩ := hraise r caps now rfl
    have hcases : (s.exec (.raiseRequest r .default now)).2 = s ∨ _ := exec_raise
    rcases hcases with heq | ⟨heq, hby, hfor⟩
    · rwa [heq]
    · rw [heq]
      refine ⟨fun requester => ?_, fun human => ?_⟩
      · have hold := hs.1 requester
        have hmono : s.liveBy r.requester t ≤ s.liveBy r.requester now := liveBy_antitone hle
        simp only [Stores.liveBy, List.countP_append, List.countP_singleton] at hold hmono hby ⊢
        split_ifs with hnew
        · simp only [decide_eq_true_eq] at hnew
          rw [← hnew.2]
          omega
        · omega
      · have hold := hs.2 human
        have hmono : s.liveFor r.forHuman t ≤ s.liveFor r.forHuman now := liveFor_antitone hle
        simp only [Stores.liveFor, List.countP_append, List.countP_singleton] at hold hmono hfor ⊢
        split_ifs with hnew
        · simp only [decide_eq_true_eq] at hnew
          rw [← hnew.2]
          omega
        · omega
  · push Not at hx
    refine ⟨fun requester => le_trans ?_ (hs.1 requester), fun human => le_trans ?_ (hs.2 human)⟩
    · refine exec_countP (fun r hr => ?_) (fun r => rfl) hx
      simp only [decide_eq_true_eq, StepUpRequest.isLive] at hr
      exact hr.1.1
    · refine exec_countP (fun r hr => ?_) (fun r => rfl) hx
      simp only [decide_eq_true_eq, StepUpRequest.isLive] at hr
      exact hr.1.1

/-- A clock read no later than a time. -/
def readBy (t : ℤ) : Exchange Cmd Cmd.Resp → Bool
  | ⟨.ask .clock, now⟩ => decide ((now : ℤ) ≤ t)
  | _ => true

/-- In every run, at any time no clock has passed, every requester and every human is within the
caps. -/
theorem requests_capped (hnone : s.requests = []) (hr : Reach cond s g) {t : ℤ}
    (ht : ∀ x ∈ exchanges g.log, readBy t x) : Capped g.state t := by
  revert ht
  refine Runs.keeps (P := fun g : Config (stepUp host) =>
    (∀ x ∈ exchanges g.log, readBy t x) → Capped g.state t) ?_ hr ?_
  · intro g e g₁ hrun hs _ ih ht
    have hold : Capped g.state t := by
      refine ih fun x hx => ht x ?_
      obtain ⟨pid, hx⟩ := mem_exchanges.mp hx
      rw [hs.log_eq]
      exact mem_exchanges.mpr ⟨pid, ownOf_subset (List.subset_cons_self _ _) hx⟩
    rcases hs.state_cases with ⟨hstate, -⟩ | ⟨c, r, a, hw, hresp⟩
    · rwa [hstate]
    · rcases respond_state hresp with hstate | hstate | ⟨x, rfl, hstate⟩
      · rwa [hstate]
      · rw [hstate]
        exact hold
      · rw [hstate]
        refine exec_capped hold ?_
        rintro q caps now rfl
        have hj : g.Justified (Duty host) fun _ _ _ => True := Reach.justified handle_duty hrun
        obtain ⟨l, -, hduty⟩ := hs.justified hj hw
        obtain ⟨caller, raw, routed, org, summary, requester, sealed, -, -, -, -, -, -, hcaps,
          hclock, -⟩ := hduty.raise q caps now rfl
        refine ⟨hcaps, of_decide_eq_true (ht ⟨.ask .clock, now⟩ ?_)⟩
        rw [hs.log_eq]
        exact mem_exchanges.mpr ⟨e.pid, ownOf_subset (List.subset_cons_self _ _) hclock⟩
  · intro _
    simp [Capped, Stores.liveBy, Stores.liveFor, Config.init, hnone]

/-- Eleven requests of one token, of which ten are live. -/
theorem requests_capped_full : ∃ g, Reach (M := stepUp sampleHost) (fun _ _ => True) sampleStores g ∧
    Capped g.state 0 ∧ g.state.liveBy (.apiToken ['t']) 0 = 10 := by
  obtain ⟨g, hr, htest⟩ := Reach.of_play (M := stepUp sampleHost) sampleStores
    ((List.range 11).flatMap fun i =>
      [.start (.governed sampleMachine ⟨[], ['p'], [], [7]⟩), .runOut i 12 sampleAnswer])
    (fun g => (exchanges g.log).all (readBy 0) && g.state.liveBy (.apiToken ['t']) 0 = 10)
    (by decide +kernel)
  rw [Bool.and_eq_true, List.all_eq_true] at htest
  exact ⟨g, hr, requests_capped rfl hr htest.1, of_decide_eq_true htest.2⟩

end runs
end Scarab.StepUp
