import Scarab.RunSupervision

/-!
# One active run to a concurrency group

A run takes its group's slot before it starts and the slot is stored by name, so a group's
active run is its holder: unless a settled run is brought back without its slot, or a slot
is freed under a run that is still live.
-/
namespace Scarab.Engine

open Interleave

variable {run : RunId} {group : Text} {policy : ConcurrencyPolicy} {db₀ : Db}
  {cond : Config engine → Entry engine → Prop} {g g₁ : Config engine} {e : Entry engine}

/-- The run occupies its group: it has started and not ended. -/
def Active (db : Db) (run : RunId) : Prop := db.runs run = .running ∨ db.runs run = .suspended

/-- At most one run of a group is active, and it is the stored holder of the group's slot. -/
structure SlotsExclusive (db : Db) : Prop where
  one : ∀ group run run' policy policy', db.concurrency run = some (group, policy) →
    db.concurrency run' = some (group, policy') → Active db run → Active db run' → run = run'
  holder : ∀ group run policy, db.concurrency run = some (group, policy) → Active db run →
    db.slots group = some run

/-- The steps under which an active run keeps its group's slot. -/
structure KeepsSlots (g : Config engine) (e : Entry engine) : Prop where
  reopen : ∀ run group policy, g.db.concurrency run = some (group, policy) →
    (g.db.runs run).isTerminal = true → (e.post.runs run).isTerminal = false →
      g.db.slots group = some run
  release : ∀ group run, e.Did (.releaseSlot group run) () → g.db.slots group = some run →
    (g.db.runs run).isTerminal = true

theorem Active.live {db : Db} (h : Active db run) : (db.runs run).isTerminal = false := by
  rcases h with h | h <;> simp [h, RunStatus.isTerminal]

/-- A run that has left Pending is one of the store's. -/
theorem mem_runIds_of_started (hfresh : db₀.Fresh) (hr : Reach cond db₀ g)
    (hne : g.db.runs run ≠ .pending) : run ∈ g.db.runIds := by
  induction hr with
  | refl => exact absurd (hfresh.runs run) hne
  | @tail g₁ g₂ e init hs hm ih =>
    have hr : Reach cond db₀ g₁ := init
    rw [(hr.step_shape hs).1]
    rcases hr.step_run hs run with ⟨hsame, -⟩ | ⟨t, l, -, -, -, -, -, -, -, hmem, -⟩
    · rw [hsame] at hne
      exact ih hne
    · exact hmem

/-- A step leaves the slot of a live holder alone. -/
theorem slot_kept (hr : Reach cond db₀ g) (hs : Step g e g₁)
    (hrel : ∀ group run, e.Did (.releaseSlot group run) () → g.db.slots group = some run →
      (g.db.runs run).isTerminal = true)
    (hmem : run ∈ g.db.runIds) (hlive : (g.db.runs run).isTerminal = false)
    (hslot : g.db.slots group = some run) : g₁.db.slots group = some run := by
  rcases hr.step_cases hs with hsame | ⟨t, a, hc⟩
  · rw [hsame, hslot]
  · obtain ⟨w, hexec⟩ := hc.exec
    cases ht : t.isSlotMove with
    | false => rw [(Tx.exec_frame hexec).slots ht, hslot]
    | true =>
      cases t with
      | acquireSlot leader group' run' =>
        rcases Db.acquireSlot_ok hexec with ⟨-, hdb, hfree⟩ | ⟨-, hdb⟩
        · rw [hdb]
          by_cases hgroup : group = group'
          · subst hgroup
            rcases hfree run hslot with rfl | hended
            · simp
            · simp [Db.runStatus, hmem, hlive] at hended
          · rw [Function.update_of_ne hgroup, hslot]
        · rw [hdb, hslot]
      | releaseSlot group' run' =>
        have hd := hc.did
        have hdb : g.db.releaseSlot group' run' = g₁.db := Except.ok.inj (Tx.done_eq_ok hexec)
        rw [← hdb, Db.releaseSlot]
        split_ifs with hheld
        · have hterm := hrel group' run' hd hheld
          by_cases hgroup : group' = group
          · subst hgroup
            obtain rfl : run' = run := Option.some.inj (hheld.symm.trans hslot)
            simp [hlive] at hterm
          · simpa [Function.update_of_ne (Ne.symm hgroup)] using hslot
        · exact hslot
      | _ => simp [Tx.isSlotMove] at ht

/-- A run that is still Pending holds the slot it once acquired. -/
theorem slot_of_acquired (hr : Reach KeepsSlots db₀ g) {pid : ℕ}
    {leader : LeaderTerm} (hd : Past.Did (ownOf g.log pid) (.acquireSlot leader group run) none)
    (hmem : run ∈ g.db.runIds) (hpend : g.db.runs run = .pending) :
    g.db.slots group = some run := by
  obtain ⟨g₀, e, g₁, newer, hr₀, hs, hm, hrun, -, -, hw⟩ := hr.moment hd
  obtain ⟨w, hexec⟩ := hs.write_eq hw
  have hr₁ : Reach KeepsSlots db₀ g₁ := hr₀.next hs hm
  have hslot : g₁.db.slots group = some run := by
    rcases Db.acquireSlot_ok hexec with ⟨-, hdb, -⟩ | ⟨hno, -⟩
    · simp [hdb]
    · exact absurd rfl hno
  -- a run never returns to Pending, so it was Pending all along
  have hkept : g.db.slots group = some run ∨ g.db.runs run ≠ .pending := by
    refine hrun.keeps (P := fun g' => g'.db.slots group = some run ∨ g'.db.runs run ≠ .pending)
      (fun g' e g'' hpre hs hm ih => ?_) (.inl hslot)
    have hr' := hr₁.extend hpre
    rcases hr'.step_run hs run with ⟨hsame, -⟩ | ⟨t, l, -, -, -, hmove, -, hto, -⟩
    · rw [hsame]
      rcases ih with ih | ih
      · by_cases hp : g'.db.runs run = .pending
        · have hmem' : run ∈ g'.db.runIds := by rwa [hr'.shape.1, ← hr.shape.1]
          exact .inl (slot_kept hr' hs hm.release hmem' (by rw [hp]; rfl) ih)
        · exact .inr hp
      · exact .inr ih
    · rw [hto]
      exact .inr hmove.to_ne_pending
  exact hkept.resolve_right (not_not_intro hpend)

/-- An active run holds its group's slot. -/
theorem slot_of_active (hfresh : db₀.Fresh) (hr : Reach KeepsSlots db₀ g)
    (hgroup : db₀.concurrency run = some (group, policy)) (hact : Active g.db run) :
    g.db.slots group = some run := by
  induction hr with
  | refl =>
    have hp := hfresh.runs run
    rcases hact with h | h <;> cases hp.symm.trans h
  | @tail g₁ g₂ e init hs hm ih =>
    have hr : Reach KeepsSlots db₀ g₁ := init
    have hmem₂ := mem_runIds_of_started hfresh (hr.next hs hm)
      (by rcases hact with h | h <;> simp [h] : g₂.db.runs run ≠ .pending)
    have hmem : run ∈ g₁.db.runIds := by rwa [(hr.step_shape hs).1] at hmem₂
    rcases hr.step_run hs run with ⟨hsame, -⟩ | ⟨t, l, hd, rfl, -, hmove, hfrom, hto, -⟩
    · have hact₁ : Active g₁.db run := by rwa [Active, hsame] at hact
      exact slot_kept hr hs hm.release hmem hact₁.live (ih hact₁)
    · -- a move of the run leaves the slots alone
      obtain ⟨w, hexec⟩ := hs.write_eq hd
      rw [(Tx.exec_frame hexec).slots rfl]
      have hlive : (t.to_).isTerminal = false := by
        rw [← hto]
        exact hact.live
      cases hmove with
      | start leader run at_ generation slot =>
        obtain ⟨c, hsaw, hdid⟩ := slot
        obtain ⟨g₀, -, -, hr₀, rfl, -⟩ := hr.saw hsaw
        have hc : g₀.db.concurrency run = some (group, policy) := by
          rw [hr₀.shape.2.2.2]
          exact hgroup
        exact slot_of_acquired hr (hdid group policy hc) hmem hfrom
      | resume => exact ih (.inr hfrom)
      | suspend => exact ih (.inl hfrom)
      | reopen run target from_ at_ generation reruns ended =>
        refine hm.reopen run group policy (by rw [hr.shape.2.2.2]; exact hgroup) ?_ ?_
        · exact (congrArg RunStatus.isTerminal hfrom).trans ended
        · rw [Entry.post, hs.after_eq]
          exact hact.live
      | settle run from_ steps =>
        simp only [runTransition, settledAs] at hlive
        split_ifs at hlive <;> cases hlive
      | cancel | overBudget | deadLetter | uncreated => cases hlive

/-- While no settled run is brought back without its slot and no slot is freed under a live
run, a group has at most one active run, its holder. -/
theorem slotsExclusive_of_keepsSlots (hfresh : db₀.Fresh) (hr : Reach KeepsSlots db₀ g) :
    SlotsExclusive g.db := by
  have hholder : ∀ group run policy, g.db.concurrency run = some (group, policy) →
      Active g.db run → g.db.slots group = some run := by
    intro group run policy hgroup hact
    rw [hr.shape.2.2.2] at hgroup
    exact slot_of_active hfresh hr hgroup hact
  refine ⟨fun group run run' policy policy' h h' hact hact' => ?_, hholder⟩
  have hslot := hholder group run policy h hact
  have hslot' := hholder group run' policy' h' hact'
  exact Option.some.inj (hslot.symm.trans hslot')

/-- Two runs of one step, in one group. -/
def sharedDb : Db :=
  createdDb [runR, runS] [(stepA, [], none)] fun _ => some ("g".toList, .queue)

/-- The step frees no slot and brings no run back. -/
def keepsSlot (e : Entry engine) : Bool :=
  match e.what with
  | .did (.write (.releaseSlot _ _)) _ => false
  | .did (.write (.commitRunTransition t)) _ => !t.from_.isTerminal
  | _ => true

theorem keepsSlots_of_keepsSlot (hr : Reach (fun _ _ => True) db₀ g)
    (hlog : ∀ e ∈ g.log, keepsSlot e = true) : Reach KeepsSlots db₀ g := by
  refine hr.of_log hlog fun g e g₁ hg hs _ he =>
    ⟨fun run group policy _ hterm hlive => ?_, fun group run hd => ?_⟩
  · rw [Entry.post, hs.after_eq] at hlive
    rcases hg.step_run hs run with ⟨hsame, -⟩ | ⟨t, l, hd, -, -, -, hfrom, -⟩
    · rw [hsame, hterm] at hlive
      cases hlive
    · simp [keepsSlot, hd, ← hfrom, hterm] at he
  · simp [keepsSlot, hd] at he

/-- The first run starts and holds the slot; the second has to wait. -/
theorem slotsExclusive_of_keepsSlots_queued : ∃ g, Reach KeepsSlots sharedDb g ∧
    g.db.runs runR = .running ∧ g.db.runs runS = .pending ∧ SlotsExclusive g.db := by
  obtain ⟨g, hg, htest⟩ := Reach.of_play (M := engine) sharedDb
    [.start (.admitRun plainConfig [] runR), .runOut 0 60 (calm .running none),
      .start (.admitRun plainConfig [] runS), .runOut 1 60 (calm .running none)]
    (fun g => g.log.all keepsSlot &&
      decide (g.db.runs runR = .running ∧ g.db.runs runS = .pending)) (by decide +kernel)
  simp only [Bool.and_eq_true, List.all_eq_true, decide_eq_true_eq] at htest
  have hr := keepsSlots_of_keepsSlot hg htest.1
  exact ⟨g, hr, htest.2.1, htest.2.2, slotsExclusive_of_keepsSlots (createdDb_fresh _ _ _) hr⟩

/-- The first run settles and frees the slot, the second takes it, and a rerun of the first
brings it back beside the second. -/
theorem not_slotsExclusive_after_rerun :
    ¬∀ (db₀ : Db) (g : Config engine), db₀.Fresh → Reach (fun _ e => Faultless e = true) db₀ g →
      SlotsExclusive g.db := by
  intro hall
  obtain ⟨g, hg, htest⟩ := Reach.of_play (M := engine) sharedDb
    [.start (.admitRun plainConfig [] runR), .runOut 0 60 (calm .succeeded none),
      .start (.reconcile plainConfig []), .runOut 1 60 (calm .succeeded none),
      .start (.advance runR), .runOut 2 60 (calm .succeeded none),
      .start (.admitRun plainConfig [] runS), .runOut 3 60 (calm .running none),
      .start (.rerunStep false runR stepA none), .runOut 4 60 (calm .running none)]
    (fun g => g.log.all Faultless && decide (g.db.runs runR = .running ∧
      g.db.runs runS = .running ∧ g.db.concurrency runR = some ("g".toList, .queue) ∧
      g.db.concurrency runS = some ("g".toList, .queue))) (by decide +kernel)
  simp only [Bool.and_eq_true, List.all_eq_true, decide_eq_true_eq] at htest
  obtain ⟨hcalm, hrunR, hrunS, hgroupR, hgroupS⟩ := htest
  have hr : Reach (fun _ e => Faultless e = true) sharedDb g :=
    hg.of_log hcalm fun _ _ _ _ _ _ he => he
  have hsame := (hall sharedDb g (createdDb_fresh _ _ _) hr).one _ _ _ _ _ hgroupR hgroupS
    (.inl hrunR) (.inl hrunS)
  exact absurd hsame (by decide)

end Scarab.Engine
