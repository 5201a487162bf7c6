import Scarab.ApprovalGates
import Scarab.GraphInsertion
import Scarab.TextEncoding

/-!
# The gate requirement puts authority behind an approval

What the searches of the gate requirement find, and what the pipeline it returns keeps.
-/
namespace Scarab.Policy

open Scarab.Pipeline Scarab.Project GraphSearch Relation
open RunCreate (usesEnvironmentAuthority)

/-- Unique ids, resolved needs and no cycle. -/
structure WellFormed (steps : List StepSpec) : Prop where
  unique : (steps.map (·.id)).Nodup
  resolved : ∀ s ∈ steps, ∀ n ∈ s.needs, n ∈ steps.map (·.id)
  acyclic : ∀ id, ¬ TransGen (Edge steps) id id

/-- A `manual` gate is upstream of a step. -/
def BehindManualGate (steps : List StepSpec) (id : Text) : Prop :=
  ∃ g ∈ steps, isManualGate g = true ∧ TransGen (Edge steps) id g.id

/-- Of the steps of `ir`, one that is excluded, or is needed, directly or not, by `id` and is
excluded. The needs are those of `steps`. -/
def Dead (ir : PipelineIr) (excluded : List Text) (steps : List StepSpec) (id : Text) : Prop :=
  ∃ s ∈ ir.steps, s.id ∈ excluded ∧ (id = s.id ∨ TransGen (Edge steps) id s.id)

/-- A step that can start uses the Environment's authority with no manual gate upstream. -/
def MissesGate (ir : PipelineIr) (excluded : List Text) (id : Text) : Prop :=
  ∃ s ∈ ir.steps, s.id = id ∧ usesEnvironmentAuthority ir s = true ∧
    ¬ Dead ir excluded ir.steps id ∧ ¬ BehindManualGate ir.steps id

section searches

variable {steps : List StepSpec}

theorem byId_eq (h : (steps.map (·.id)).Nodup) {s : StepSpec} (hs : s ∈ steps) :
    byId steps s.id = some s := by
  cases hfound : byId steps s.id with
  | none =>
    simp only [byId, List.find?_eq_none, List.mem_reverse, decide_eq_true_eq] at hfound
    exact absurd rfl (hfound s hs)
  | some t =>
    have ht : t ∈ steps := List.mem_reverse.mp (List.mem_of_find?_eq_some hfound)
    have hid : t.id = s.id := by simpa using List.find?_some hfound
    rw [List.inj_on_of_nodup_map h ht hs hid]

theorem mem_of_byId {id : Text} {s : StepSpec} (h : byId steps id = some s) :
    s ∈ steps ∧ s.id = id :=
  ⟨List.mem_reverse.mp (List.mem_of_find?_eq_some h), by simpa using List.find?_some h⟩

theorem upGraph_edge (h : (steps.map (·.id)).Nodup) : (upGraph steps).Edge = Edge steps := by
  funext a b
  apply propext
  constructor
  · intro hedge
    simp only [Graph.Edge, upGraph] at hedge
    cases hfound : byId steps a with
    | none => simp [hfound] at hedge
    | some s =>
      obtain ⟨hs, hid⟩ := mem_of_byId hfound
      exact ⟨s, hs, hid, by simpa [hfound] using hedge⟩
  · rintro ⟨s, hs, rfl, hneed⟩
    simpa [Graph.Edge, upGraph, byId_eq h hs] using hneed

theorem downGraph_edge : (downGraph steps).Edge = Function.swap (Edge steps) := by
  funext a b
  apply propext
  simp only [Graph.Edge, downGraph, Function.swap, Edge, List.mem_flatMap, List.mem_map,
    List.mem_filter, decide_eq_true_eq]
  constructor
  · rintro ⟨s, hs, n, ⟨hn, rfl⟩, rfl⟩
    exact ⟨s, hs, rfl, hn⟩
  · rintro ⟨s, hs, rfl, hn⟩
    exact ⟨s, hs, a, ⟨hn, rfl⟩, rfl⟩

variable {ir : PipelineIr}

theorem mem_downstream {a d : Text} : d ∈ downstream ir a ↔ TransGen (Edge ir.steps) d a := by
  rw [downstream, mem_reached, Graph.reached_next, downGraph_edge]
  exact transGen_swap

theorem manualGateUpstream_iff (h : (ir.steps.map (·.id)).Nodup) {id : Text} :
    manualGateUpstream ir id = true ↔ BehindManualGate ir.steps id := by
  rw [manualGateUpstream, Option.isNone_iff_eq_none, visit_eq_none_iff]
  simp only [Graph.reached_next, upGraph_edge h]
  constructor
  · rintro ⟨g, hpath, hgate⟩
    cases hfound : byId ir.steps g with
    | none => simp [hfound] at hgate
    | some s =>
      obtain ⟨hs, rfl⟩ := mem_of_byId hfound
      exact ⟨s, hs, by simpa [hfound] using hgate, hpath⟩
  · rintro ⟨s, hs, hgate, hpath⟩
    exact ⟨s.id, hpath, by simpa [byId_eq h hs] using hgate⟩

theorem mem_upstreamApprovalGates (h : (ir.steps.map (·.id)).Nodup) {id : Text} {g : StepSpec} :
    g ∈ upstreamApprovalGates ir id ↔
      g ∈ ir.steps ∧ TransGen (Edge ir.steps) id g.id ∧ countsAsEnvironmentApprovalGate g = true := by
  simp only [upstreamApprovalGates, List.mem_filter, decide_eq_true_eq, mem_reached,
    Graph.reached_next, upGraph_edge h]
  exact and_assoc

theorem mem_environmentApprovalGates (h : (ir.steps.map (·.id)).Nodup) {g t : StepSpec}
    (hg : g ∈ ir.steps) (hgate : isManualGate g = true) (ht : t ∈ ir.steps)
    (huses : usesEnvironmentAuthority ir t = true) (hpath : TransGen (Edge ir.steps) t.id g.id) :
    g.id ∈ environmentApprovalGates ir := by
  simp only [environmentApprovalGates, List.mem_map, List.mem_filter, List.any_eq_true]
  refine ⟨g, ⟨⟨hg, hgate⟩, t.id, mem_downstream.mpr hpath, ?_⟩, rfl⟩
  simpa [byId_eq h ht] using huses

theorem mem_deadSteps {excluded : List Text} {id : Text} :
    id ∈ deadSteps ir excluded ↔ Dead ir excluded ir.steps id := by
  simp only [deadSteps, List.mem_flatMap, List.mem_filter, decide_eq_true_eq, List.mem_cons,
    mem_downstream, Dead, and_assoc]

theorem mem_stepsMissingApprovalGate (h : (ir.steps.map (·.id)).Nodup) {excluded : List Text}
    {id : Text} : id ∈ stepsMissingApprovalGate ir excluded ↔ MissesGate ir excluded id := by
  simp only [MissesGate, stepsMissingApprovalGate, List.mem_map, List.mem_filter, decide_eq_true_eq,
    mem_deadSteps, Bool.not_eq_true', ← Bool.not_eq_true, manualGateUpstream_iff h]
  constructor
  · rintro ⟨s, ⟨⟨⟨hs, huses⟩, hdead⟩, hgate⟩, rfl⟩
    exact ⟨s, hs, rfl, huses, hdead, hgate⟩
  · rintro ⟨s, hs, rfl, huses, hdead, hgate⟩
    exact ⟨s, ⟨⟨⟨hs, huses⟩, hdead⟩, hgate⟩, rfl⟩

theorem mem_fronts {missing : List Text} {id : Text} :
    id ∈ fronts ir missing ↔
      id ∈ missing ∧ ∀ m ∈ missing, ¬ TransGen (Edge ir.steps) id m := by
  simp only [fronts, List.mem_filter, List.mem_flatMap, decide_eq_true_eq, mem_downstream]
  constructor
  · rintro ⟨hid, hfront⟩
    exact ⟨hid, fun m hm hpath => hfront ⟨⟨m, hm, hpath⟩, hid⟩⟩
  · rintro ⟨hid, hfront⟩
    exact ⟨hid, fun ⟨⟨m, hm, hpath⟩, _⟩ => hfront m hm hpath⟩

end searches

theorem mem_combinedNeeds {steps : List StepSpec} {front : List Text} {n : Text} :
    n ∈ combinedNeeds steps front ↔ ∃ s ∈ steps, s.id ∈ front ∧ n ∈ s.needs := by
  have hneeds : ∀ (new acc : List Text),
      n ∈ new.foldl (fun needs n => if n ∈ needs then needs else needs ++ [n]) acc ↔
        n ∈ acc ∨ n ∈ new := by
    intro new
    induction new with
    | nil => simp
    | cons m ms ih =>
      intro acc
      rw [List.foldl_cons, ih]
      split_ifs with hmem
      · grind
      · grind
  have hsteps : ∀ (l : List StepSpec) (acc : List Text),
      n ∈ l.foldl (fun needs s =>
          s.needs.foldl (fun needs n => if n ∈ needs then needs else needs ++ [n]) needs) acc ↔
        n ∈ acc ∨ ∃ s ∈ l, n ∈ s.needs := by
    intro l
    induction l with
    | nil => simp
    | cons s ss ih =>
      intro acc
      rw [List.foldl_cons, ih, hneeds]
      simp [or_assoc]
  rw [combinedNeeds, hsteps]
  simp [and_assoc]

theorem addedGateId_fresh (ir : PipelineIr) : addedGateId ir ∉ ir.steps.map (·.id) := by
  have htaken : ∀ id, (ir.steps.any fun s => s.id = id) = true ↔ id ∈ ir.steps.map (·.id) := by
    simp
  simp only [addedGateId]
  split_ifs with hbase
  · rw [← htaken]
    simpa using hbase
  · set candidates := (List.range (ir.steps.length + 1)).map fun n => suffixedGateId (n + 2)
      with hcandidates
    have hnodup : candidates.Nodup := by
      refine List.nodup_range.map fun m n h => ?_
      have hsuffix := List.append_cancel_left h
      have hsame := natText_injective (List.cons.inj hsuffix).2
      omega
    cases hfound : candidates.find? fun id => !ir.steps.any fun s => s.id = id with
    | some id =>
      rw [← htaken]
      simpa using List.find?_some hfound
    | none =>
      -- More candidates than steps cannot all be taken.
      have hall : ∀ id ∈ candidates, id ∈ ir.steps.map (·.id) := by
        intro id hid
        rw [← htaken]
        simpa using List.find?_eq_none.mp hfound id hid
      have hlen := (hnodup.subperm hall).length_le
      simp [hcandidates] at hlen

@[simp] theorem putBehind_id (front : List Text) (gate : Text) (s : StepSpec) :
    (putBehind front gate s).id = s.id := by
  unfold putBehind
  split_ifs
  · rfl
  · rfl

theorem putBehind_needs (front : List Text) (gate : Text) (s : StepSpec) :
    (putBehind front gate s).needs = s.needs ++ if s.id ∈ front then [gate] else [] := by
  unfold putBehind
  split_ifs
  · rfl
  · simp

theorem putBehind_isManualGate (front : List Text) (gate : Text) (s : StepSpec) :
    isManualGate (putBehind front gate s) = isManualGate s := by
  unfold putBehind
  split_ifs
  · rfl
  · rfl

/-- Authority reads neither a step's needs nor a gate's mark. -/
theorem putBehind_usesEnvironmentAuthority (ir ir' : PipelineIr) (h : ir'.deploy = ir.deploy)
    (front : List Text) (gate : Text) (s : StepSpec) :
    usesEnvironmentAuthority ir' (putBehind front gate s) = usesEnvironmentAuthority ir s := by
  unfold putBehind
  split_ifs
  · simp [usesEnvironmentAuthority, StepSpec.isGate, h]
  · simp [usesEnvironmentAuthority, h]

/-- The steps with a gate at a place. -/
def gatedSteps (steps : List StepSpec) (front : List Text) (gate : StepSpec) (at_ : ℕ) :
    List StepSpec :=
  (steps.map (putBehind front gate.id)).take at_ ++
    gate :: (steps.map (putBehind front gate.id)).drop at_

section gated

variable {steps : List StepSpec} {front : List Text} {gate : StepSpec} {at_ : ℕ}

theorem gatedSteps_perm :
    (gatedSteps steps front gate at_).Perm (gate :: steps.map (putBehind front gate.id)) := by
  unfold gatedSteps
  refine List.perm_middle.trans (List.Perm.cons _ ?_)
  rw [List.take_append_drop]

theorem mem_gatedSteps {s' : StepSpec} :
    s' ∈ gatedSteps steps front gate at_ ↔ s' = gate ∨ ∃ s ∈ steps, putBehind front gate.id s = s' := by
  rw [gatedSteps_perm.mem_iff, List.mem_cons, List.mem_map]

theorem gatedSteps_ids :
    ((gatedSteps steps front gate at_).map (·.id)).Perm (gate.id :: steps.map (·.id)) := by
  refine (gatedSteps_perm.map _).trans ?_
  rw [List.map_cons, List.map_map]
  exact (List.Perm.cons _ (by simp [Function.comp_def]))

theorem gatedSteps_edge (hids : ∀ f ∈ front, f ∈ steps.map (·.id))
    (hneeds : ∀ n, n ∈ gate.needs ↔ ∃ s ∈ steps, s.id ∈ front ∧ n ∈ s.needs) (a b : Text) :
    Edge (gatedSteps steps front gate at_) a b ↔
      Edge steps a b ∨ (a ∈ front ∧ b = gate.id) ∨
        (a = gate.id ∧ ∃ f, f ∈ front ∧ Edge steps f b) := by
  constructor
  · rintro ⟨s', hs', rfl, hb⟩
    rcases mem_gatedSteps.mp hs' with rfl | ⟨s, hs, rfl⟩
    · obtain ⟨s, hs, hfront, hn⟩ := (hneeds b).mp hb
      exact .inr (.inr ⟨rfl, s.id, hfront, s, hs, rfl, hn⟩)
    · rw [putBehind_needs, List.mem_append] at hb
      rw [putBehind_id]
      rcases hb with hb | hb
      · exact .inl ⟨s, hs, rfl, hb⟩
      · split_ifs at hb with hfront
        · exact .inr (.inl ⟨hfront, by simpa using hb⟩)
        · simp at hb
  · rintro (⟨s, hs, rfl, hb⟩ | ⟨hfront, rfl⟩ | ⟨rfl, f, hfront, s, hs, rfl, hb⟩)
    · refine ⟨_, mem_gatedSteps.mpr (.inr ⟨s, hs, rfl⟩), putBehind_id _ _ _, ?_⟩
      rw [putBehind_needs]
      exact List.mem_append_left _ hb
    · obtain ⟨s, hs, rfl⟩ := List.mem_map.mp (hids a hfront)
      refine ⟨_, mem_gatedSteps.mpr (.inr ⟨s, hs, rfl⟩), putBehind_id _ _ _, ?_⟩
      rw [putBehind_needs, if_pos hfront]
      simp
    · exact ⟨gate, mem_gatedSteps.mpr (.inl rfl), rfl, (hneeds b).mpr ⟨s, hs, hfront, hb⟩⟩

end gated

section marking

variable (approval : List Text) (s : StepSpec)

@[simp] theorem markStep_id : (markStep approval s).id = s.id := by
  unfold markStep
  split_ifs
  · rfl
  · rfl

@[simp] theorem markStep_needs : (markStep approval s).needs = s.needs := by
  unfold markStep
  split_ifs
  · rfl
  · rfl

@[simp] theorem markStep_isManualGate : isManualGate (markStep approval s) = isManualGate s := by
  unfold markStep
  split_ifs
  · rfl
  · rfl

@[simp] theorem markStep_usesEnvironmentAuthority (ir ir' : PipelineIr) (h : ir'.deploy = ir.deploy) :
    usesEnvironmentAuthority ir' (markStep approval s) = usesEnvironmentAuthority ir s := by
  unfold markStep
  split_ifs
  · simp [usesEnvironmentAuthority, StepSpec.isGate, h]
  · simp [usesEnvironmentAuthority, h]

theorem markStep_counts (hgate : isManualGate s = true) (happroval : s.id ∈ approval) :
    countsAsEnvironmentApprovalGate (markStep approval s) = true := by
  have hmark : (markStep approval s).environmentApprovalGate = some true := by
    simp [markStep, hgate, happroval]
  simp [countsAsEnvironmentApprovalGate, hgate, hmark]

variable (steps : List StepSpec)

theorem map_markStep_ids : (steps.map (markStep approval)).map (·.id) = steps.map (·.id) := by
  rw [List.map_map]
  exact List.map_congr_left fun s _ => markStep_id approval s

theorem map_markStep_edge : Edge (steps.map (markStep approval)) = Edge steps := by
  funext a b
  simp [Edge]

theorem WellFormed.map_markStep {steps : List StepSpec} (h : WellFormed steps) :
    WellFormed (steps.map (markStep approval)) := by
  refine ⟨by rw [map_markStep_ids]; exact h.unique, ?_, ?_⟩
  · intro s' hs' n hn
    obtain ⟨s, hs, rfl⟩ := List.mem_map.mp hs'
    rw [map_markStep_ids]
    exact h.resolved s hs n (by simpa using hn)
  · rw [map_markStep_edge]
    exact h.acyclic

end marking

/-- Marking makes every manual gate upstream of a step with authority count. -/
theorem counted_of_behindManualGate {ir : PipelineIr} (h : WellFormed ir.steps) {t : StepSpec}
    (ht : t ∈ ir.steps) (huses : usesEnvironmentAuthority ir t = true) {g : StepSpec}
    (hg : g ∈ ir.steps) (hgate : isManualGate g = true) (hpath : TransGen (Edge ir.steps) t.id g.id) :
    markStep (environmentApprovalGates ir) g ∈
      upstreamApprovalGates (markEnvironmentApprovalGates ir) t.id := by
  have hmarked : WellFormed (markEnvironmentApprovalGates ir).steps := h.map_markStep _
  rw [mem_upstreamApprovalGates hmarked.unique]
  refine ⟨List.mem_map_of_mem hg, ?_, ?_⟩
  · simpa [markEnvironmentApprovalGates, map_markStep_edge] using hpath
  · exact markStep_counts _ _ hgate (mem_environmentApprovalGates h.unique hg hgate ht huses hpath)

section added

variable {ir : PipelineIr} (h : WellFormed ir.steps) (excluded : List Text) (environment : Text)
  (expiresAfter : Option UInt32)

/-- The steps the gate goes in front of. -/
def addedFronts (ir : PipelineIr) (excluded : List Text) : List Text :=
  fronts ir (stepsMissingApprovalGate ir excluded)

def addedGate (ir : PipelineIr) (excluded : List Text) (environment : Text)
    (expiresAfter : Option UInt32) : StepSpec :=
  approvalGateStep (addedGateId ir) environment expiresAfter
    (combinedNeeds ir.steps (addedFronts ir excluded))

/-- The pipeline with the gate in it. -/
def withGate (ir : PipelineIr) (excluded : List Text) (environment : Text)
    (expiresAfter : Option UInt32) : PipelineIr :=
  { ir with
    steps :=
      gatedSteps ir.steps (addedFronts ir excluded)
        (addedGate ir excluded environment expiresAfter)
        (ir.steps.findIdx fun s => s.id ∈ addedFronts ir excluded) }

theorem addEnvironmentApprovalGate_eq :
    addEnvironmentApprovalGate ir environment expiresAfter excluded =
      if (stepsMissingApprovalGate ir excluded).isEmpty then (ir, none)
      else (withGate ir excluded environment expiresAfter,
        some ⟨addedGateId ir, addedFronts ir excluded⟩) := rfl

include h

theorem front_missing {f : Text} (hf : f ∈ addedFronts ir excluded) :
    f ∈ ir.steps.map (·.id) ∧ ¬ Dead ir excluded ir.steps f := by
  obtain ⟨s, hs, rfl, -, hdead, -⟩ :=
    (mem_stepsMissingApprovalGate h.unique).mp (mem_fronts.mp hf).1
  exact ⟨List.mem_map_of_mem hs, hdead⟩

theorem withGate_inserted : GraphInsertion.Inserted (Edge ir.steps)
    (Edge (withGate ir excluded environment expiresAfter).steps) (addedGateId ir)
    (· ∈ addedFronts ir excluded) where
  edge := gatedSteps_edge (fun f hf => (front_missing h excluded hf).1)
    (fun _ => mem_combinedNeeds)
  source b := by
    rintro ⟨s, hs, hid, -⟩
    exact addedGateId_fresh ir (hid ▸ List.mem_map_of_mem hs)
  target a := by
    rintro ⟨s, hs, -, hneed⟩
    exact addedGateId_fresh ir (h.resolved s hs _ hneed)
  fresh hfront := addedGateId_fresh ir (front_missing h excluded hfront).1
  apart f hf f' hf' := (mem_fronts.mp hf).2 f' (mem_fronts.mp hf').1

theorem withGate_wellFormed : WellFormed (withGate ir excluded environment expiresAfter).steps := by
  refine ⟨?_, ?_, (withGate_inserted h excluded environment expiresAfter).acyclic h.acyclic⟩
  · rw [withGate, gatedSteps_ids.nodup_iff, List.nodup_cons]
    exact ⟨addedGateId_fresh ir, h.unique⟩
  · intro s' hs' n hn
    rw [withGate, gatedSteps_ids.mem_iff, List.mem_cons]
    have hedge : Edge (withGate ir excluded environment expiresAfter).steps s'.id n :=
      ⟨s', hs', rfl, hn⟩
    rcases ((withGate_inserted h excluded environment expiresAfter).edge _ _).mp hedge with
      ⟨s, hs, -, hneed⟩ | ⟨-, rfl⟩ | ⟨-, f, -, s, hs, -, hneed⟩
    · exact .inr (h.resolved s hs n hneed)
    · exact .inl rfl
    · exact .inr (h.resolved s hs n hneed)

/-- The gate makes no step of the old pipeline dead, and is not dead itself. -/
theorem dead_withGate {id : Text}
    (hdead : Dead ir excluded (withGate ir excluded environment expiresAfter).steps id) :
    Dead ir excluded ir.steps id ∧ id ≠ addedGateId ir := by
  have hinserted := withGate_inserted h excluded environment expiresAfter
  obtain ⟨e, he, hexcluded, hbehind⟩ := hdead
  have hne : e.id ≠ addedGateId ir := fun heq =>
    addedGateId_fresh ir (heq ▸ List.mem_map_of_mem he)
  have hfronts : ∀ f, f ∈ addedFronts ir excluded → ¬ TransGen (Edge ir.steps) f e.id :=
    fun f hf hpath => (front_missing h excluded hf).2 ⟨e, he, hexcluded, .inr hpath⟩
  rcases hbehind with rfl | hpath
  · exact ⟨⟨e, he, hexcluded, .inl rfl⟩, hne⟩
  · have hold := hinserted.old_of_not_behind hne hfronts hpath
    refine ⟨⟨e, he, hexcluded, .inr hold⟩, ?_⟩
    rintro rfl
    obtain ⟨b, hedge, -⟩ := TransGen.head'_iff.mp hold
    exact hinserted.source b hedge

theorem gate_need_alive {n : Text}
    (hn : n ∈ (addedGate ir excluded environment expiresAfter).needs) :
    ¬ Dead ir excluded (withGate ir excluded environment expiresAfter).steps n := by
  intro hdead
  obtain ⟨⟨e, he, hexcluded, hbehind⟩, -⟩ := dead_withGate h excluded environment expiresAfter hdead
  obtain ⟨s, hs, hfront, hneed⟩ := mem_combinedNeeds.mp hn
  apply (front_missing h excluded hfront).2
  have hedge : Edge ir.steps s.id n := ⟨s, hs, rfl, hneed⟩
  rcases hbehind with rfl | hpath
  · exact ⟨e, he, hexcluded, .inr (.single hedge)⟩
  · exact ⟨e, he, hexcluded, .inr (.head hedge hpath)⟩

/-- Every step that missed a gate is behind the added one. -/
theorem behind_addedGate {m : Text} (hm : m ∈ stepsMissingApprovalGate ir excluded) :
    TransGen (Edge (withGate ir excluded environment expiresAfter).steps) m (addedGateId ir) := by
  have hinserted := withGate_inserted h excluded environment expiresAfter
  obtain ⟨f, hf, hlast, hpath⟩ := GraphInsertion.exists_front _ h.acyclic hm
  have hedge := hinserted.front_edge (mem_fronts.mpr ⟨hf, hlast⟩)
  rcases reflTransGen_iff_eq_or_transGen.mp hpath with rfl | hpath
  · exact .single hedge
  · exact (hinserted.mono hpath).tail hedge

end added

/-- Every step that can start and uses the Environment's authority has, upstream, an approval gate
that can start. -/
def AuthorityApproved (ir : PipelineIr) (excluded : List Text) (out : PipelineIr) : Prop :=
  ∀ t ∈ out.steps, usesEnvironmentAuthority out t = true → ¬ Dead ir excluded out.steps t.id →
    ∃ g ∈ upstreamApprovalGates out t.id, ¬ Dead ir excluded out.steps g.id

/-- `s'` is `s` with some needs after its own; only the mark may differ beside. -/
def KeepsStep (added : Text → List Text) (s s' : StepSpec) : Prop :=
  s' = { s with
    needs := s.needs ++ added s.id
    environmentApprovalGate := s'.environmentApprovalGate }

/-- The pipeline with one gate more, which exactly the fronts need beside their own needs. -/
structure AddsGate (ir : PipelineIr) (excluded : List Text) (out : PipelineIr) (gate : StepSpec)
    (front : List Text) : Prop where
  fresh : gate.id ∉ ir.steps.map (·.id)
  manual : isManualGate gate = true
  alive : ∀ n ∈ gate.needs, ¬ Dead ir excluded out.steps n
  kept : ∃ before after, out.steps = before ++ gate :: after ∧
    List.Forall₂ (KeepsStep fun id => if id ∈ front then [gate.id] else []) ir.steps
      (before ++ after)
  earliest : ∀ f, f ∈ front ↔ MissesGate ir excluded f ∧
    ∀ m, MissesGate ir excluded m → ¬ TransGen (Edge ir.steps) f m

theorem exists_missesGate_iff {ir : PipelineIr} (h : WellFormed ir.steps) {excluded : List Text} :
    (∃ id, MissesGate ir excluded id) ↔ (stepsMissingApprovalGate ir excluded).isEmpty = false := by
  simp only [List.isEmpty_eq_false_iff_exists_mem, mem_stepsMissingApprovalGate h.unique]

theorem dead_map_markStep {ir : PipelineIr} {excluded approval : List Text} {steps : List StepSpec}
    {id : Text} :
    Dead ir excluded (steps.map (markStep approval)) id ↔ Dead ir excluded steps id := by
  rw [Dead, map_markStep_edge, Dead]

/-- A pipeline whose steps with authority are behind manual gates is approved once it is marked. -/
theorem authorityApproved_mark {ir out : PipelineIr} (h : WellFormed out.steps)
    {excluded : List Text}
    (hbehind : ∀ t ∈ out.steps, usesEnvironmentAuthority out t = true →
      ¬ Dead ir excluded out.steps t.id → BehindManualGate out.steps t.id) :
    AuthorityApproved ir excluded (markEnvironmentApprovalGates out) := by
  intro t' ht' huses' halive'
  obtain ⟨t, ht, rfl⟩ := List.mem_map.mp ht'
  have huses : usesEnvironmentAuthority out t = true := by
    rwa [markStep_usesEnvironmentAuthority _ _ out (markEnvironmentApprovalGates out) rfl] at huses'
  rw [markStep_id] at halive' ⊢
  have halive : ¬ Dead ir excluded out.steps t.id := fun hdead =>
    halive' (dead_map_markStep.mpr hdead)
  obtain ⟨g, hg, hgate, hpath⟩ := hbehind t ht huses halive
  refine ⟨_, counted_of_behindManualGate h ht huses hg hgate hpath, fun hdead => halive ?_⟩
  -- What is behind a dead gate is dead.
  rw [markStep_id] at hdead
  obtain ⟨e, he, hexcluded, hend⟩ := dead_map_markStep.mp hdead
  rcases hend with hend | hend
  · exact ⟨e, he, hexcluded, .inr (hend ▸ hpath)⟩
  · exact ⟨e, he, hexcluded, .inr (hpath.trans hend)⟩

theorem withGate_behind {ir : PipelineIr} (h : WellFormed ir.steps) (excluded : List Text)
    (environment : Text) (expiresAfter : Option UInt32) :
    ∀ t ∈ (withGate ir excluded environment expiresAfter).steps,
      usesEnvironmentAuthority (withGate ir excluded environment expiresAfter) t = true →
      ¬ Dead ir excluded (withGate ir excluded environment expiresAfter).steps t.id →
      BehindManualGate (withGate ir excluded environment expiresAfter).steps t.id := by
  intro t' ht' huses' halive'
  have hinserted := withGate_inserted h excluded environment expiresAfter
  rcases mem_gatedSteps.mp ht' with rfl | ⟨t, ht, rfl⟩
  · simp [usesEnvironmentAuthority, StepSpec.isGate, addedGate, approvalGateStep] at huses'
  · rw [putBehind_usesEnvironmentAuthority ir (withGate ir excluded environment expiresAfter) rfl]
      at huses'
    rw [putBehind_id] at halive' ⊢
    by_cases hgate : BehindManualGate ir.steps t.id
    · obtain ⟨g, hg, hmanual, hpath⟩ := hgate
      refine ⟨_, mem_gatedSteps.mpr (.inr ⟨g, hg, rfl⟩), ?_, ?_⟩
      · rwa [putBehind_isManualGate]
      · rw [putBehind_id]
        exact hinserted.mono hpath
    · have halive : ¬ Dead ir excluded ir.steps t.id := by
        rintro ⟨e, he, hexcluded, hend⟩
        exact halive' ⟨e, he, hexcluded, hend.imp_right hinserted.mono⟩
      have hmissing : t.id ∈ stepsMissingApprovalGate ir excluded :=
        (mem_stepsMissingApprovalGate h.unique).mpr ⟨t, ht, rfl, huses', halive, hgate⟩
      refine ⟨addedGate ir excluded environment expiresAfter, mem_gatedSteps.mpr (.inl rfl), ?_,
        behind_addedGate h excluded environment expiresAfter hmissing⟩
      rfl

theorem keepsStep_putBehind (front : List Text) (gate : Text) (s : StepSpec) :
    KeepsStep (fun id => if id ∈ front then [gate] else []) s (putBehind front gate s) := by
  by_cases hfront : s.id ∈ front
  · simp [KeepsStep, putBehind, hfront]
  · simp [KeepsStep, putBehind, hfront]

theorem KeepsStep.markStep {added : Text → List Text} {s s' : StepSpec} (h : KeepsStep added s s')
    (approval : List Text) : KeepsStep added s (markStep approval s') := by
  unfold Policy.markStep
  split_ifs with hgate
  · exact congrArg (fun t : StepSpec =>
      { t with environmentApprovalGate := some (decide (s'.id ∈ approval)) }) h
  · exact h

theorem addsGate_withGate {ir : PipelineIr} (h : WellFormed ir.steps) (excluded : List Text)
    (environment : Text) (expiresAfter : Option UInt32) :
    ∃ gate, gate.id = addedGateId ir ∧
      AddsGate ir excluded
        (markEnvironmentApprovalGates (withGate ir excluded environment expiresAfter)) gate
        (addedFronts ir excluded) := by
  set out := withGate ir excluded environment expiresAfter with hout
  set mark := markStep (environmentApprovalGates out) with hmark
  set behind := putBehind (addedFronts ir excluded) (addedGateId ir) with hbehind
  set at_ := ir.steps.findIdx fun s => s.id ∈ addedFronts ir excluded with hat
  refine ⟨mark (addedGate ir excluded environment expiresAfter), by simp [hmark]; rfl, ?_, ?_, ?_,
    ⟨((ir.steps.map behind).take at_).map mark, ((ir.steps.map behind).drop at_).map mark, ?_, ?_⟩,
    ?_⟩
  · simp only [hmark, markStep_id]
    exact addedGateId_fresh ir
  · simp only [hmark, markStep_isManualGate]
    rfl
  · intro n hn hdead
    simp only [hmark, markStep_needs] at hn
    exact gate_need_alive h excluded environment expiresAfter hn (dead_map_markStep.mp hdead)
  · have hsteps : out.steps = (ir.steps.map behind).take at_ ++
        addedGate ir excluded environment expiresAfter :: (ir.steps.map behind).drop at_ := rfl
    rw [markEnvironmentApprovalGates]
    simp only [hsteps, List.map_append, List.map_cons, hmark]
  · rw [← List.map_append, List.take_append_drop, List.map_map, List.forall₂_map_right_iff,
      List.forall₂_same]
    intro s hs
    have hid : (mark (addedGate ir excluded environment expiresAfter)).id = addedGateId ir := by
      simp only [hmark, markStep_id]
      rfl
    rw [hid]
    exact (keepsStep_putBehind _ _ s).markStep _
  · intro f
    simp only [addedFronts, mem_fronts, mem_stepsMissingApprovalGate h.unique]

/-- The gate requirement of a well-formed pipeline, where the Environment has approvers and adds
missing gates. -/
theorem gate_requirement_approves {ir : PipelineIr} (h : WellFormed ir.steps) (environment : Text)
    {p : EffectiveProtection} (hp : p.approvers ≠ []) (hadd : p.approvalGate.missingGate = .add)
    (excluded : List Text) :
    WellFormed (gateRequirement ir environment (some p) excluded).ir.steps ∧
    AuthorityApproved ir excluded (gateRequirement ir environment (some p) excluded).ir ∧
    (gateRequirement ir environment (some p) excluded).ir =
      { ir with steps := (gateRequirement ir environment (some p) excluded).ir.steps } ∧
    ((∃ id, MissesGate ir excluded id) → ∃ gate front,
      (gateRequirement ir environment (some p) excluded).result =
        some (gateRequirementResult (.gateAdded gate.id front)) ∧
      AddsGate ir excluded (gateRequirement ir environment (some p) excluded).ir gate front) ∧
    ((∀ id, ¬ MissesGate ir excluded id) →
      (gateRequirement ir environment (some p) excluded).result =
        some (gateRequirementResult .passed) ∧
      List.Forall₂ (KeepsStep fun _ => []) ir.steps
        (gateRequirement ir environment (some p) excluded).ir.steps) := by
  have hfilter : (some p).filter (fun p => !p.approvers.isEmpty) = some p := by simp [hp]
  by_cases hmisses : ∃ id, MissesGate ir excluded id
  · have hsome := (exists_missesGate_iff h).mp hmisses
    have hreq : gateRequirement ir environment (some p) excluded =
        ⟨markEnvironmentApprovalGates
            (withGate ir excluded environment p.approvalGate.addedGateExpiryS),
          some (gateRequirementResult (.gateAdded (addedGateId ir) (addedFronts ir excluded))),
          none⟩ := by
      simp [gateRequirement, hfilter, addEnvironmentApprovalGate_eq, hsome, hadd]
    rw [hreq]
    have hwf := withGate_wellFormed h excluded environment p.approvalGate.addedGateExpiryS
    refine ⟨hwf.map_markStep _, authorityApproved_mark hwf (withGate_behind h _ _ _), rfl, fun _ => ?_,
      fun hnone => absurd hmisses (not_exists.mpr hnone)⟩
    obtain ⟨gate, hid, hadds⟩ :=
      addsGate_withGate h excluded environment p.approvalGate.addedGateExpiryS
    exact ⟨gate, _, by rw [hid], hadds⟩
  · have hnone : (stepsMissingApprovalGate ir excluded).isEmpty = true := by
      simpa using mt (exists_missesGate_iff h).mpr hmisses
    have hreq : gateRequirement ir environment (some p) excluded =
        ⟨markEnvironmentApprovalGates ir, some (gateRequirementResult .passed), none⟩ := by
      simp [gateRequirement, hfilter, addEnvironmentApprovalGate_eq, hnone]
    rw [hreq]
    refine ⟨h.map_markStep _, authorityApproved_mark h fun t ht huses halive => ?_, rfl,
      fun hm => absurd hm hmisses, fun _ => ⟨rfl, ?_⟩⟩
    · by_contra hgate
      exact hmisses ⟨t.id, t, ht, rfl, huses, halive, hgate⟩
    · rw [markEnvironmentApprovalGates, List.forall₂_map_right_iff, List.forall₂_same]
      intro s _
      have hkept : KeepsStep (fun _ => []) s s := by simp [KeepsStep]
      exact hkept.markStep _

-- A step with a secret behind a build, in an Environment with one approver.

def shipPipeline : PipelineIr where
  irVersion := 1
  isLibrary := false
  deploy := false
  interface := ⟨[], []⟩
  otherFields := []
  steps :=
    [{ StepSpec.named "build".toList with image := "busybox".toList },
      { StepSpec.named "ship".toList with
        image := "busybox".toList
        secrets := [⟨"TOKEN".toList, false⟩]
        needs := ["build".toList] }]

def amyApproves : EffectiveProtection :=
  effectiveProtection
    { EnvironmentProtectionRules.default with approvers := ["amy".toList] } none

theorem shipPipeline_wellFormed : WellFormed shipPipeline.steps :=
  ⟨by decide, by decide, acyclic_of_findCycle (by decide +kernel)⟩

theorem ship_gets_a_gate :
    AuthorityApproved shipPipeline []
      (gateRequirement shipPipeline "prod".toList (some amyApproves) []).ir ∧
    ∃ gate front, (gateRequirement shipPipeline "prod".toList (some amyApproves) []).result =
      some (gateRequirementResult (.gateAdded gate front)) := by
  obtain ⟨-, happroved, -, hadds, -⟩ := gate_requirement_approves shipPipeline_wellFormed
    "prod".toList (p := amyApproves) (by decide) rfl []
  have hmisses : MissesGate shipPipeline [] "ship".toList := by
    refine ⟨_, List.mem_cons_of_mem _ List.mem_cons_self, rfl, by decide, ?_, ?_⟩
    · rintro ⟨s, -, hs, -⟩
      simp at hs
    · rintro ⟨g, hg, hgate, -⟩
      have hnone : ∀ g ∈ shipPipeline.steps, isManualGate g = false := by decide
      simp [hnone g hg] at hgate
  obtain ⟨gate, front, hresult, -⟩ := hadds ⟨_, hmisses⟩
  exact ⟨happroved, gate.id, front, hresult⟩

end Scarab.Policy
