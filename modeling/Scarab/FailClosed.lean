import Scarab.PolicyDecisions

/-!
# Policy decisions fail closed and do not depend on order

Each stored Policy has a result of its own, whatever stands beside it. A decision is those results,
the built-in ones before them and the plugin default after.
-/
namespace Scarab.Policy

open Scarab.Pipeline Scarab.Project

section context

variable {host : PolicyHost} {checkpoint : Checkpoint} {version : ℕ} {input : Json}
  {ctx : MatchContext} {slot : Option (Except Text host.Context)}

/-- Nothing is bound yet, or the input is. -/
def SlotBound (host : PolicyHost) (checkpoint : Checkpoint) (version : ℕ) (input : Json)
    (slot : Option (Except Text host.Context)) : Prop :=
  slot = none ∨ slot = some (bindInput host checkpoint version input)

theorem celContext_eq (h : SlotBound host checkpoint version input slot) :
    celContext host checkpoint version input slot =
      (bindInput host checkpoint version input, some (bindInput host checkpoint version input)) := by
  rcases h with rfl | rfl
  · rfl
  · rfl

theorem evaluateRule_eq (h : SlotBound host checkpoint version input slot) (i : ℕ) (rule : RuleIr) :
    (evaluateRule host checkpoint version input slot i rule).1 =
        (evaluateRule host checkpoint version input none i rule).1 ∧
      SlotBound host checkpoint version input
        (evaluateRule host checkpoint version input slot i rule).2 := by
  have hnone := @celContext_eq host checkpoint version input none (.inl rfl)
  simp only [evaluateRule, celContext_eq h, hnone]
  split_ifs
  · exact ⟨rfl, h⟩
  · split
    · exact ⟨rfl, .inr rfl⟩
    · exact ⟨rfl, .inr rfl⟩

theorem evaluateRules_eq (h : SlotBound host checkpoint version input slot) (i : ℕ)
    (rules : List RuleIr) :
    (evaluateRules host checkpoint version input slot i rules).1 =
        (evaluateRules host checkpoint version input none i rules).1 ∧
      SlotBound host checkpoint version input
        (evaluateRules host checkpoint version input slot i rules).2 := by
  induction rules generalizing slot i with
  | nil => exact ⟨rfl, h⟩
  | cons rule rules ih =>
    obtain ⟨hfirst, hbound⟩ := evaluateRule_eq h i rule
    obtain ⟨-, hbound'⟩ := @evaluateRule_eq host checkpoint version input none (.inl rfl) i rule
    simp only [evaluateRules]
    rw [hfirst, (ih hbound (i + 1)).1, (ih hbound' (i + 1)).1]
    exact ⟨rfl, (ih hbound (i + 1)).2⟩

theorem evaluateOne_eq (h : SlotBound host checkpoint version input slot) (p : PolicyIr) :
    (evaluateOne host checkpoint version input ctx slot p).1 =
        (evaluateOne host checkpoint version input ctx none p).1 ∧
      SlotBound host checkpoint version input
        (evaluateOne host checkpoint version input ctx slot p).2 := by
  obtain ⟨hrules, hbound⟩ := evaluateRules_eq h 0 p.rules
  simp only [evaluateOne]
  split_ifs
  · exact ⟨by rw [hrules], hbound⟩
  · exact ⟨rfl, h⟩

/-- Whatever was bound before, each Policy has the result it has alone. -/
theorem evaluateAll_eq_map (h : SlotBound host checkpoint version input slot)
    (policies : List PolicyIr) :
    evaluateAll host checkpoint version input ctx slot policies =
      policies.map fun p => (evaluateOne host checkpoint version input ctx none p).1 := by
  induction policies generalizing slot with
  | nil => rfl
  | cons p ps ih =>
    obtain ⟨hone, hbound⟩ := @evaluateOne_eq host checkpoint version input ctx slot h p
    rw [evaluateAll, List.map_cons, hone, ih hbound]

end context

section own

variable (host : PolicyHost) (checkpoint : Checkpoint) (version : ℕ) (input : Except Text Json)
  (ctx : MatchContext)

/-- The result of a Policy that compiles. -/
def compiledResult (ir : PolicyIr) : PolicyResult :=
  match input with
  | .ok v => (evaluateOne host checkpoint version v ctx none ir).1
  | .error reason => unevaluated ctx reason ir

def ownResult (p : StoredPolicy) : PolicyResult :=
  match p.compile host with
  | .ok ir => compiledResult host checkpoint version input ctx ir
  | .error ds => unevaluated ctx (compileMessage p ds) (stubOf checkpoint p)

/-- What a stored Policy adds to the digest set. -/
def digestIr (p : StoredPolicy) : PolicyIr :=
  match p.compile host with
  | .ok ir => ir
  | .error _ => stubOf checkpoint p

theorem placeResults_eq (ps : List StoredPolicy) :
    placeResults host checkpoint ctx ps
        ((ps.filterMap fun p => (p.compile host).toOption).map
          (compiledResult host checkpoint version input ctx)) =
      some (ps.map (ownResult host checkpoint version input ctx),
        ps.map (digestIr host checkpoint)) := by
  induction ps with
  | nil => rfl
  | cons p ps ih =>
    cases hcompile : p.compile host with
    | ok ir =>
      have hsome : (p.compile host).toOption = some ir := by rw [hcompile]; rfl
      simp only [List.filterMap_cons, hsome]
      simp [placeResults, hcompile, ih, ownResult, digestIr]
    | error ds =>
      have hnone : (p.compile host).toOption = none := by rw [hcompile]; rfl
      simp only [List.filterMap_cons, hnone]
      simp [placeResults, hcompile, ih, ownResult, digestIr]

/-- The Policies of a checkpoint. -/
def atCheckpoint (stored : List StoredPolicy) : List StoredPolicy :=
  stored.filter fun p => p.body.checkpoint = checkpoint

/-- Every result of a consultation: the built-in ones, each Policy's own and the default. -/
def allResults (gates : Option (List PluginGate)) (stored : List StoredPolicy)
    (builtins : List PolicyResult) : List PolicyResult :=
  builtins ++ (atCheckpoint checkpoint stored).map (ownResult host checkpoint version input ctx) ++
    (defaultResult checkpoint input gates ctx
      ((atCheckpoint checkpoint stored).map (digestIr host checkpoint))).toList

/-- Where the CEL thread runs, a decision is made, over the Policies' own results. -/
theorem evaluateWithBuiltins_eq (gates : Option (List PluginGate)) (stored : List StoredPolicy)
    (builtins : List PolicyResult) :
    ∃ d, evaluateWithBuiltins host none checkpoint version input gates ctx stored builtins = some d ∧
      d.results = allResults host checkpoint version input ctx gates stored builtins ∧
      d.outcome = combine d.results ∧
      d.policySetDigest = policySetDigest host checkpoint
        ((atCheckpoint checkpoint stored).map (digestIr host checkpoint)) := by
  have hirs : ∀ ir ∈ (atCheckpoint checkpoint stored).filterMap
      fun p => (p.compile host).toOption, ir.checkpoint = checkpoint := by
    intro ir hir
    obtain ⟨p, hp, hcompile⟩ := List.mem_filterMap.mp hir
    have hok : p.compile host = .ok ir := by
      cases h : p.compile host with
      | ok ir' => simpa [h, Except.toOption] using hcompile
      | error ds => simp [h, Except.toOption] at hcompile
    rw [(compile_kept hok).2.2.2.1]
    exact of_decide_eq_true (List.mem_filter.mp hp).2
  have hevaluated : evaluateCompiled host none checkpoint version ctx
      ((atCheckpoint checkpoint stored).filterMap fun p => (p.compile host).toOption) input =
      ((atCheckpoint checkpoint stored).filterMap fun p => (p.compile host).toOption).map
        (compiledResult host checkpoint version input ctx) := by
    cases input with
    | error reason => rfl
    | ok v =>
      have hfilter := List.filter_eq_self.mpr fun ir hir => decide_eq_true (hirs ir hir)
      simp only [evaluateCompiled, evaluate, hfilter]
      exact evaluateAll_eq_map (.inl rfl) _
  have hplaced := placeResults_eq host checkpoint version input ctx (atCheckpoint checkpoint stored)
  rw [← hevaluated] at hplaced
  simp only [atCheckpoint] at hplaced
  simp only [evaluateWithBuiltins, hplaced]
  exact ⟨_, rfl, rfl, rfl, rfl⟩

end own

/-- Some result denies. -/
def Denies (results : List PolicyResult) : Prop := ∃ r ∈ results, denyMessages r ≠ []

theorem isDenied_iff {d : PolicyDecision} (h : d.outcome = combine d.results) :
    d.isDenied = true ↔ Denies d.results := by
  have hmessages : Denies d.results ↔ d.results.flatMap denyMessages ≠ [] := by
    simp [Denies, List.flatMap_eq_nil_iff]
  rw [PolicyDecision.isDenied, h, combine, hmessages]
  by_cases hnil : d.results.flatMap denyMessages = []
  · simp [hnil]
  · simp [hnil]

@[simp] theorem denies_append {l l' : List PolicyResult} :
    Denies (l ++ l') ↔ Denies l ∨ Denies l' := by
  simp [Denies, or_and_right, exists_or]

theorem Denies.mono {l l' : List PolicyResult} (h : Denies l) (hsub : ∀ r ∈ l, r ∈ l') :
    Denies l' := by
  obtain ⟨r, hr, hdeny⟩ := h
  exact ⟨r, hsub r hr, hdeny⟩

/-- The plugin default reads of the other Policies only which installations they list. -/
theorem pluginDefault_congr {gates : Except Text (List PluginGate)} {unbuilt : Option Text}
    {ctx : MatchContext} {ps ps' : List PolicyIr}
    (h : ∀ i, i ∈ listedPlugins ctx ps ↔ i ∈ listedPlugins ctx ps') :
    pluginDefault gates unbuilt ctx ps = pluginDefault gates unbuilt ctx ps' := by
  have houtcome : ∀ gates, pluginDefaultOutcome gates unbuilt (listedPlugins ctx ps) =
      pluginDefaultOutcome gates unbuilt (listedPlugins ctx ps') := by
    intro gates
    have hfilter : (gates.filter fun g => g.plugin ∉ listedPlugins ctx ps) =
        gates.filter fun g => g.plugin ∉ listedPlugins ctx ps' := by
      apply List.filter_congr
      intro g _
      simp [h]
    rw [pluginDefaultOutcome, pluginDefaultOutcome, hfilter]
  unfold pluginDefault
  split
  · rfl
  · rfl
  · rw [houtcome]

theorem defaultResult_congr {checkpoint : Checkpoint} {input : Except Text Json}
    {gates : Option (List PluginGate)} {ctx : MatchContext} {ps ps' : List PolicyIr}
    (h : ∀ i, i ∈ listedPlugins ctx ps ↔ i ∈ listedPlugins ctx ps') :
    defaultResult checkpoint input gates ctx ps = defaultResult checkpoint input gates ctx ps' := by
  have hcongr : ∀ gates unbuilt,
      pluginDefault gates unbuilt ctx ps = pluginDefault gates unbuilt ctx ps' :=
    fun _ _ => pluginDefault_congr h
  simp only [defaultResult, pluginsClosedDefault, hcongr]

section added

variable {host : PolicyHost} {checkpoint : Checkpoint} {version : ℕ} {input : Except Text Json}
  {ctx : MatchContext}

/-- An org-level, enforced `plugins_allowed` setting. -/
def ListsPlugins (p : StoredPolicy) : Prop :=
  p.scope.level = .org ∧ p.body.mode = .enforce ∧
    ∃ installations, p.body.body = .setting (.pluginsAllowed installations)

theorem compileRules_installations (c : Checkpoint) (i : ℕ) (patterns : host.Patterns)
    (rules : List Rule) {r : RuleIr} (hr : r ∈ (compileRules host c i patterns rules).2) :
    r.installations = [] := by
  induction rules generalizing i patterns with
  | nil => simp [compileRules] at hr
  | cons rule rules ih =>
    simp only [compileRules] at hr
    split at hr
    · rcases List.mem_cons.mp hr with rfl | hr
      · rfl
      · exact ih _ _ hr
    · exact ih _ _ hr

/-- Only an org-level, enforced `plugins_allowed` setting lists an installation. -/
theorem listsPlugins_of_listed {p : StoredPolicy} {i : Text}
    (h : i ∈ listedPlugins ctx [digestIr host checkpoint p]) : ListsPlugins p := by
  obtain ⟨ir, hir, hi⟩ := List.mem_flatMap.mp h
  obtain ⟨hmem, hfits⟩ := List.mem_filter.mp hir
  obtain rfl := List.mem_singleton.mp hmem
  simp only [Bool.and_eq_true, decide_eq_true_eq] at hfits
  obtain ⟨⟨hlevel, hmode⟩, -⟩ := hfits
  unfold digestIr at hlevel hmode hi
  cases hcompile : p.compile host with
  | error ds => simp [hcompile, stubOf] at hi
  | ok ir =>
    obtain ⟨-, -, hlevel', -, -, hmode', hrules⟩ := compile_kept hcompile
    simp only [hcompile] at hlevel hmode hi
    rw [hrules] at hi
    refine ⟨hlevel' ▸ hlevel, hmode' ▸ hmode, ?_⟩
    obtain ⟨r, hr, hi⟩ := List.mem_flatMap.mp hi
    cases hbody : p.body.body with
    | rules rules =>
      rw [hbody, compileBody] at hr
      by_cases hproject : p.scope.level = .project
      · simp [hproject] at hr
      · rw [if_neg hproject] at hr
        rw [compileRules_installations _ _ _ _ hr] at hi
        simp at hi
    | setting s =>
      rw [hbody, compileBody] at hr
      obtain rfl := List.mem_singleton.mp hr
      cases s with
      | pluginsAllowed installations => exact ⟨installations, rfl⟩
      | librariesAllowed sources =>
        simp [compileSetting, RuleIr.installations, TypedSetting.predicate] at hi
      | librariesBlocked sources =>
        simp [compileSetting, RuleIr.installations, TypedSetting.predicate] at hi

theorem listedPlugins_append {ps ps' : List PolicyIr} :
    listedPlugins ctx (ps ++ ps') = listedPlugins ctx ps ++ listedPlugins ctx ps' := by
  simp [listedPlugins]

theorem ownResult_mode (p : StoredPolicy) :
    (ownResult host checkpoint version input ctx p).mode = p.body.mode := by
  unfold ownResult
  cases hcompile : p.compile host with
  | error ds => rfl
  | ok ir =>
    rw [← (compile_kept hcompile).2.2.2.2.2.1]
    simp only [compiledResult]
    cases input with
    | error reason => rfl
    | ok v =>
      simp only [evaluateOne]
      split_ifs
      · rfl
      · rfl

theorem audit_denies_nothing {p : StoredPolicy} (h : p.body.mode = .audit) :
    denyMessages (ownResult host checkpoint version input ctx p) = [] := by
  simp [denyMessages, ownResult_mode, h]

theorem atCheckpoint_insert {pre post : List StoredPolicy} {q : StoredPolicy} :
    atCheckpoint checkpoint (pre ++ q :: post) =
      atCheckpoint checkpoint pre ++ atCheckpoint checkpoint [q] ++ atCheckpoint checkpoint post := by
  simp only [atCheckpoint, ← List.filter_append, List.append_assoc, List.singleton_append]

/-- A Policy that lists no plugin leaves the plugin default as it is. -/
theorem defaultResult_insert {pre post : List StoredPolicy} {q : StoredPolicy}
    (h : ¬ ListsPlugins q) (gates : Option (List PluginGate)) :
    defaultResult checkpoint input gates ctx
        ((atCheckpoint checkpoint (pre ++ q :: post)).map (digestIr host checkpoint)) =
      defaultResult checkpoint input gates ctx
        ((atCheckpoint checkpoint (pre ++ post)).map (digestIr host checkpoint)) := by
  apply defaultResult_congr
  intro i
  have hnone : i ∉ listedPlugins ctx ((atCheckpoint checkpoint [q]).map (digestIr host checkpoint)) := by
    intro hi
    by_cases hq : q.body.checkpoint = checkpoint
    · simp only [atCheckpoint, List.filter_cons, hq, decide_true, if_true, List.filter_nil,
        List.map_cons, List.map_nil] at hi
      exact h (listsPlugins_of_listed hi)
    · simp [atCheckpoint, hq, listedPlugins] at hi
  have hpost : atCheckpoint checkpoint (pre ++ post) =
      atCheckpoint checkpoint pre ++ atCheckpoint checkpoint post := List.filter_append ..
  rw [atCheckpoint_insert, hpost]
  simp only [List.map_append, listedPlugins_append, List.mem_append]
  tauto

theorem denies_allResults_insert {pre post : List StoredPolicy} {q : StoredPolicy}
    (h : ¬ ListsPlugins q) (gates : Option (List PluginGate)) (builtins : List PolicyResult) :
    Denies (allResults host checkpoint version input ctx gates (pre ++ q :: post) builtins) ↔
      Denies (allResults host checkpoint version input ctx gates (pre ++ post) builtins) ∨
        Denies ((atCheckpoint checkpoint [q]).map (ownResult host checkpoint version input ctx)) := by
  have hpost : atCheckpoint checkpoint (pre ++ post) =
      atCheckpoint checkpoint pre ++ atCheckpoint checkpoint post := List.filter_append ..
  unfold allResults
  rw [defaultResult_insert h, atCheckpoint_insert, hpost]
  simp only [List.map_append, denies_append]
  tauto

/-- A rule that cannot be evaluated over an input. -/
def RuleFails (host : PolicyHost) (checkpoint : Checkpoint) (version : ℕ) (v : Json)
    (rule : RuleIr) : Prop :=
  rule.effect ≠ .deny ∨
    ∃ e, predicateHit host v (bindInput host checkpoint version v) rule = .error e

/-- The input could not be built, or does not match the schema. -/
def Unbound (host : PolicyHost) (checkpoint : Checkpoint) (version : ℕ) :
    Except Text Json → Prop
  | .error _ => True
  | .ok v => ∃ e, bindInput host checkpoint version v = .error e

/-- The Policy does not compile, or has a rule and no bound input, or a rule that fails. -/
def CannotEvaluate (host : PolicyHost) (checkpoint : Checkpoint) (version : ℕ)
    (input : Except Text Json) (p : StoredPolicy) : Prop :=
  (∃ ds, p.compile host = .error ds) ∨
    ∃ ir, p.compile host = .ok ir ∧
      ((ir.rules ≠ [] ∧ Unbound host checkpoint version input) ∨
        ∃ v, input = .ok v ∧ ∃ rule ∈ ir.rules, RuleFails host checkpoint version v rule)

theorem ruleFails_of_unbound {v : Json} (h : Unbound host checkpoint version (.ok v))
    (rule : RuleIr) : RuleFails host checkpoint version v rule := by
  obtain ⟨e, he⟩ := h
  refine .inr ⟨e, ?_⟩
  rw [predicateHit, he]
  cases rule.predicate with
  | cel c => rfl
  | typed t => rfl

theorem evaluateRule_errors {v : Json} {slot : Option (Except Text host.Context)}
    (hslot : SlotBound host checkpoint version v slot) {i : ℕ} {rule : RuleIr}
    (h : RuleFails host checkpoint version v rule) :
    (evaluateRule host checkpoint version v slot i rule).1.errors ≠ [] := by
  unfold evaluateRule
  split_ifs with heffect
  · simp
  · rcases h with hdeny | ⟨e, he⟩
    · simp [hdeny] at heffect
    · simp only [celContext_eq hslot, he]
      simp

theorem evaluateRules_errors {v : Json} {slot : Option (Except Text host.Context)}
    (hslot : SlotBound host checkpoint version v slot) {i : ℕ} {rules : List RuleIr} {rule : RuleIr}
    (hmem : rule ∈ rules) (h : RuleFails host checkpoint version v rule) :
    (evaluateRules host checkpoint version v slot i rules).1.errors ≠ [] := by
  induction rules generalizing slot i with
  | nil => simp at hmem
  | cons r rs ih =>
    simp only [evaluateRules, Findings.add]
    intro hnil
    obtain ⟨hfirst, hrest⟩ := List.append_eq_nil_iff.mp hnil
    rcases List.mem_cons.mp hmem with rfl | hmem
    · exact evaluateRule_errors hslot h hfirst
    · exact ih (evaluateRule_eq hslot i r).2 hmem hrest

/-- An enforced Policy that is selected and cannot be evaluated denies. -/
theorem cannotEvaluate_denies {p : StoredPolicy} (hmode : p.body.mode = .enforce)
    (hmatch : matches_ p.body.match_ ctx = true)
    (h : CannotEvaluate host checkpoint version input p) :
    denyMessages (ownResult host checkpoint version input ctx p) ≠ [] := by
  have herror : ∃ message, (ownResult host checkpoint version input ctx p).outcome =
      .error message := by
    rcases h with ⟨ds, hcompile⟩ | ⟨ir, hcompile, hfails⟩
    · exact ⟨compileMessage p ds, by simp [ownResult, hcompile, unevaluated, stubOf, hmatch, resultOf]⟩
    · have hirmatch : matches_ ir.match_ ctx = true := by
        rw [(compile_kept hcompile).2.2.2.2.1]
        exact hmatch
      simp only [ownResult, hcompile, compiledResult]
      cases input with
      | error reason => exact ⟨reason, by simp [unevaluated, resultOf, hirmatch]⟩
      | ok v =>
        have hrule : ∃ rule ∈ ir.rules, RuleFails host checkpoint version v rule := by
          rcases hfails with ⟨hrules, hunbound⟩ | ⟨v', hv, hrule⟩
          · obtain ⟨rule, hrule⟩ := List.exists_mem_of_ne_nil _ hrules
            exact ⟨rule, hrule, ruleFails_of_unbound hunbound rule⟩
          · obtain rfl := Except.ok.inj hv
            exact hrule
        obtain ⟨rule, hmem, hrule⟩ := hrule
        have herrors : (evaluateRules host checkpoint version v none 0 ir.rules).1.errors ≠ [] :=
          evaluateRules_errors (.inl rfl) hmem hrule
        simp [evaluateOne, hirmatch, resultOf, Findings.outcome, herrors]
  obtain ⟨message, hmessage⟩ := herror
  simp [denyMessages, ownResult_mode, hmode, hmessage]

end added

theorem sortTexts_perm {l l' : List Text} (h : l.Perm l') :
    EffectiveProtection.sortTexts l = EffectiveProtection.sortTexts l' := by
  have htrans : ∀ a b c : Text, decide (a ≤ b) = true → decide (b ≤ c) = true →
      decide (a ≤ c) = true := by
    intro a b c hab hbc
    simp only [decide_eq_true_eq] at *
    exact le_trans hab hbc
  have htotal : ∀ a b : Text, (decide (a ≤ b) || decide (b ≤ a)) = true := by
    intro a b
    simp only [Bool.or_eq_true, decide_eq_true_eq]
    exact le_total a b
  have hsorted := fun l : List Text => List.pairwise_mergeSort htrans htotal l
  refine List.Perm.eq_of_pairwise ?_ (hsorted l) (hsorted l') ?_
  · intro a b _ _ hab hba
    simp only [decide_eq_true_eq] at *
    exact le_antisymm hab hba
  · exact ((List.mergeSort_perm _ _).trans h).trans (List.mergeSort_perm _ _).symm

theorem digest_perm {host : PolicyHost} {checkpoint : Checkpoint} {ps ps' : List PolicyIr}
    (h : ps.Perm ps') : policySetDigest host checkpoint ps = policySetDigest host checkpoint ps' := by
  rw [policySetDigest, policySetDigest, sortTexts_perm ((h.filter _).map _)]

/-- What a consultation decides, where the CEL thread runs. -/
def decisionOn (host : PolicyHost) (checkpoint : Checkpoint) (version : ℕ)
    (input : Except Text Json) (gates : Option (List PluginGate)) (ctx : MatchContext)
    (builtins : List PolicyResult) (stored : List StoredPolicy) : Option PolicyDecision :=
  evaluateWithBuiltins host none checkpoint version input gates ctx stored builtins

/-- Two lists of Policies are both decided, and their decisions are related. -/
def BothDecide (decide : List StoredPolicy → Option PolicyDecision)
    (stored stored' : List StoredPolicy) (r : PolicyDecision → PolicyDecision → Prop) : Prop :=
  ∃ d d', decide stored = some d ∧ decide stored' = some d' ∧ r d d'

theorem policy_decisions_fail_closed (host : PolicyHost) (checkpoint : Checkpoint) (version : ℕ)
    (input : Except Text Json) (gates : Option (List PluginGate)) (ctx : MatchContext)
    (builtins : List PolicyResult) :
    (∀ stored stored', stored.Perm stored' →
      BothDecide (decisionOn host checkpoint version input gates ctx builtins) stored stored'
        fun d d' => d.isDenied = d'.isDenied ∧ d.policySetDigest = d'.policySetDigest ∧
          ∃ default,
            d.results = builtins ++ (atCheckpoint checkpoint stored).map
              (ownResult host checkpoint version input ctx) ++ default ∧
            d'.results = builtins ++ (atCheckpoint checkpoint stored').map
              (ownResult host checkpoint version input ctx) ++ default) ∧
    (∀ pre q post, ¬ ListsPlugins q →
      BothDecide (decisionOn host checkpoint version input gates ctx builtins) (pre ++ post)
        (pre ++ q :: post) fun d d' => d.isDenied = true → d'.isDenied = true) ∧
    (∀ pre q post, q.body.mode = .audit →
      BothDecide (decisionOn host checkpoint version input gates ctx builtins) (pre ++ post)
        (pre ++ q :: post) fun d d' => d.isDenied = d'.isDenied) ∧
    (∀ pre q q' post, q.body.mode = .audit → q'.body.mode = .audit →
      BothDecide (decisionOn host checkpoint version input gates ctx builtins) (pre ++ q :: post)
        (pre ++ q' :: post) fun d d' => d.isDenied = d'.isDenied) ∧
    (∀ stored, ∀ p ∈ stored, p.body.checkpoint = checkpoint → p.body.mode = .enforce →
      matches_ p.body.match_ ctx = true → CannotEvaluate host checkpoint version input p →
      ∃ d, decisionOn host checkpoint version input gates ctx builtins stored = some d ∧
        d.isDenied = true) := by
  have hdecides := fun stored =>
    evaluateWithBuiltins_eq host checkpoint version input ctx gates stored builtins
  have haudit : ∀ pre q post, q.body.mode = .audit →
      BothDecide (decisionOn host checkpoint version input gates ctx builtins) (pre ++ post)
        (pre ++ q :: post) fun d d' => d.isDenied = d'.isDenied := by
    intro pre q post hq
    obtain ⟨d, hd, hresults, houtcome, -⟩ := hdecides (pre ++ post)
    obtain ⟨d', hd', hresults', houtcome', -⟩ := hdecides (pre ++ q :: post)
    have hlists : ¬ ListsPlugins q := fun h => absurd (hq.symm.trans h.2.1) (by decide)
    have hnone : ¬ Denies ((atCheckpoint checkpoint [q]).map
        (ownResult host checkpoint version input ctx)) := by
      rintro ⟨r, hr, hdeny⟩
      obtain ⟨p, hp, rfl⟩ := List.mem_map.mp hr
      obtain rfl := List.mem_singleton.mp (List.mem_of_mem_filter hp)
      exact hdeny (audit_denies_nothing hq)
    have hsame : d.isDenied = d'.isDenied := by
      rw [Bool.eq_iff_iff, isDenied_iff houtcome, isDenied_iff houtcome', hresults, hresults',
        denies_allResults_insert hlists]
      tauto
    exact ⟨d, d', hd, hd', hsame⟩
  refine ⟨?_, ?_, haudit, ?_, ?_⟩
  · intro stored stored' hperm
    obtain ⟨d, hd, hresults, houtcome, hdigest⟩ := hdecides stored
    obtain ⟨d', hd', hresults', houtcome', hdigest'⟩ := hdecides stored'
    have hat : (atCheckpoint checkpoint stored).Perm (atCheckpoint checkpoint stored') :=
      hperm.filter _
    have hdefault : defaultResult checkpoint input gates ctx
        ((atCheckpoint checkpoint stored).map (digestIr host checkpoint)) =
        defaultResult checkpoint input gates ctx
          ((atCheckpoint checkpoint stored').map (digestIr host checkpoint)) := by
      apply defaultResult_congr
      intro i
      exact (((hat.map _).filter _).flatMap_right _).mem_iff
    refine ⟨d, d', hd, hd', ?_, ?_, _, hresults, ?_⟩
    · rw [Bool.eq_iff_iff, isDenied_iff houtcome, isDenied_iff houtcome', hresults, hresults']
      unfold allResults
      rw [hdefault]
      have hown : Denies ((atCheckpoint checkpoint stored).map
          (ownResult host checkpoint version input ctx)) ↔
          Denies ((atCheckpoint checkpoint stored').map
            (ownResult host checkpoint version input ctx)) :=
        ⟨fun h => h.mono fun r => (hat.map _).mem_iff.mp, fun h => h.mono fun r => (hat.map _).mem_iff.mpr⟩
      simp only [denies_append, hown]
    · rw [hdigest, hdigest', digest_perm (hat.map _)]
    · rw [hresults', allResults, hdefault]
  · intro pre q post hq
    obtain ⟨d, hd, hresults, houtcome, -⟩ := hdecides (pre ++ post)
    obtain ⟨d', hd', hresults', houtcome', -⟩ := hdecides (pre ++ q :: post)
    refine ⟨d, d', hd, hd', fun hdenied => ?_⟩
    rw [isDenied_iff houtcome, hresults] at hdenied
    rw [isDenied_iff houtcome', hresults', denies_allResults_insert hq]
    exact .inl hdenied
  · intro pre q q' post hq hq'
    obtain ⟨d₀, d, hd₀, hd, hsame⟩ := haudit pre q post hq
    obtain ⟨d₁, d', hd₁, hd', hsame'⟩ := haudit pre q' post hq'
    obtain rfl : d₀ = d₁ := Option.some.inj (hd₀.symm.trans hd₁)
    exact ⟨d, d', hd, hd', hsame.symm.trans hsame'⟩
  · intro stored p hp hcheckpoint hmode hmatch hcannot
    obtain ⟨d, hd, hresults, houtcome, -⟩ := hdecides stored
    refine ⟨d, hd, (isDenied_iff houtcome).mpr ?_⟩
    rw [hresults]
    have hat : p ∈ atCheckpoint checkpoint stored := by simp [atCheckpoint, hp, hcheckpoint]
    exact ⟨_, by simp only [allResults, List.mem_append]; exact .inl (.inr (List.mem_map_of_mem hat)),
      cannotEvaluate_denies hmode hmatch hcannot⟩

end Scarab.Policy
