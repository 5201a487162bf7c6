import Scarab.PipelineBinding

/-!
# The command boundary

Two launches of one step render the same command up to pieces of a fixed shape. An expression
the boundary calls the pipeline's own has one value in both: its reads agree, by induction over
the callers its inputs come from. Any other expression is refused or checked against a shape.
-/
namespace Scarab.Pipeline

def DecimalText (t : Text) : Prop :=
  (t ≠ [] ∧ ∀ c ∈ t, c.isDigit = true) ∨
    ∃ whole frac : Text, t = whole ++ '.' :: frac ∧ whole ≠ [] ∧ frac ≠ [] ∧
      ∀ c ∈ whole ++ frac, c.isDigit = true

def ShaText (t : Text) : Prop :=
  (t.length = 40 ∨ t.length = 64) ∧ ∀ c ∈ t, c ∈ "0123456789abcdef".toList

/-- The declaration of an input a scope's templates read. -/
def DeclaresInput (declared : List ParamSpec) (name : Text) (spec : ParamSpec) : Option Scope → Prop
  | some ⟨.bound bindings, _, _, _⟩ => ∃ b, bindings.get name = some b ∧ b.param = some spec
  | _ => spec ∈ declared ∧ spec.name = name

/-- An option listed for the choice input an expression is. -/
def ListedChoice (host : Host) (declared : List ParamSpec) (scope : Option Scope)
    (expr t : Text) : Prop :=
  ∃ name spec options, host.path expr = some ["inputs".toList, name] ∧
    DeclaresInput declared name spec scope ∧ spec.type = .choice ∧
    spec.options = some options ∧ t ∈ options

def FixedText (host : Host) (declared : List ParamSpec) (scope : Option Scope)
    (expr t : Text) : Prop :=
  t = "true".toList ∨ t = "false".toList ∨ DecimalText t ∨ ShaText t ∨ t ∈ triggerKinds ∨
    ListedChoice host declared scope expr t

/-- Two arguments put together from one template: the same text around pieces that are equal or
both of a fixed shape. -/
def SamePieces (host : Host) (declared : List ParamSpec) (scope : Option Scope)
    (template a₁ a₂ : Text) : Prop :=
  ∃ pieces : List (Interpolation × Text × Text),
    pieces.map (·.1) = (scanInterpolations template).found ∧
    a₁ = pieces.flatMap (fun p => p.1.before ++ p.2.1) ++ (scanInterpolations template).rest ∧
    a₂ = pieces.flatMap (fun p => p.1.before ++ p.2.2) ++ (scanInterpolations template).rest ∧
    ∀ p ∈ pieces, p.2.1 = p.2.2 ∨
      FixedText host declared scope p.1.expr p.2.1 ∧ FixedText host declared scope p.1.expr p.2.2

theorem Source.join_eq_pipeline {a b : Source} (h : a.join b = .pipeline) :
    a = .pipeline ∧ b = .pipeline := by
  cases a <;> cases b <;> simp_all [Source.join, Source.rank]

theorem Source.foldl_join_eq_pipeline {ss : List Source} : ∀ {a : Source},
    ss.foldl Source.join a = .pipeline → a = .pipeline ∧ ∀ s ∈ ss, s = .pipeline := by
  induction ss with
  | nil => exact fun h => ⟨h, by simp⟩
  | cons s ss ih =>
    intro a h
    obtain ⟨hj, hss⟩ := ih h
    obtain ⟨ha, hs⟩ := Source.join_eq_pipeline hj
    exact ⟨ha, by simpa [hs] using hss⟩

theorem Source.furthest_eq_pipeline {ss : List Source} (h : Source.furthest ss = .pipeline) :
    ∀ s ∈ ss, s = .pipeline :=
  (Source.foldl_join_eq_pipeline h).2

theorem Input.outside_ne_pipeline (param : ParamSpec) : (Input.outside param).source ≠ .pipeline := by
  unfold Input.outside
  cases param.type <;> simp

section agree

variable {host : Host} {declared : List ParamSpec} {sources : InputSources} {expr : Text}

theorem run_ofRead_pipeline {r : Read} (h : (InputSources.run declared).ofRead r = .pipeline) :
    r.var = "matrix".toList := by
  by_contra hm
  simp only [InputSources.ofRead, if_neg hm] at h
  split_ifs at h with hi he
  · cases hf : r.first with
    | none => simp [hf, InputSources.run] at h
    | some name =>
      simp only [hf, InputSources.input, InputSources.run] at h
      split at h
      · next i hget =>
        rcases SortedMap.get_insertAll hget with hmem | hnone
        · obtain ⟨p, -, hp⟩ := List.mem_map.mp hmem
          obtain ⟨-, rfl⟩ := Prod.mk.inj hp
          exact Input.outside_ne_pipeline p h
        · cases hnone
      · cases h
  · split at h
    · split_ifs at h
    · cases h

/-- Every read of an expression that is the pipeline's own is the pipeline's own. -/
theorem reads_of_ofExpr (h : sources.ofExpr host expr = .pipeline) {rs : List Read}
    (hrs : host.reads expr = .ok rs) {r : Read} (hr : r ∈ rs) : sources.ofRead r = .pipeline := by
  simp only [InputSources.ofExpr, hrs] at h
  exact Source.furthest_eq_pipeline h _ (List.mem_map_of_mem hr)

theorem ofExpr_of_ofTemplate {template : Text} (h : sources.ofTemplate host template = .pipeline)
    {i : Interpolation} (hi : i ∈ (scanInterpolations template).found) :
    sources.ofExpr host i.expr = .pipeline := by
  simp only [InputSources.ofTemplate] at h
  split_ifs at h
  exact Source.furthest_eq_pipeline h _ (List.mem_map_of_mem hi)

/-- An input that is the pipeline's own is a literal, or a template of the pipeline's own. -/
theorem ofBinding_pipeline {caller : Option InputSources} {b : Binding}
    (h : (InputSources.ofBinding host caller b).source = .pipeline) :
    (∃ v, b.value = .literal v) ∨
      ∃ t c, b.value = .template t ∧ caller = some c ∧ c.ofTemplate host t = .pipeline := by
  cases hb : b.value with
  | literal v => exact .inl ⟨v, rfl⟩
  | template t =>
    right
    simp only [InputSources.ofBinding, hb] at h
    cases caller with
    | none =>
      cases hp : b.param with
      | none => simp [hp] at h
      | some p => simp [hp, Input.outside_ne_pipeline] at h
    | some c =>
      refine ⟨t, c, rfl, rfl, ?_⟩
      cases hc : c.ofTemplate host t with
      | pipeline => rfl
      | fixed =>
        cases hp : b.param with
        | none => simp [hc, hp] at h
        | some p => simp [hc, hp, Input.outside_ne_pipeline] at h
      | free =>
        cases hp : b.param with
        | none => simp [hc, hp] at h
        | some p => simp [hc, hp, Input.outside_ne_pipeline] at h

end agree

section launches

variable {host : Host} {declared : List ParamSpec} {params₁ params₂ event₁ event₂ : SortedMap Text Json}
  {results₁ results₂ : Results} {bindings : SortedMap Text Binding}
  {outputs : SortedMap Text OutputSource} {matrix : SortedMap Text Text} {caller : Option Scope}

theorem ofScope_bound : InputSources.ofScope host declared ⟨.bound bindings, outputs, matrix, caller⟩ =
    let inputs := bindings.map (InputSources.ofBinding host (caller.map (InputSources.ofScope host declared)))
    ⟨inputs, Source.furthest (inputs.values.map (·.source))⟩ := by
  cases caller <;> rfl

/-- What a bound read of the pipeline's own can be. -/
theorem ofRead_bound_pipeline {r : Read} {inputs : SortedMap Text Input} {whole : Source}
    (h : InputSources.ofRead ⟨inputs, whole⟩ r = .pipeline) :
    r.var = "matrix".toList ∨ r.var = "inputs".toList ∧
      ((∃ name i, r.first = some name ∧ inputs.get name = some i ∧ i.source = .pipeline) ∨
        whole = .pipeline) := by
  by_cases hm : r.var = "matrix".toList
  · exact .inl hm
  · right
    simp only [InputSources.ofRead, if_neg hm] at h
    split_ifs at h with hi he
    · refine ⟨hi, ?_⟩
      cases hf : r.first with
      | none => exact .inr (by simpa [hf] using h)
      | some name =>
        simp only [hf, InputSources.input] at h
        split at h
        · next i hget => exact .inl ⟨name, i, rfl, hget, h⟩
        · cases h
    · split at h
      · split_ifs at h
      · cases h

/-- One level of `launch_agrees`, given it for the caller. -/
theorem bound_launch_agrees (hcel : host.ReadsOnly) {b₁ b₂ : Bound}
    (h₁ : bindScope host params₁ event₁ (some results₁) .launch
      ⟨.bound bindings, outputs, matrix, caller⟩ = .ok b₁)
    (h₂ : bindScope host params₂ event₂ (some results₂) .launch
      ⟨.bound bindings, outputs, matrix, caller⟩ = .ok b₂)
    (ih : ∀ c, caller = some c → ∀ bc₁ bc₂,
      bindScope host params₁ event₁ (some results₁) .launch c = .ok bc₁ →
      bindScope host params₂ event₂ (some results₂) .launch c = .ok bc₂ →
      ∀ r, (InputSources.ofScope host declared c).ofRead r = .pipeline → r.Agrees bc₁.ctx bc₂.ctx)
    {r : Read} (hr : (InputSources.ofScope host declared
      ⟨.bound bindings, outputs, matrix, caller⟩).ofRead r = .pipeline) :
    r.Agrees b₁.ctx b₂.ctx := by
  obtain ⟨cb₁, values₁, hvals₁, rfl, hcb₁, hne₁⟩ := bindScope_bound h₁
  obtain ⟨cb₂, values₂, hvals₂, rfl, hcb₂, hne₂⟩ := bindScope_bound h₂
  have hown : ∀ n d, bindings.get n = some d →
      (InputSources.ofBinding host (caller.map (InputSources.ofScope host declared)) d).source =
        .pipeline →
      ∀ o, bindInput host .launch cb₁ n d = .ok o → bindInput host .launch cb₂ n d = .ok o := by
    intro n d hd hsrc o ho
    rcases ofBinding_pipeline hsrc with ⟨v, hv⟩ | ⟨t, sc, ht, hsc, htem⟩
    · simp only [bindInput, hv] at ho ⊢
      exact ho
    · obtain ⟨bc₁, hbc₁⟩ := Option.ne_none_iff_exists'.mp
        (hne₁ (hasTemplate_of_get hd ht) (by simp))
      obtain ⟨bc₂, hbc₂⟩ := Option.ne_none_iff_exists'.mp
        (hne₂ (hasTemplate_of_get hd ht) (by simp))
      obtain ⟨c, hc, hb₁⟩ := hcb₁ bc₁ hbc₁
      obtain ⟨c', hc', hb₂⟩ := hcb₂ bc₂ hbc₂
      obtain rfl := Option.some.inj (hc.symm.trans hc')
      obtain rfl : InputSources.ofScope host declared c = sc := by simpa [hc] using hsc
      have hag : ∀ i ∈ (scanInterpolations t).found, ReadsAgree host i.expr bc₁.ctx bc₂.ctx :=
        fun i hi rs hrs r' hr' =>
          ih c hc bc₁ bc₂ hb₁ hb₂ r' (reads_of_ofExpr (ofExpr_of_ofTemplate htem hi) hrs hr')
      rw [hbc₁] at ho
      rw [hbc₂]
      simp only [bindInput, ht, ne_eq, not_true_eq_false, false_and, if_false] at ho ⊢
      cases hv : templateValue host bc₁.ctx n d t with
      | error x => simp [hv] at ho
      | ok v =>
        rw [templateValue_congr hcel hag hv]
        simpa [hv] using ho
  rw [ofScope_bound] at hr
  rcases ofRead_bound_pipeline hr with hm | ⟨hi, ⟨name, i, hf, hget, hsrc⟩ | hwhole⟩
  · left
    rw [hm, boundOf_matrix, boundOf_matrix]
  · right
    refine ⟨name, values₁.entries, values₂.entries, hf, ?_, ?_, ?_⟩
    · rw [hi, boundOf_inputs]; rfl
    · rw [hi, boundOf_inputs]; rfl
    · rw [SortedMap.get_map] at hget
      obtain ⟨d, hd, rfl⟩ := Option.map_eq_some_iff.mp hget
      have hv₁ := SortedMap.apply_of_filterMapM hvals₁ hd
      have hv₂ := SortedMap.apply_of_filterMapM hvals₂ hd
      rw [hown name d hd hsrc _ hv₁, Except.ok.injEq] at hv₂
      rw [fieldOf_entries, fieldOf_entries, hv₂]
  · left
    have hall : ∀ e ∈ bindings.entries, (InputSources.ofBinding host
        (caller.map (InputSources.ofScope host declared)) e.2).source = .pipeline := by
      intro e he
      have hd : bindings.get e.1 = some e.2 := SortedMap.get_eq_some.mpr he
      exact Source.furthest_eq_pipeline hwhole _ (List.mem_map_of_mem
        (SortedMap.mem_values.mpr ⟨e.1, by rw [SortedMap.get_map, hd]; rfl⟩))
    have hent := SortedMap.filterMapEntries_congr (SortedMap.entries_of_filterMapM hvals₁)
      fun e he => hown e.1 e.2 (SortedMap.get_eq_some.mpr he) (hall e he)
    rw [SortedMap.entries_of_filterMapM hvals₂, Except.ok.injEq] at hent
    rw [hi, boundOf_inputs, boundOf_inputs, objectOf, objectOf, hent]

/-- What is the pipeline's own has one value in every launch. -/
theorem launch_agrees (hcel : host.ReadsOnly) : ∀ {s : Scope} {b₁ b₂ : Bound},
    bindScope host params₁ event₁ (some results₁) .launch s = .ok b₁ →
    bindScope host params₂ event₂ (some results₂) .launch s = .ok b₂ →
    ∀ r, (InputSources.ofScope host declared s).ofRead r = .pipeline → r.Agrees b₁.ctx b₂.ctx
  | ⟨.run, outputs, matrix, _⟩, b₁, b₂, h₁, h₂, r, hr => by
      simp only [bindScope, Except.ok.injEq] at h₁ h₂
      subst h₁ h₂
      left
      rw [run_ofRead_pipeline hr, boundOf_matrix, boundOf_matrix]
  | ⟨.bound bindings, outputs, matrix, none⟩, b₁, b₂, h₁, h₂, r, hr =>
      bound_launch_agrees hcel h₁ h₂ (fun c hc => by cases hc) hr
  | ⟨.bound bindings, outputs, matrix, some c⟩, b₁, b₂, h₁, h₂, r, hr => by
      refine bound_launch_agrees hcel h₁ h₂ (fun c' hc bc₁ bc₂ hb₁ hb₂ r' hr' => ?_) hr
      obtain rfl := Option.some.inj hc
      exact launch_agrees hcel hb₁ hb₂ r' hr'

theorem bind_launch_agrees (hcel : host.ReadsOnly) {scope : Option Scope}
    {matrixValues : SortedMap Text Text} {b₁ b₂ : Bound}
    (h₁ : bind host scope matrixValues params₁ event₁ (some results₁) .launch = .ok b₁)
    (h₂ : bind host scope matrixValues params₂ event₂ (some results₂) .launch = .ok b₂) (r : Read)
    (hr : (InputSources.of host declared scope).ofRead r = .pipeline) :
    r.Agrees b₁.ctx b₂.ctx := by
  cases scope with
  | none =>
    simp only [bind, Except.ok.injEq] at h₁ h₂
    subst h₁ h₂
    left
    rw [run_ofRead_pipeline hr, boundOf_matrix, boundOf_matrix]
  | some s => exact launch_agrees hcel h₁ h₂ r hr

end launches

section fixed

variable {host : Host} {declared : List ParamSpec} {scope : Option Scope} {expr t : Text}

theorem isDigits_iff : isDigits t = true ↔ t ≠ [] ∧ ∀ c ∈ t, c.isDigit = true := by
  simp [isDigits, List.all_eq_true]

theorem decimalText_of_isDecimal (h : isDecimal t = true) : DecimalText t := by
  unfold isDecimal at h
  split at h
  · next whole frac hs =>
    obtain ⟨hw, hf⟩ := Bool.and_eq_true _ _ |>.mp h
    obtain ⟨hw, hwd⟩ := isDigits_iff.mp hw
    obtain ⟨hf, hfd⟩ := isDigits_iff.mp hf
    right
    refine ⟨whole, frac, by simpa using splitOnce_eq_some hs, hw, hf, fun c hc => ?_⟩
    rcases List.mem_append.mp hc with hc | hc
    · exact hwd c hc
    · exact hfd c hc
  · exact .inl (isDigits_iff.mp h)

theorem decimalText_natText (n : ℕ) : DecimalText (natText n) :=
  .inl ⟨Nat.toDigits_ne_nil, fun _ hc => Nat.isDigit_of_mem_toDigits (by decide) le_rfl hc⟩

theorem mem_hex_of_isDigit {c : Char} (h : c.isDigit = true ∨ 'a' ≤ c ∧ c ≤ 'f') :
    c ∈ "0123456789abcdef".toList := by
  have hn : 48 ≤ c.toNat ∧ c.toNat ≤ 57 ∨ 97 ≤ c.toNat ∧ c.toNat ≤ 102 := by
    rcases h with h | ⟨h₁, h₂⟩
    · left
      simpa [Char.isDigit, UInt32.le_iff_toNat_le] using h
    · exact .inr ⟨h₁, h₂⟩
  rw [← Char.ofNat_toNat c]
  generalize c.toNat = n at hn
  rcases hn with ⟨h₁, h₂⟩ | ⟨h₁, h₂⟩ <;> interval_cases n <;> decide

theorem shaText_of_isSha (h : isSha t = true) : ShaText t := by
  simp only [isSha, Bool.and_eq_true, Bool.or_eq_true, decide_eq_true_eq, List.all_eq_true] at h
  exact ⟨h.1, fun c hc => mem_hex_of_isDigit (h.2 c hc)⟩

/-- An input that keeps options is a choice from outside. -/
theorem outside_options {param : ParamSpec} {options : List Text}
    (h : (Input.outside param).options = some options) (ht : t ∈ options) :
    param.type = .choice ∧ param.options = some options := by
  unfold Input.outside at h
  cases htype : param.type with
  | choice =>
    simp only [htype, Option.some.injEq] at h
    refine ⟨rfl, ?_⟩
    cases ho : param.options with
    | none =>
      simp only [ho, Option.getD_none] at h
      subst h
      cases ht
    | some os => simpa [ho] using h
  | _ => simp [htype] at h

theorem run_options {name : Text} {i : Input} {options : List Text}
    (hget : (InputSources.run declared).inputs.get name = some i) (hi : i.options = some options)
    (ht : t ∈ options) :
    ∃ spec ∈ declared, spec.name = name ∧ spec.type = .choice ∧ spec.options = some options := by
  rcases SortedMap.get_insertAll hget with hmem | hnone
  · obtain ⟨p, hp, he⟩ := List.mem_map.mp hmem
    obtain ⟨hname, rfl⟩ := Prod.mk.inj he
    obtain ⟨htype, hopts⟩ := outside_options hi ht
    exact ⟨p, hp, hname, htype, hopts⟩
  · cases hnone

theorem ofBinding_options {caller : Option InputSources} {b : Binding} {options : List Text}
    (hi : (InputSources.ofBinding host caller b).options = some options) (ht : t ∈ options) :
    ∃ spec, b.param = some spec ∧ spec.type = .choice ∧ spec.options = some options := by
  simp only [InputSources.ofBinding] at hi
  split at hi
  · cases hi
  · next hp _ =>
    obtain ⟨htype, hopts⟩ := outside_options hi ht
    exact ⟨_, hp, htype, hopts⟩
  · cases hi

/-- The options the boundary keeps for an input are those its declaration lists. -/
theorem listedChoice_of_shape {options : List Text}
    (h : (InputSources.of host declared scope).shape host expr = some (.choice options))
    (ht : t ∈ options) : ListedChoice host declared scope expr t := by
  unfold InputSources.shape at h
  split at h
  · next var name hpath =>
    split_ifs at h with hvar
    · subst hvar
      split at h
      · next i hget =>
        obtain ⟨os, hos, he⟩ := Option.map_eq_some_iff.mp h
        obtain rfl := Shape.choice.inj he
        match scope with
        | none =>
          obtain ⟨spec, hmem, hname, htype, hopts⟩ := run_options hget hos ht
          exact ⟨name, spec, os, hpath, ⟨hmem, hname⟩, htype, hopts, ht⟩
        | some ⟨.run, _, _, _⟩ =>
          obtain ⟨spec, hmem, hname, htype, hopts⟩ := run_options hget hos ht
          exact ⟨name, spec, os, hpath, ⟨hmem, hname⟩, htype, hopts, ht⟩
        | some ⟨.bound bindings, _, _, caller⟩ =>
          rw [InputSources.of, ofScope_bound, SortedMap.get_map] at hget
          obtain ⟨d, hd, rfl⟩ := Option.map_eq_some_iff.mp hget
          obtain ⟨spec, hspec, htype, hopts⟩ := ofBinding_options hos ht
          exact ⟨name, spec, os, hpath, ⟨d, hd, hspec⟩, htype, hopts, ht⟩
      · cases h
    all_goals cases h
  · cases h

theorem fixedText_boolText (b : Bool) : FixedText host declared scope expr (boolText b) := by
  cases b with
  | false => exact .inr (.inl rfl)
  | true => exact .inl rfl

theorem fixedText_sound {v : Json}
    (h : fixedText v ((InputSources.of host declared scope).shape host expr) = some t) :
    FixedText host declared scope expr t := by
  generalize hs : (InputSources.of host declared scope).shape host expr = shape at h
  unfold fixedText at h
  split at h
  · split_ifs at h with hsha
    exact .inr (.inr (.inr (.inl (shaText_of_isSha (Option.some.inj h ▸ hsha)))))
  · cases h
  · next n =>
    split_ifs at h with hn
    obtain rfl := Option.some.inj h
    cases n with
    | posInt k => exact .inr (.inr (.inl (decimalText_natText k)))
    | negInt k => simp [Number.asU64] at hn
    | float shown => simp [Number.asU64] at hn
  · cases h
  · obtain rfl := Option.some.inj h
    exact fixedText_boolText _
  · cases h
  · split_ifs at h with hk
    exact .inr (.inr (.inr (.inr (.inl (Option.some.inj h ▸ hk)))))
  · cases h
  · obtain rfl := Option.some.inj h
    exact fixedText_boolText _
  · split_ifs at h with hd
    exact .inr (.inr (.inl (decimalText_of_isDecimal (Option.some.inj h ▸ hd))))
  · split_ifs at h with ho
    exact .inr (.inr (.inr (.inr (.inr (listedChoice_of_shape hs (Option.some.inj h ▸ ho))))))
  · cases h

end fixed

section commands

variable {host : Host} {declared : List ParamSpec} {scope : Option Scope} {index : ℕ}
  {value₁ value₂ : Text → Except RenderError (Option Json)}

/-- Two ways to give an expression its value that agree on the pipeline's own. -/
def OwnAgree (host : Host) (declared : List ParamSpec) (scope : Option Scope)
    (value₁ value₂ : Text → Except RenderError (Option Json)) : Prop :=
  ∀ expr o₁ o₂, (InputSources.of host declared scope).ofExpr host expr = .pipeline →
    value₁ expr = .ok o₁ → value₂ expr = .ok o₂ → o₁ = o₂

/-- Nothing is left unknown. -/
def Total (value : Text → Except RenderError (Option Json)) : Prop :=
  ∀ expr, value expr ≠ .ok none

theorem argumentPiece_cases {i : Interpolation} {t : Text} (htotal : Total value₁)
    (h : argumentPiece host (InputSources.of host declared scope) value₁ index i = .ok t) :
    ((InputSources.of host declared scope).ofExpr host i.expr = .pipeline ∧
      ∃ v, value₁ i.expr = .ok (some v) ∧ t = renderValue v) ∨
      (InputSources.of host declared scope).ofExpr host i.expr = .fixed ∧
        FixedText host declared scope i.expr t := by
  unfold argumentPiece at h
  cases hs : (InputSources.of host declared scope).ofExpr host i.expr with
  | free => simp [hs] at h
  | pipeline =>
    left
    simp only [hs] at h
    cases hv : value₁ i.expr with
    | error x => simp [hv] at h
    | ok o =>
      cases o with
      | none => exact absurd hv (htotal _)
      | some v =>
        simp only [hv, reduceCtorEq, if_false, Except.ok.injEq] at h
        exact ⟨rfl, v, rfl, h.symm⟩
  | fixed =>
    right
    simp only [hs] at h
    cases hv : value₁ i.expr with
    | error x => simp [hv] at h
    | ok o =>
      cases o with
      | none => exact absurd hv (htotal _)
      | some v =>
        simp only [hv, if_true] at h
        cases hf : fixedText v ((InputSources.of host declared scope).shape host i.expr) with
        | none => simp [hf] at h
        | some text =>
          simp only [hf, Except.ok.injEq] at h
          exact ⟨rfl, h ▸ fixedText_sound hf⟩

theorem argumentPieces_cons {i : Interpolation} {is : List Interpolation} {t : Text}
    {sources : InputSources}
    (h : argumentPieces host sources value₁ index (i :: is) = .ok t) :
    ∃ piece tail, argumentPiece host sources value₁ index i = .ok piece ∧
      argumentPieces host sources value₁ index is = .ok tail ∧
      t = i.before ++ piece ++ tail := by
  simp only [argumentPieces, Bind.bind, Except.bind] at h
  split at h
  · cases h
  · next piece hp =>
    split at h
    · cases h
    · next tail ht => exact ⟨piece, tail, hp, ht, (Except.ok.inj h).symm⟩

theorem pieces_of_argumentPieces (hagree : OwnAgree host declared scope value₁ value₂)
    (htotal₁ : Total value₁) (htotal₂ : Total value₂) :
    ∀ {is : List Interpolation} {t₁ t₂ : Text},
      argumentPieces host (InputSources.of host declared scope) value₁ index is = .ok t₁ →
      argumentPieces host (InputSources.of host declared scope) value₂ index is = .ok t₂ →
      ∃ pieces : List (Interpolation × Text × Text), pieces.map (·.1) = is ∧
        t₁ = pieces.flatMap (fun p => p.1.before ++ p.2.1) ∧
        t₂ = pieces.flatMap (fun p => p.1.before ++ p.2.2) ∧
        ∀ p ∈ pieces, p.2.1 = p.2.2 ∨ FixedText host declared scope p.1.expr p.2.1 ∧
          FixedText host declared scope p.1.expr p.2.2
  | [], t₁, t₂, h₁, h₂ => by
      obtain rfl := Except.ok.inj h₁
      obtain rfl := Except.ok.inj h₂
      exact ⟨[], rfl, rfl, rfl, by simp⟩
  | i :: is, t₁, t₂, h₁, h₂ => by
      obtain ⟨p₁, tail₁, hp₁, ht₁, rfl⟩ := argumentPieces_cons h₁
      obtain ⟨p₂, tail₂, hp₂, ht₂, rfl⟩ := argumentPieces_cons h₂
      obtain ⟨pieces, hmap, rfl, rfl, hpieces⟩ :=
        pieces_of_argumentPieces hagree htotal₁ htotal₂ ht₁ ht₂
      refine ⟨(i, p₁, p₂) :: pieces, by simp [hmap], by simp, by simp, fun p hp => ?_⟩
      rcases List.mem_cons.mp hp with rfl | hp
      · rcases argumentPiece_cases htotal₁ hp₁ with ⟨hs, v₁, hv₁, rfl⟩ | ⟨hs, hf₁⟩
        · rcases argumentPiece_cases htotal₂ hp₂ with ⟨-, v₂, hv₂, rfl⟩ | ⟨hs', -⟩
          · left
            rw [Option.some.inj (hagree _ _ _ hs hv₁ hv₂)]
          · rw [hs] at hs'
            cases hs'
        · rcases argumentPiece_cases htotal₂ hp₂ with ⟨hs', -⟩ | ⟨-, hf₂⟩
          · rw [hs] at hs'
            cases hs'
          · exact .inr ⟨hf₁, hf₂⟩
      · exact hpieces p hp

theorem samePieces_of_argument (hagree : OwnAgree host declared scope value₁ value₂)
    (htotal₁ : Total value₁) (htotal₂ : Total value₂) {strict : Bool} {template a₁ a₂ : Text}
    (h₁ : argument host (InputSources.of host declared scope) strict value₁ index template = .ok a₁)
    (h₂ : argument host (InputSources.of host declared scope) strict value₂ index template = .ok a₂) :
    SamePieces host declared scope template a₁ a₂ := by
  simp only [argument, Bind.bind, Except.bind] at h₁ h₂
  split at h₁
  · cases h₁
  · next t₁ ht₁ =>
    split at h₂
    · cases h₂
    · next t₂ ht₂ =>
      split_ifs at h₁ h₂
      obtain rfl := Except.ok.inj h₁
      obtain rfl := Except.ok.inj h₂
      obtain ⟨pieces, hmap, rfl, rfl, hpieces⟩ :=
        pieces_of_argumentPieces hagree htotal₁ htotal₂ ht₁ ht₂
      exact ⟨pieces, hmap, rfl, rfl, hpieces⟩

theorem samePieces_of_arguments (hagree : OwnAgree host declared scope value₁ value₂)
    (htotal₁ : Total value₁) (htotal₂ : Total value₂) {strict : Bool} :
    ∀ {command args₁ args₂ : List Text} {index : ℕ},
      argumentsFrom host (InputSources.of host declared scope) strict value₁ index command = .ok args₁ →
      argumentsFrom host (InputSources.of host declared scope) strict value₂ index command = .ok args₂ →
      args₁.length = command.length ∧ args₂.length = command.length ∧
        ∀ (n : ℕ) template a₁ a₂, command[n]? = some template → args₁[n]? = some a₁ →
          args₂[n]? = some a₂ → SamePieces host declared scope template a₁ a₂
  | [], args₁, args₂, index, h₁, h₂ => by
      obtain rfl := Except.ok.inj h₁
      obtain rfl := Except.ok.inj h₂
      exact ⟨rfl, rfl, fun n template a₁ a₂ h => by simp at h⟩
  | template :: rest, args₁, args₂, index, h₁, h₂ => by
      simp only [argumentsFrom, Bind.bind, Except.bind] at h₁ h₂
      split at h₁
      · cases h₁
      · next a₁ ha₁ =>
        split at h₁
        · cases h₁
        · next as₁ has₁ =>
          split at h₂
          · cases h₂
          · next a₂ ha₂ =>
            split at h₂
            · cases h₂
            · next as₂ has₂ =>
              obtain rfl := Except.ok.inj h₁
              obtain rfl := Except.ok.inj h₂
              obtain ⟨hlen₁, hlen₂, hall⟩ :=
                samePieces_of_arguments hagree htotal₁ htotal₂ has₁ has₂
              refine ⟨by simp [hlen₁], by simp [hlen₂], fun n => ?_⟩
              cases n with
              | zero =>
                intro t b₁ b₂ ht hb₁ hb₂
                simp only [List.getElem?_cons_zero, Option.some.injEq] at ht hb₁ hb₂
                subst ht hb₁ hb₂
                exact samePieces_of_argument hagree htotal₁ htotal₂ ha₁ ha₂
              | succ n =>
                simp only [List.getElem?_cons_succ]
                exact hall n

end commands

section boundary

variable {host : Host} {declared : List ParamSpec} {scope : Option Scope}
  {matrixValues : SortedMap Text Text} {templates : Templates}
  {params₁ params₂ event₁ event₂ : SortedMap Text Json} {results₁ results₂ : Results}

/-- The value of an expression at launch. -/
def launchValue (host : Host) (b : Bound) (expr : Text) : Except RenderError (Option Json) :=
  match host.eval expr b.ctx with
  | .ok v => .ok (some v)
  | .error e => .error (.cel e)

theorem launchValue_total (b : Bound) : Total (launchValue host b) := by
  intro expr h
  unfold launchValue at h
  split at h <;> cases h

theorem launchValue_eq_ok {b : Bound} {expr : Text} {o : Option Json} :
    launchValue host b expr = .ok o ↔ ∃ v, host.eval expr b.ctx = .ok v ∧ o = some v := by
  unfold launchValue
  cases host.eval expr b.ctx <;> simp [eq_comm]

theorem renderLaunch_command {params event : SortedMap Text Json} {results : Results} {r : Rendered}
    (h : renderLaunch host templates scope matrixValues params declared results event = .ok r) :
    ∃ b, bind host scope matrixValues params event (some results) .launch = .ok b ∧
      argumentsFrom host (InputSources.of host declared scope) true (launchValue host b) 0
        templates.command = .ok r.command := by
  simp only [renderLaunch, Bind.bind, Except.bind] at h
  cases hb : bind host scope matrixValues params event (some results) .launch with
  | error x => simp [hb] at h
  | ok b =>
    refine ⟨b, rfl, ?_⟩
    simp only [hb] at h
    cases hi : host.interpolate templates.image b.ctx with
    | error x => simp [hi] at h
    | ok image =>
      simp only [hi] at h
      split_ifs at h
      split at h
      · cases h
      · next command hc =>
        split at h
        · cases h
        · obtain rfl := Except.ok.inj h
          exact hc

/-- Two launches of one step render an argument for each template of its command, and each from the
same text around pieces that are equal or of a fixed shape. -/
theorem command_samePieces (hcel : host.ReadsOnly) {r₁ r₂ : Rendered}
    (h₁ : render host templates scope matrixValues
      (.launch params₁ declared results₁ event₁) = .ok r₁)
    (h₂ : render host templates scope matrixValues
      (.launch params₂ declared results₂ event₂) = .ok r₂) :
    r₁.command.length = templates.command.length ∧ r₂.command.length = templates.command.length ∧
      ∀ (n : ℕ) template a₁ a₂, templates.command[n]? = some template → r₁.command[n]? = some a₁ →
        r₂.command[n]? = some a₂ → SamePieces host declared scope template a₁ a₂ := by
  obtain ⟨b₁, hb₁, hc₁⟩ := renderLaunch_command h₁
  obtain ⟨b₂, hb₂, hc₂⟩ := renderLaunch_command h₂
  have hagree : OwnAgree host declared scope (launchValue host b₁) (launchValue host b₂) := by
    intro expr o₁ o₂ hs ho₁ ho₂
    obtain ⟨v₁, hv₁, rfl⟩ := launchValue_eq_ok.mp ho₁
    obtain ⟨v₂, hv₂, rfl⟩ := launchValue_eq_ok.mp ho₂
    have hreads : ReadsAgree host expr b₁.ctx b₂.ctx := fun rs hrs r hr =>
      bind_launch_agrees hcel hb₁ hb₂ r (reads_of_ofExpr hs hrs hr)
    rw [eval_congr hcel hreads hv₁] at hv₂
    rw [Except.ok.inj hv₂]
  exact samePieces_of_arguments hagree (launchValue_total b₁) (launchValue_total b₂) hc₁ hc₂

end boundary

def countHost : Host :=
  pathHost [("inputs.count".toList, .select (.ident "inputs".toList) "count".toList false)]

def countSpec : ParamSpec := ⟨"count".toList, .number, true, none, none, none⟩

def countParams (n : ℕ) : SortedMap Text Json :=
  SortedMap.empty.insert "count".toList (.number (.posInt n))

def countTemplate : Text := "--count=".toList ++ openBraces ++ "inputs.count".toList ++ closeBraces

def countTemplates : Templates := ⟨"busybox".toList, ["run".toList, countTemplate], []⟩

theorem command_samePieces_count : ∃ r₁ r₂,
    render countHost countTemplates none ∅ (.launch (countParams 1) [countSpec] ∅ ∅) = .ok r₁ ∧
    render countHost countTemplates none ∅ (.launch (countParams 2) [countSpec] ∅ ∅) = .ok r₂ ∧
    r₁.command = ["run".toList, "--count=1".toList] ∧
    r₂.command = ["run".toList, "--count=2".toList] ∧
    SamePieces countHost [countSpec] none countTemplate "--count=1".toList "--count=2".toList := by
  have h₁ : (render countHost countTemplates none ∅
      (.launch (countParams 1) [countSpec] ∅ ∅)).toOption.map (·.command) =
      some ["run".toList, "--count=1".toList] := by decide +kernel
  have h₂ : (render countHost countTemplates none ∅
      (.launch (countParams 2) [countSpec] ∅ ∅)).toOption.map (·.command) =
      some ["run".toList, "--count=2".toList] := by decide +kernel
  obtain ⟨r₁, hr₁, hc₁⟩ := exists_of_toOption_map h₁
  obtain ⟨r₂, hr₂, hc₂⟩ := exists_of_toOption_map h₂
  have hcel : countHost.ReadsOnly := pathHost_readsOnly _
  refine ⟨r₁, r₂, hr₁, hr₂, hc₁, hc₂, ?_⟩
  refine (command_samePieces hcel hr₁ hr₂).2.2 1 countTemplate _ _ rfl ?_ ?_
  · rw [hc₁]; rfl
  · rw [hc₂]; rfl

end Scarab.Pipeline
