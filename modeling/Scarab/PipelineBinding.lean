import Scarab.PipelineRender

/-!
# Two bindings of one scope

When two contexts agree on what an expression reads, the expression has the same value in
both; what follows carries that over templates, bound inputs and whole scopes.
-/
namespace Scarab.Pipeline

variable {host : Host} {expr template : Text} {c c' : Ctx} {v : Json}

/-- Every read of the expression agrees. -/
def ReadsAgree (host : Host) (expr : Text) (c c' : Ctx) : Prop :=
  ∀ rs, host.reads expr = .ok rs → ∀ r ∈ rs, r.Agrees c c'

theorem eval_ok_iff : host.eval expr c = .ok v ↔
    ∃ e, host.program expr = .ok e ∧ host.execute e c = .ok v := by
  simp only [Host.eval]
  cases hp : host.program expr with
  | error x => simp [Bind.bind, Except.bind]
  | ok e => cases hx : host.execute e c <;> simp [Bind.bind, Except.bind, hx]

theorem eval_congr (hcel : host.ReadsOnly) (hr : ReadsAgree host expr c c')
    (h : host.eval expr c = .ok v) : host.eval expr c' = .ok v := by
  obtain ⟨e, hp, hx⟩ := eval_ok_iff.mp h
  have hreads : host.reads expr = .ok e.reads := by simp [Host.reads, hp, Bind.bind, Except.bind]
  exact eval_ok_iff.mpr ⟨e, hp, hcel e c c' v (hr _ hreads) hx⟩

theorem interpolateAll_congr (hcel : host.ReadsOnly) : ∀ {is : List Interpolation} {t : Text},
    (∀ i ∈ is, ReadsAgree host i.expr c c') → host.interpolateAll c is = .ok t →
      host.interpolateAll c' is = .ok t
  | [], _, _, h => h
  | i :: is, t, hr, h => by
      simp only [Host.interpolateAll, Bind.bind, Except.bind] at h ⊢
      cases hv : host.eval i.expr c with
      | error x => simp [hv] at h
      | ok v =>
        simp only [hv] at h
        cases ht : host.interpolateAll c is with
        | error x => simp [ht] at h
        | ok tail =>
          rw [eval_congr hcel (hr i List.mem_cons_self) hv,
            interpolateAll_congr hcel (fun j hj => hr j (List.mem_cons_of_mem _ hj)) ht]
          simpa [ht] using h

theorem interpolate_ok_iff {text : Text} : host.interpolate template c = .ok text ↔
    ∃ t, host.interpolateAll c (scanInterpolations template).found = .ok t ∧
      (scanInterpolations template).unterminated = false ∧
      text = t ++ (scanInterpolations template).rest := by
  simp only [Host.interpolate, Bind.bind, Except.bind]
  cases host.interpolateAll c (scanInterpolations template).found with
  | error x => simp
  | ok t => cases (scanInterpolations template).unterminated <;> simp [eq_comm]

theorem interpolate_congr (hcel : host.ReadsOnly) {text : Text}
    (hr : ∀ i ∈ (scanInterpolations template).found, ReadsAgree host i.expr c c')
    (h : host.interpolate template c = .ok text) : host.interpolate template c' = .ok text := by
  obtain ⟨t, ht, hu, htext⟩ := interpolate_ok_iff.mp h
  exact interpolate_ok_iff.mpr ⟨t, interpolateAll_congr hcel hr ht, hu, htext⟩

/-- The one expression of an exact template is one of those scanned. -/
theorem exactExpr_eq_some (h : exactExpr template = some expr) :
    ∃ i ∈ (scanInterpolations template).found, i.expr = expr := by
  unfold exactExpr at h
  split at h
  · next i hs =>
    split_ifs at h with hb
    exact ⟨i, by simp [hs], Option.some.inj h⟩
  · cases h

theorem templateValue_congr (hcel : host.ReadsOnly) {name : Text} {b : Binding}
    (hr : ∀ i ∈ (scanInterpolations template).found, ReadsAgree host i.expr c c')
    (h : templateValue host c name b template = .ok v) :
    templateValue host c' name b template = .ok v := by
  simp only [templateValue, Bind.bind, Except.bind] at h ⊢
  cases he : exactExpr template with
  | some expr =>
    obtain ⟨i, hi, rfl⟩ := exactExpr_eq_some he
    simp only [he] at h ⊢
    cases hv : host.eval i.expr c with
    | error x => simp [hv] at h
    | ok raw =>
      rw [eval_congr hcel (hr i hi) hv]
      simpa [hv] using h
  | none =>
    simp only [he] at h ⊢
    cases hv : host.interpolate template c with
    | error x => simp [hv] at h
    | ok raw =>
      rw [interpolate_congr hcel hr hv]
      simpa [hv] using h

theorem fieldOf_entries (m : SortedMap Text Json) (name : Text) :
    fieldOf name m.entries = m.get name := by
  have haux : ∀ es : List (Text × Json), fieldOf name es = SortedMap.getEntry name es := by
    intro es
    induction es with
    | nil => rfl
    | cons e es ih => by_cases h : e.1 = name <;> simp [fieldOf, SortedMap.getEntry, h, ih]
  exact haux m.entries

section boundOf

variable {inputs inputs' : SortedMap Text Json} {known known' : Option (List Text)}
  {matrix : SortedMap Text Text} {event event' : SortedMap Text Json} {o o' : Option Json}
  {k k' : Bool}

@[simp] theorem boundOf_event : (boundOf inputs known matrix event o k).ctx.get "event".toList =
    some (objectOf event) := by
  simp only [boundOf, SortedMap.get_insert]
  cases o <;> simp

@[simp] theorem boundOf_inputs : (boundOf inputs known matrix event o k).ctx.get "inputs".toList =
    some (objectOf inputs) := by
  simp [boundOf]

@[simp] theorem boundOf_matrix : (boundOf inputs known matrix event o k).ctx.get "matrix".toList =
    some (coordinate matrix) := by
  simp [boundOf]

/-- A context of known inputs agrees with one that holds more, on every read it covers. -/
theorem boundOf_agrees (hin : known = none ∧ inputs = inputs' ∨
      ∃ names, known = some names ∧ ∀ n ∈ names, inputs.get n = inputs'.get n)
    {r : Read} (hr : Known.coversRead ⟨known, false⟩ r = true)
    (hevent : r.var = "event".toList → event = event') :
    r.Agrees (boundOf inputs known matrix event o k).ctx
      (boundOf inputs' known' matrix event' o' k').ctx := by
  simp only [Known.coversRead] at hr
  split_ifs at hr with h₁ h₂ h₃
  · rcases Bool.or_eq_true _ _ |>.mp h₁ with h | h
    · left
      rw [of_decide_eq_true h, boundOf_matrix, boundOf_matrix]
    · left
      rw [of_decide_eq_true h, boundOf_event, boundOf_event, hevent (of_decide_eq_true h)]
  · rcases hin with ⟨rfl, rfl⟩ | ⟨names, rfl, hn⟩
    · left
      rw [h₃, boundOf_inputs, boundOf_inputs]
    · cases hf : r.first with
      | none => simp [hf] at hr
      | some name =>
        right
        simp only [hf] at hr
        refine ⟨name, inputs.entries, inputs'.entries, hf, ?_, ?_, ?_⟩
        · rw [h₃, boundOf_inputs]; rfl
        · rw [h₃, boundOf_inputs]; rfl
        · rw [fieldOf_entries, fieldOf_entries]
          exact hn name (of_decide_eq_true hr)

end boundOf

section scope

variable {params event event' : SortedMap Text Json} {results : Option Results} {mode : Mode}
  {bindings : SortedMap Text Binding} {outputs : SortedMap Text OutputSource}
  {matrix : SortedMap Text Text} {caller : Option Scope} {b : Bound}

theorem hasTemplate_of_get {name t : Text} {binding : Binding}
    (hb : bindings.get name = some binding) (ht : binding.value = .template t) :
    hasTemplate bindings = true := by
  simp only [hasTemplate, List.any_eq_true]
  exact ⟨binding, SortedMap.mem_values.mpr ⟨name, hb⟩, by rw [ht]⟩

/-- What a bound scope's values were built from. -/
theorem bindScope_bound
    (h : bindScope host params event results mode ⟨.bound bindings, outputs, matrix, caller⟩ = .ok b) :
    ∃ cb values, bindings.filterMapM (bindInput host mode cb) = .ok values ∧
      b = boundOf values (some values.keys) matrix event
        (results.map fun r => scopeOutputs r outputs) results.isSome ∧
      (∀ bc, cb = some bc → ∃ c, caller = some c ∧
        bindScope host params event results mode c = .ok bc) ∧
      (hasTemplate bindings = true → mode ≠ .preview → cb ≠ none) := by
  cases caller with
  | none =>
    simp only [bindScope, Bind.bind, Except.bind] at h
    split_ifs at h with ht
    cases hv : bindings.filterMapM (bindInput host mode none) with
    | error x => simp [hv] at h
    | ok values =>
      simp only [hv, Except.ok.injEq] at h
      refine ⟨none, values, hv, h.symm, fun bc hbc => (by cases hbc), fun h₁ h₂ => ?_⟩
      simp [h₁, h₂] at ht
  | some c =>
    simp only [bindScope, Bind.bind, Except.bind] at h
    by_cases ht : hasTemplate bindings = true
    · simp only [ht, if_true] at h
      cases hc : bindScope host params event results mode c with
      | error x =>
        simp only [hc] at h
        by_cases hm : mode = .preview
        · simp only [hm, if_true] at h
          cases hv : bindings.filterMapM (bindInput host .preview none) with
          | error x => simp [hv] at h
          | ok values =>
            simp only [hv, Except.ok.injEq] at h
            subst hm
            exact ⟨none, values, hv, h.symm, fun bc hbc => (by cases hbc),
              fun _ hne => absurd rfl hne⟩
        · simp [hm] at h
      | ok bc =>
        simp only [hc] at h
        cases hv : bindings.filterMapM (bindInput host mode (some bc)) with
        | error x => simp [hv] at h
        | ok values =>
          simp only [hv, Except.ok.injEq] at h
          refine ⟨some bc, values, hv, h.symm, fun bc' hbc => ?_, fun _ _ => by simp⟩
          obtain rfl := Option.some.inj hbc
          exact ⟨c, rfl, hc⟩
    · simp only [ht, Bool.false_eq_true, if_false] at h
      cases hv : bindings.filterMapM (bindInput host mode none) with
      | error x => simp [hv] at h
      | ok values =>
        simp only [hv, Except.ok.injEq] at h
        exact ⟨none, values, hv, h.symm, fun bc hbc => (by cases hbc), fun h₁ => absurd h₁ ht⟩

/-- Whether some expression of the template reads the variable. -/
def TemplateReads (host : Host) (var template : Text) : Prop :=
  ∃ i ∈ (scanInterpolations template).found, ∃ rs, host.reads i.expr = .ok rs ∧
    ∃ r ∈ rs, r.var = var

/-- Whether a bound input has a value when the run is created: it is a literal, or a template
whose every read has one in the caller's scope. -/
def rendersEarly (host : Host) (caller : Option Known) (b : Binding) : Bool :=
  match b.value, caller with
  | .literal _, _ => true
  | .template _, none => false
  | .template t, some k => k.coversTemplate host t

/-- Which names of a scope have a value when the run is created. -/
def Scope.early (host : Host) : Scope → Known
  | ⟨.run, _, _, _⟩ => ⟨none, false⟩
  | ⟨.bound bindings, _, _, none⟩ =>
      ⟨some ((bindings.entries.filter fun e => rendersEarly host none e.2).map (·.1)), false⟩
  | ⟨.bound bindings, _, _, some c⟩ =>
      ⟨some ((bindings.entries.filter fun e =>
        rendersEarly host (some (c.early host)) e.2).map (·.1)), false⟩

/-- No template that renders when the run is created reads `event`. -/
def Scope.NoEvent (host : Host) : Scope → Prop
  | ⟨.run, _, _, _⟩ => True
  | ⟨.bound _, _, _, none⟩ => True
  | ⟨.bound bindings, _, _, some c⟩ =>
      (∀ name b t, bindings.get name = some b → b.value = .template t →
        (c.early host).coversTemplate host t = true → ¬ TemplateReads host "event".toList t) ∧
      c.NoEvent host

theorem coversTemplate_read {k : Known} (h : k.coversTemplate host template = true)
    {i : Interpolation} (hi : i ∈ (scanInterpolations template).found) {rs : List Read}
    (hrs : host.reads i.expr = .ok rs) {r : Read} (hr : r ∈ rs) : k.coversRead r = true := by
  simp only [Known.coversTemplate, Bool.and_eq_true, List.all_eq_true] at h
  have hc := h.2 i hi
  simp only [Known.covers, hrs, List.all_eq_true] at hc
  exact hc r hr

theorem bindInput_eq_some {cb : Option Bound} {name : Text} {binding : Binding}
    (h : bindInput host mode cb name binding = .ok (some v)) :
    binding.value = .literal v ∨ ∃ t bc, binding.value = .template t ∧ cb = some bc ∧
      (mode ≠ .launch → bc.known.coversTemplate host t = true) ∧
      templateValue host bc.ctx name binding t = .ok v := by
  unfold bindInput at h
  split at h
  · next u hu =>
    simp only [Except.ok.injEq, Option.some.injEq] at h
    exact .inl (h ▸ hu)
  · cases h
  · next t bc hu =>
    by_cases hcond : mode ≠ .launch ∧ bc.known.coversTemplate host t = false
    · rw [if_pos hcond] at h
      cases h
    · rw [if_neg hcond] at h
      cases hv : templateValue host bc.ctx name binding t with
      | error x =>
        simp only [hv] at h
        split_ifs at h
        cases h
      | ok u =>
        simp only [hv, Except.ok.injEq, Option.some.injEq] at h
        subst h
        refine .inr ⟨t, bc, hu, rfl, fun hm => ?_, hv⟩
        by_contra hne
        exact hcond ⟨hm, by simpa using hne⟩

theorem bindInput_launch {bc : Bound} {name t : Text} {binding : Binding}
    (hb : binding.value = .template t) :
    bindInput host .launch (some bc) name binding = .ok (some v) ↔
      templateValue host bc.ctx name binding t = .ok v := by
  simp only [bindInput, hb]
  cases templateValue host bc.ctx name binding t <;> simp

theorem bindInput_guard_known {cb : Option Bound} {name : Text} {binding : Binding}
    {o : Option Json} (h : bindInput host .guard cb name binding = .ok o) :
    o.isSome = rendersEarly host (cb.map (·.known)) binding := by
  cases hb : binding.value with
  | literal u =>
    simp only [bindInput, hb, Except.ok.injEq] at h
    simp [rendersEarly, hb, ← h]
  | template t =>
    cases cb with
    | none =>
      simp only [bindInput, hb, Except.ok.injEq] at h
      simp [rendersEarly, hb, ← h]
    | some bc =>
      cases hcov : bc.known.coversTemplate host t with
      | false =>
        simp only [bindInput, hb, hcov] at h
        simp only [ne_eq, reduceCtorEq, not_false_eq_true, and_self, if_true,
          Except.ok.injEq] at h
        simp [rendersEarly, hb, hcov, ← h]
      | true =>
        simp only [bindInput, hb, hcov, Bool.true_eq_false, and_false, if_false] at h
        cases hv : templateValue host bc.ctx name binding t with
        | error x => simp [hv] at h
        | ok u =>
          simp only [hv, Except.ok.injEq] at h
          simp [rendersEarly, hb, hcov, ← h]

/-- Binding for a guard knows exactly the names that have a value when the run is created. -/
theorem bindScope_guard_known : ∀ {s : Scope} {b : Bound},
    bindScope host params event none .guard s = .ok b → b.known = s.early host
  | ⟨.run, outputs, matrix, _⟩, b, h => by
      simp only [bindScope, Except.ok.injEq] at h
      subst h
      rfl
  | ⟨.bound bindings, outputs, matrix, none⟩, b, h => by
      obtain ⟨cb, values, hvals, rfl, hcb, -⟩ := bindScope_bound h
      have hkeys := SortedMap.keys_of_filterMapM hvals fun k d o ho => bindInput_guard_known ho
      have hnone : cb = none := by
        by_contra hne
        obtain ⟨bc, hbc⟩ := Option.ne_none_iff_exists'.mp hne
        obtain ⟨c, hc, -⟩ := hcb bc hbc
        cases hc
      simp only [boundOf, Scope.early, hkeys, hnone, Option.isSome_none, Option.map_none]
  | ⟨.bound bindings, outputs, matrix, some c⟩, b, h => by
      obtain ⟨cb, values, hvals, rfl, hcb, hne⟩ := bindScope_bound h
      have hkeys := SortedMap.keys_of_filterMapM hvals fun k d o ho => bindInput_guard_known ho
      simp only [boundOf, Scope.early, hkeys, Option.isSome_none]
      congr 3
      refine List.filter_congr fun e he => ?_
      cases ht : e.2.value with
      | literal u => simp [rendersEarly, ht]
      | template t =>
        have hb : bindings.get e.1 = some e.2 := SortedMap.get_eq_some.mpr he
        obtain ⟨bc, hbc⟩ := Option.ne_none_iff_exists'.mp (hne (hasTemplate_of_get hb ht) (by simp))
        obtain ⟨c', hcc, hc⟩ := hcb bc hbc
        obtain rfl := Option.some.inj hcc
        simp only [hbc, Option.map_some, bindScope_guard_known hc]

/-- One level of `bindScope_agrees`, given it for the caller's templates. -/
theorem bound_agrees (hcel : host.ReadsOnly) (hmode : mode ≠ .launch) {results : Results}
    {b' : Bound}
    (h : bindScope host params event none mode ⟨.bound bindings, outputs, matrix, caller⟩ = .ok b)
    (h' : bindScope host params event' (some results) .launch
      ⟨.bound bindings, outputs, matrix, caller⟩ = .ok b')
    (ih : ∀ c, caller = some c → ∀ bc bc', bindScope host params event none mode c = .ok bc →
      bindScope host params event' (some results) .launch c = .ok bc' →
      ∀ n d t, bindings.get n = some d → d.value = .template t →
        bc.known.coversTemplate host t = true →
        ∀ i ∈ (scanInterpolations t).found, ReadsAgree host i.expr bc.ctx bc'.ctx)
    {r : Read} (hr : b.known.coversRead r = true) (hev : r.var = "event".toList → event = event') :
    r.Agrees b.ctx b'.ctx := by
  obtain ⟨cb, values, hvals, rfl, hcb, -⟩ := bindScope_bound h
  obtain ⟨cb', values', hvals', rfl, hcb', hne'⟩ := bindScope_bound h'
  refine boundOf_agrees (.inr ⟨values.keys, rfl, fun n hn => ?_⟩) hr hev
  obtain ⟨v, hv⟩ := SortedMap.mem_keys.mp hn
  cases hbn : bindings.get n with
  | none =>
    rw [SortedMap.get_filterMapM_none hvals hbn] at hv
    cases hv
  | some binding =>
    have hin := SortedMap.apply_of_filterMapM hvals hbn
    have hin' := SortedMap.apply_of_filterMapM hvals' hbn
    rw [hv] at hin ⊢
    rcases bindInput_eq_some hin with hlit | ⟨t, bc, ht, hbc, hcov, htv⟩
    · simp only [bindInput, hlit, Except.ok.injEq] at hin'
      exact hin'
    · obtain ⟨c, rfl, hc⟩ := hcb bc hbc
      obtain ⟨bc', hbc'⟩ := Option.ne_none_iff_exists'.mp
        (hne' (hasTemplate_of_get hbn ht) (by simp))
      obtain ⟨c', hcc, hc'⟩ := hcb' bc' hbc'
      obtain rfl := Option.some.inj hcc
      have htv' := templateValue_congr hcel
        (ih c rfl bc bc' hc hc' n binding t hbn ht (hcov hmode)) htv
      rw [hbc', (bindInput_launch ht).mpr htv', Except.ok.injEq] at hin'
      exact hin'

/-- What binding at run creation knows has, at launch, the value it had then. -/
theorem bindScope_agrees (hcel : host.ReadsOnly) (hmode : mode ≠ .launch) {results : Results} :
    ∀ {s : Scope} {b b' : Bound}, (event = event' ∨ mode = .guard ∧ s.NoEvent host) →
      bindScope host params event none mode s = .ok b →
      bindScope host params event' (some results) .launch s = .ok b' →
      ∀ r, b.known.coversRead r = true → (r.var = "event".toList → event = event') →
        r.Agrees b.ctx b'.ctx
  | ⟨.run, outputs, matrix, _⟩, b, b', _, h, h', r, hr, hev => by
      simp only [bindScope, Option.map_none, Option.isSome_none, Except.ok.injEq] at h h'
      subst h h'
      exact boundOf_agrees (.inl ⟨rfl, rfl⟩) hr hev
  | ⟨.bound bindings, outputs, matrix, none⟩, b, b', _, h, h', r, hr, hev =>
      bound_agrees hcel hmode h h' (fun c hc => by cases hc) hr hev
  | ⟨.bound bindings, outputs, matrix, some c⟩, b, b', hno, h, h', r, hr, hev => by
      refine bound_agrees hcel hmode h h' (fun c' hc' bc bc' hbc hbc' n d t hd ht hcov i hi rs hrs
        r' hr' => ?_) hr hev
      obtain rfl := Option.some.inj hc'
      have hcr := coversTemplate_read hcov hi hrs hr'
      refine bindScope_agrees hcel hmode (hno.imp_right fun h => ⟨h.1, h.2.2⟩) hbc hbc' r' hcr
        fun hvar => ?_
      rcases hno with hev' | ⟨hg, hnev, -⟩
      · exact hev'
      · subst hg
        have hearly : (c.early host).coversTemplate host t = true := by
          rw [← bindScope_guard_known hbc]
          exact hcov
        exact absurd ⟨i, hi, rs, hrs, r', hr', hvar⟩ (hnev n d t hd ht hearly)

end scope

def member (v : Json) (name : Text) : Except Text Json :=
  match v with
  | .object fs =>
      match fieldOf name fs with
      | some u => .ok u
      | none => .error ("No such key: ".toList ++ name)
  | _ => .error "not a map".toList

def literalValue : Literal → Except Text Json
  | .string s => .ok (.string s)
  | .bool b => .ok (.bool b)
  | _ => .error "not a text or boolean".toList

def variableValue (c : Ctx) (name : Text) : Except Text Json :=
  match c.get (rootName name) with
  | some v => .ok v
  | none => .error ("Undeclared reference to ".toList ++ name)

/-- The value of an expression that is a literal or a variable and its members. -/
def Expr.pathValue (c : Ctx) : Expr → Except Text Json
  | .literal l => literalValue l
  | .ident name => variableValue c name
  | .select operand field test =>
      if test then .error "not a member path".toList
      else
        match operand.pathValue c with
        | .ok v => member v field
        | .error e => .error e
  | _ => .error "not a member path".toList

theorem pathValue_select_eq_ok {operand : Expr} {field : Text} {test : Bool} :
    (Expr.select operand field test).pathValue c = .ok v ↔
      test = false ∧ ∃ u, operand.pathValue c = .ok u ∧ member u field = .ok v := by
  simp only [Expr.pathValue]
  cases test with
  | true => simp
  | false => cases operand.pathValue c <;> simp

theorem member_pathValue_congr : ∀ {e : Expr} {name : Text} {rest : List (Option Text)}
    {later : List Read} {u v : Json},
    (∀ r ∈ e.readsUnder (some name :: rest) later, r.Agrees c c') → e.pathValue c = .ok u →
      member u name = .ok v → ∃ u', e.pathValue c' = .ok u' ∧ member u' name = .ok v
  | .literal _, _, _, _, u, _, _, he, hu => ⟨u, he, hu⟩
  | .ident var, name, rest, _, u, v, h, he, hu => by
      have hr := h ⟨rootName var, some name, rest.head?.join⟩ (by simp [Expr.readsUnder, readOf])
      simp only [Expr.pathValue, variableValue] at he ⊢
      rcases hr with hr | ⟨n, fs, fs', hn, hc, hc', hm⟩
      · rw [show c'.get (rootName var) = c.get (rootName var) from hr.symm]
        exact ⟨u, he, hu⟩
      · obtain rfl := Option.some.inj hn
        simp only [show c.get (rootName var) = _ from hc, Except.ok.injEq] at he
        subst he
        refine ⟨.object fs', by simp [show c'.get (rootName var) = _ from hc'], ?_⟩
        simpa [member, hm] using hu
  | .select operand field test, name, rest, later, u, v, h, he, hu => by
      obtain ⟨ht, w, hw, hmem⟩ := pathValue_select_eq_ok.mp he
      rw [Expr.readsUnder] at h
      obtain ⟨w', hw', hmem'⟩ := member_pathValue_congr h hw hmem
      exact ⟨u, pathValue_select_eq_ok.mpr ⟨ht, w', hw', hmem'⟩, hu⟩
  | .call .., _, _, _, _, _, _, he, _ => by cases he
  | .comprehension .., _, _, _, _, _, _, he, _ => by cases he
  | .list _, _, _, _, _, _, _, he, _ => by cases he
  | .map _, _, _, _, _, _, _, he, _ => by cases he
  | .struct .., _, _, _, _, _, _, he, _ => by cases he
  | .unspecified, _, _, _, _, _, _, he, _ => by cases he

theorem pathValue_congr {e : Expr} (h : ∀ r ∈ e.reads, r.Agrees c c')
    (he : e.pathValue c = .ok v) : e.pathValue c' = .ok v := by
  cases e with
  | literal l => exact he
  | ident var =>
    have hr := h ⟨rootName var, none, none⟩ (by simp [Expr.reads, Expr.readsUnder, readOf])
    rcases hr with hr | ⟨n, fs, fs', hn, -⟩
    · simp only [Expr.pathValue, variableValue] at he ⊢
      rw [show c'.get (rootName var) = c.get (rootName var) from hr.symm]
      exact he
    · cases hn
  | select operand field test =>
    obtain ⟨ht, w, hw, hmem⟩ := pathValue_select_eq_ok.mp he
    rw [Expr.reads, Expr.readsUnder] at h
    exact pathValue_select_eq_ok.mpr ⟨ht, member_pathValue_congr h hw hmem⟩
  | _ => cases he

/-- A host for the expressions of a table, each a literal or a variable and its members. -/
def pathHost (table : List (Text × Expr)) : Host where
  compile t := match table.find? (·.1 = t) with
    | some e => .ok e.2
    | none => .error "unexpected token".toList
  execute e c := e.pathValue c
  parseF64 _ := none

theorem pathHost_readsOnly (table : List (Text × Expr)) : (pathHost table).ReadsOnly :=
  fun _ _ _ _ h he => pathValue_congr h he

theorem exists_of_toOption_map {ε α β : Type} {x : Except ε α} {f : α → β} {y : β}
    (h : x.toOption.map f = some y) : ∃ a, x = .ok a ∧ f a = y := by
  cases x with
  | error e => cases h
  | ok a => exact ⟨a, rfl, Option.some.inj h⟩

end Scarab.Pipeline
