import Scarab.PipelineBinding

/-!
# The image that was judged is the image that runs

A preview with no expression left in it rendered every expression, each from values the launch
has too, so the launch renders the same text or fails.
-/
namespace Scarab.Pipeline

/-- A text without opening braces is its own scan. -/
theorem scanInterpolations_of_plain {t : Text} (h : containsText openBraces t = false) :
    scanInterpolations t = ⟨[], t, false⟩ := by
  have hs : splitOnce openBraces t = none := by simpa [containsText] using h
  simp [scanInterpolations, scanFrom, hs]

variable {host : Host} {template text : Text} {c : Ctx} {b : Bound}

/-- Every expression of a preview without opening braces was known and evaluated. -/
theorem eval_of_previewPiece {i : Interpolation} (hcel : host.ReadsOnly)
    (hag : ∀ r, b.known.coversRead r = true → r.Agrees b.ctx c)
    (hno : ¬ openBraces <:+: previewPiece host b i) :
    ∃ v, host.eval i.expr c = .ok v ∧ previewPiece host b i = renderValue v := by
  have houter : openBraces <:+: i.outer := by
    rw [Interpolation.outer, List.append_assoc]
    exact (List.prefix_append _ _).isInfix
  simp only [previewPiece] at hno ⊢
  split_ifs at hno ⊢ with hcov
  · cases hv : host.eval i.expr b.ctx with
    | error x => simp [hv, houter] at hno
    | ok v =>
      refine ⟨v, eval_congr hcel (fun rs hrs r hr => hag r ?_) hv, rfl⟩
      simp only [Known.covers, hrs, List.all_eq_true] at hcov
      exact hcov r hr
  · exact absurd houter hno

theorem interpolateAll_eq_preview (hcel : host.ReadsOnly)
    (hag : ∀ r, b.known.coversRead r = true → r.Agrees b.ctx c) :
    ∀ {is : List Interpolation},
      ¬ openBraces <:+: is.flatMap (fun i => i.before ++ previewPiece host b i) →
      host.interpolateAll c is =
        .ok (is.flatMap fun i => i.before ++ previewPiece host b i)
  | [], _ => rfl
  | i :: is, hno => by
      rw [List.flatMap_cons] at hno ⊢
      have hpiece : ¬ openBraces <:+: previewPiece host b i := fun h =>
        hno ((h.trans (List.suffix_append _ _).isInfix).trans (List.prefix_append _ _).isInfix)
      have htail : ¬ openBraces <:+: is.flatMap (fun i => i.before ++ previewPiece host b i) :=
        fun h => hno (h.trans (List.suffix_append _ _).isInfix)
      obtain ⟨v, hv, hp⟩ := eval_of_previewPiece hcel hag hpiece
      simp only [Host.interpolateAll, Bind.bind, Except.bind, hv,
        interpolateAll_eq_preview hcel hag htail, hp]

theorem interpolate_eq_preview (hcel : host.ReadsOnly)
    (hag : ∀ r, b.known.coversRead r = true → r.Agrees b.ctx c)
    (hno : containsText openBraces (previewText host b template) = false)
    (h : host.interpolate template c = .ok text) : text = previewText host b template := by
  obtain ⟨t, ht, -, htext⟩ := interpolate_ok_iff.mp h
  have hfound : ¬ openBraces <:+: (scanInterpolations template).found.flatMap
      (fun i => i.before ++ previewPiece host b i) := fun hi =>
    not_isInfix_of_containsText hno (hi.trans (List.prefix_append _ _).isInfix)
  rw [interpolateAll_eq_preview hcel hag hfound, Except.ok.injEq] at ht
  rw [htext, ← ht, previewText]

section launch

variable {image : Text} {scope : Option Scope} {matrixValues : SortedMap Text Text}
  {params event : SortedMap Text Json} {declared : List ParamSpec} {results : Results}

theorem bind_agrees {b' : Bound} (hcel : host.ReadsOnly)
    (h : bind host scope matrixValues params event none .preview = .ok b)
    (h' : bind host scope matrixValues params event (some results) .launch = .ok b') :
    ∀ r, b.known.coversRead r = true → r.Agrees b.ctx b'.ctx := by
  intro r hr
  cases scope with
  | none =>
    simp only [bind, Except.ok.injEq] at h h'
    subst h h'
    exact boundOf_agrees (.inl ⟨rfl, rfl⟩) hr fun _ => rfl
  | some s => exact bindScope_agrees hcel (by simp) (.inl rfl) h h' r hr fun _ => rfl

theorem previewImage_eq : previewImage host image scope matrixValues params event =
    let shown := previewOf host (bind host scope matrixValues params event none .preview) image
    if acceptsImage shown then shown else image := by
  simp [previewImage, render, renderPreview, arguments, argumentsFrom, Bind.bind, Except.bind]

theorem renderLaunch_image {templates : Templates} {r : Rendered}
    (h : renderLaunch host templates scope matrixValues params declared results event = .ok r) :
    ∃ b', bind host scope matrixValues params event (some results) .launch = .ok b' ∧
      host.interpolate templates.image b'.ctx = .ok r.image := by
  simp only [renderLaunch, Bind.bind, Except.bind] at h
  cases hb : bind host scope matrixValues params event (some results) .launch with
  | error x => simp [hb] at h
  | ok b' =>
    refine ⟨b', rfl, ?_⟩
    simp only [hb] at h
    cases hi : host.interpolate templates.image b'.ctx with
    | error x => simp [hi] at h
    | ok image =>
      simp only [hi] at h
      split_ifs at h
      split at h
      · cases h
      · split at h
        · cases h
        · obtain rfl := Except.ok.inj h
          rfl

/-- A preview with nothing left to render is what the launch renders, when it renders. -/
theorem launch_image_eq_preview (hcel : host.ReadsOnly) {templates : Templates} {r : Rendered}
    (hpre : containsText openBraces
      (previewImage host templates.image scope matrixValues params event) = false)
    (hlaunch : render host templates scope matrixValues
      (.launch params declared results event) = .ok r) :
    r.image = previewImage host templates.image scope matrixValues params event := by
  obtain ⟨b', hb', himage⟩ := renderLaunch_image hlaunch
  have hplain : containsText openBraces templates.image = false → r.image = templates.image := by
    intro hno
    obtain ⟨t, ht, -, htext⟩ := interpolate_ok_iff.mp himage
    rw [scanInterpolations_of_plain hno] at ht htext
    simp only [Host.interpolateAll, Except.ok.injEq] at ht
    simpa [← ht] using htext
  rw [previewImage_eq] at hpre ⊢
  simp only at hpre ⊢
  split_ifs at hpre ⊢ with hacc
  · cases hb : bind host scope matrixValues params event none .preview with
    | error x =>
      simp only [hb, previewOf] at hpre ⊢
      exact hplain hpre
    | ok b =>
      simp only [hb, previewOf] at hpre ⊢
      exact interpolate_eq_preview hcel (bind_agrees hcel hb hb') hpre himage
  · exact hplain hpre

end launch

def tagHost : Host :=
  pathHost [("inputs.tag".toList, .select (.ident "inputs".toList) "tag".toList false)]

def tagParams : SortedMap Text Json := SortedMap.empty.insert "tag".toList (.string "1.36".toList)

def tagTemplates : Templates :=
  ⟨"busybox:".toList ++ openBraces ++ " inputs.tag ".toList ++ closeBraces, [], []⟩

theorem launch_image_eq_preview_tag : ∃ r,
    render tagHost tagTemplates none ∅ (.launch tagParams [] ∅ ∅) = .ok r ∧
      r.image = "busybox:1.36".toList := by
  have hpre : previewImage tagHost tagTemplates.image none ∅ tagParams ∅ =
      "busybox:1.36".toList := by decide +kernel
  have hrun : (render tagHost tagTemplates none ∅ (.launch tagParams [] ∅ ∅)).toOption.map
      (·.command) = some [] := by decide +kernel
  obtain ⟨r, hr, -⟩ := exists_of_toOption_map hrun
  have hcel : tagHost.ReadsOnly := pathHost_readsOnly _
  have hno : containsText openBraces
      (previewImage tagHost tagTemplates.image none ∅ tagParams ∅) = false := by
    rw [hpre]
    decide +kernel
  exact ⟨r, hr, (launch_image_eq_preview hcel hno hr).trans hpre⟩

end Scarab.Pipeline
