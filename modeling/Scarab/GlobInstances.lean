import Scarab.StepUpLoosening

/-!
# The texts a glob stands for

A `*` stands for any string. On a text without `*` the scan decides exactly this, and a glob
that matches another one as text stands for all the other stands for.
-/
namespace Scarab

/-- The text is the pattern with each `*` replaced by some string. -/
inductive GlobInstance : List Char → List Char → Prop
  | nil : GlobInstance [] []
  | char {c : Char} {p t : List Char} (hc : c ≠ '*') (h : GlobInstance p t) :
      GlobInstance (c :: p) (c :: t)
  | star {p t : List Char} (u : List Char) (h : GlobInstance p t) : GlobInstance ('*' :: p) (u ++ t)

theorem GlobInstance.matches_ {p t : List Char} (h : GlobInstance p t) (ht : '*' ∉ t) :
    GlobMatches p t := by
  induction h with
  | nil => exact .nil
  | char hc h ih => exact .char (ih fun hmem => ht (List.mem_cons_of_mem _ hmem))
  | star u h ih =>
    have hrest := ih fun hmem => ht (List.mem_append_right u hmem)
    refine .star (fun hhead => ht ?_) hrest
    exact List.mem_of_head? hhead

theorem GlobMatches.instance_ {p t : List Char} (h : GlobMatches p t) (ht : '*' ∉ t) :
    GlobInstance p t := by
  induction h with
  | nil => exact .nil
  | char h ih =>
    have hrest := ih fun hmem => ht (List.mem_cons_of_mem _ hmem)
    exact .char (fun hc => ht (hc ▸ List.mem_cons_self)) hrest
  | star hhead h ih => exact .star _ (ih fun hmem => ht (List.mem_append_right _ hmem))

namespace Project

/-- The matcher on the texts it is run on, and containment of one glob in another. -/
theorem glob_exact :
    (∀ pattern text : Text, '*' ∉ text →
      (globMatch pattern text = true ↔ GlobInstance pattern text)) ∧
    ∀ outer inner : Text, globSubsumes outer inner = true →
      ∀ text, '*' ∉ text → globMatch inner text = true → globMatch outer text = true := by
  refine ⟨fun pattern text htext => ?_, fun outer inner hsub text _ hinner => ?_⟩
  · rw [globMatch_iff]
    exact ⟨fun h => h.instance_ htext, fun h => h.matches_ htext⟩
  · exact globSubsumes_sound hsub hinner

theorem glob_exact_branch :
    globMatch "r/*".toList "r/main".toList = true ∧ globMatch "r*".toList "r/main".toList = true := by
  obtain ⟨hmatch, hsub⟩ := glob_exact
  have htext : '*' ∉ "r/main".toList := by decide
  have hinst : GlobInstance "r/*".toList "r/main".toList :=
    .char (by decide) (.char (by decide) (.star ['m', 'a', 'i', 'n'] .nil))
  have hinner := (hmatch _ _ htext).mpr hinst
  have hcovered : globSubsumes "r*".toList "r/*".toList = true := by
    simp [globSubsumes, globMatch, globScan]
  exact ⟨hinner, hsub _ _ hcovered _ htext hinner⟩

end Project

end Scarab
