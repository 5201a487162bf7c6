import Mathlib.Data.Fintype.EquivFin
import Mathlib.Data.Set.Finite.Basic
import Mathlib.Logic.Relation
import Mathlib.Order.WellFounded
import Mathlib.Tactic.Common

/-!
# A node put in front of others

A new node takes the edges of a set of fronts and each front gets an edge to it. Where no front
lies behind another, this adds no cycle and no way to an old node that a front did not have.
-/
namespace GraphInsertion

open Relation

variable {α : Type*} {E E' : α → α → Prop} {G : α} {F : α → Prop}

/-- `E'` is `E` with a node `G` in front of the nodes of `F`. -/
structure Inserted (E E' : α → α → Prop) (G : α) (F : α → Prop) : Prop where
  edge : ∀ a b, E' a b ↔ E a b ∨ (F a ∧ b = G) ∨ (a = G ∧ ∃ f, F f ∧ E f b)
  source : ∀ b, ¬ E G b
  target : ∀ a, ¬ E a G
  fresh : ¬ F G
  apart : ∀ f, F f → ∀ f', F f' → ¬ TransGen E f f'

namespace Inserted

variable (h : Inserted E E' G F)
include h

theorem mono {a b : α} (hab : TransGen E a b) : TransGen E' a b :=
  TransGen.mono (fun x y hxy => (h.edge x y).mpr (.inl hxy)) a b hab

theorem front_edge {f : α} (hf : F f) : E' f G := (h.edge f G).mpr (.inr (.inl ⟨hf, rfl⟩))

/-- What the new node leads to, some front led to. -/
theorem behind_front {x : α} (hx : TransGen E' G x) : x ≠ G ∧ ∃ f, F f ∧ TransGen E f x := by
  induction hx with
  | @single b hedge =>
    rcases (h.edge G b).mp hedge with hE | ⟨hF, -⟩ | ⟨-, f, hf, hE⟩
    · exact absurd hE (h.source b)
    · exact absurd hF h.fresh
    · exact ⟨fun hb => h.target f (hb ▸ hE), f, hf, .single hE⟩
  | @tail b c hpath hedge ih =>
    obtain ⟨hne, f, hf, hfb⟩ := ih
    rcases (h.edge b c).mp hedge with hE | ⟨hF, -⟩ | ⟨rfl, -⟩
    · exact ⟨fun hc => h.target b (hc ▸ hE), f, hf, hfb.tail hE⟩
    · exact absurd hfb (h.apart f hf b hF)
    · exact absurd rfl hne

/-- A path goes by the old edges or over the new node. -/
theorem old_or_over {a b : α} (hab : TransGen E' a b) :
    TransGen E a b ∨ ReflTransGen E' a G ∧ ReflTransGen E' G b := by
  induction hab with
  | @single b hedge =>
    rcases (h.edge a b).mp hedge with hE | ⟨hF, rfl⟩ | ⟨rfl, -⟩
    · exact .inl (.single hE)
    · exact .inr ⟨.single hedge, .refl⟩
    · exact .inr ⟨.refl, .single hedge⟩
  | @tail b c hpath hedge ih =>
    rcases (h.edge b c).mp hedge with hE | ⟨hF, rfl⟩ | ⟨rfl, -⟩
    · exact ih.imp (fun hold => hold.tail hE) fun hover => ⟨hover.1, hover.2.tail hedge⟩
    · exact .inr ⟨hpath.to_reflTransGen.tail hedge, .refl⟩
    · exact .inr ⟨hpath.to_reflTransGen, .single hedge⟩

theorem acyclic (hE : ∀ a, ¬ TransGen E a a) (a : α) : ¬ TransGen E' a a := by
  intro hcycle
  rcases h.old_or_over hcycle with hold | ⟨hin, hout⟩
  · exact hE a hold
  · have hloop : TransGen E' G G := TransGen.trans_left (TransGen.trans_right hout hcycle) hin
    exact (h.behind_front hloop).1 rfl

/-- A path to a node that no front leads to is an old one. -/
theorem old_of_not_behind {a e : α} (he : e ≠ G) (hfronts : ∀ f, F f → ¬ TransGen E f e)
    (hab : TransGen E' a e) : TransGen E a e := by
  rcases h.old_or_over hab with hold | ⟨-, hout⟩
  · exact hold
  · rcases reflTransGen_iff_eq_or_transGen.mp hout with heq | hpath
    · exact absurd heq he
    · obtain ⟨-, f, hf, hfe⟩ := h.behind_front hpath
      exact absurd hfe (hfronts f hf)

end Inserted

/-- In a finite set without cycles, every node leads to one that leads to no other of the set. -/
theorem exists_front (M : List α) (hE : ∀ a, ¬ TransGen E a a) {m : α} (hm : m ∈ M) :
    ∃ f ∈ M, (∀ m' ∈ M, ¬ TransGen E f m') ∧ ReflTransGen E m f := by
  let r : {x // x ∈ M} → {x // x ∈ M} → Prop := fun x y => TransGen E y.1 x.1
  have : Finite {x // x ∈ M} := List.finite_toSet M
  have : IsTrans {x // x ∈ M} r := ⟨fun _ _ _ hxy hyz => hyz.trans hxy⟩
  have : Std.Irrefl r := ⟨fun x => hE x.1⟩
  have hwf : WellFounded r := Finite.wellFounded_of_trans_of_irrefl r
  induction hx : (⟨m, hm⟩ : {x // x ∈ M}) using hwf.induction generalizing m with
  | h x ih =>
    subst hx
    by_cases hfront : ∀ m' ∈ M, ¬ TransGen E m m'
    · exact ⟨m, hm, hfront, .refl⟩
    · push Not at hfront
      obtain ⟨m', hm', hpath⟩ := hfront
      obtain ⟨f, hf, hlast, hmf⟩ := ih ⟨m', hm'⟩ hpath hm' rfl
      exact ⟨f, hf, hlast, hpath.to_reflTransGen.trans hmf⟩

end GraphInsertion
