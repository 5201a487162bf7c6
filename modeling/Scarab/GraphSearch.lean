import Mathlib.Data.List.Basic
import Mathlib.Logic.Relation
import Mathlib.Tactic.Common

/-!
# Search of a finite graph with a stack

The nodes reached from a stack of nodes, each visited once, with a test that ends the search early.
-/
namespace GraphSearch

open Relation

/-- A graph in which only the listed nodes have successors. -/
structure Graph (α : Type*) where
  nodes : List α
  next : α → List α
  next_nil : ∀ x, x ∉ nodes → next x = []

variable {α : Type*}

def Graph.Edge (g : Graph α) (x y : α) : Prop := y ∈ g.next x

/-- The stack with a node's successors on top, the last of them first. -/
def Graph.push (g : Graph α) (x : α) (stack : List α) : List α := (g.next x).reverse ++ stack

/-- Some node of a list leads to `x`. -/
def Graph.Reached (g : Graph α) (start : List α) (x : α) : Prop :=
  ∃ y ∈ start, ReflTransGen g.Edge y x

theorem Graph.Reached.of_next {g : Graph α} {x y : α} {stack : List α}
    (h : g.Reached (g.push x stack) y) : g.Reached (x :: stack) y := by
  obtain ⟨z, hz, hpath⟩ := h
  rcases List.mem_append.mp hz with hz | hz
  · have hedge : g.Edge x z := List.mem_reverse.mp hz
    exact ⟨x, List.mem_cons_self, .head hedge hpath⟩
  · exact ⟨z, List.mem_cons_of_mem _ hz, hpath⟩

theorem Graph.Reached.cons {g : Graph α} {x y : α} {stack : List α} (h : g.Reached stack y) :
    g.Reached (x :: stack) y := by
  obtain ⟨z, hz, hpath⟩ := h
  exact ⟨z, List.mem_cons_of_mem _ hz, hpath⟩

/-- From a node's successors exactly what lies behind the node is reached. -/
theorem Graph.reached_next {g : Graph α} {x y : α} :
    g.Reached (g.next x).reverse y ↔ TransGen g.Edge x y := by
  constructor
  · rintro ⟨z, hz, hpath⟩
    have hedge : g.Edge x z := List.mem_reverse.mp hz
    exact TransGen.head'_iff.mpr ⟨z, hedge, hpath⟩
  · intro h
    obtain ⟨z, hedge, hpath⟩ := TransGen.head'_iff.mp h
    exact ⟨z, List.mem_reverse.mpr hedge, hpath⟩

/-- No node seen stops the search, and what it leads to is seen or still on the stack. -/
structure Visited (g : Graph α) (stop : α → Bool) (seen stack : List α) : Prop where
  going : ∀ x ∈ seen, stop x = false
  closed : ∀ x ∈ seen, ∀ y ∈ g.next x, y ∈ seen ∨ y ∈ stack

theorem Visited.skip {g : Graph α} {stop : α → Bool} {seen stack : List α} {x : α}
    (h : Visited g stop seen (x :: stack)) (hx : x ∈ seen) : Visited g stop seen stack := by
  refine ⟨h.going, fun a ha b hb => ?_⟩
  rcases h.closed a ha b hb with hseen | hstack
  · exact .inl hseen
  · rcases List.mem_cons.mp hstack with rfl | hstack
    · exact .inl hx
    · exact .inr hstack

theorem Visited.step {g : Graph α} {stop : α → Bool} {seen stack : List α} {x : α}
    (h : Visited g stop seen (x :: stack)) (hx : stop x = false) :
    Visited g stop (x :: seen) (g.push x stack) := by
  constructor
  · intro a ha
    rcases List.mem_cons.mp ha with rfl | ha
    · exact hx
    · exact h.going a ha
  · intro a ha b hb
    rcases List.mem_cons.mp ha with rfl | ha
    · exact .inr (by simp [Graph.push, hb])
    · rcases h.closed a ha b hb with hseen | hstack
      · exact .inl (List.mem_cons_of_mem _ hseen)
      · rcases List.mem_cons.mp hstack with rfl | hstack
        · exact .inl List.mem_cons_self
        · exact .inr (List.mem_append_right _ hstack)

variable [DecidableEq α]

def unseen (nodes seen : List α) : ℕ := (nodes.filter (· ∉ seen)).length

theorem unseen_lt {nodes seen : List α} {x : α} (hx : x ∈ nodes) (hseen : x ∉ seen) :
    unseen nodes (x :: seen) < unseen nodes seen := by
  have hsub : (nodes.filter (· ∉ x :: seen)).Sublist (nodes.filter (· ∉ seen)) := by
    apply List.monotone_filter_right
    intro y hy
    simp only [List.mem_cons, not_or, decide_eq_true_eq] at hy ⊢
    exact hy.2
  refine Nat.lt_of_le_of_ne hsub.length_le fun hlen => ?_
  have hmem : x ∈ nodes.filter (· ∉ x :: seen) := by
    rw [hsub.eq_of_length hlen]
    simp [hx, hseen]
  simp at hmem

theorem unseen_eq {nodes seen : List α} {x : α} (hx : x ∉ nodes) :
    unseen nodes (x :: seen) = unseen nodes seen := by
  unfold unseen
  congr 1
  apply List.filter_congr
  intro y hy
  have hne : y ≠ x := fun h => hx (h ▸ hy)
  simp [hne]

/-- Visit the nodes on a stack and all they lead to. The result is the nodes seen, or `none` once
a node stops the search. -/
def visit (g : Graph α) (stop : α → Bool) (seen : List α) : List α → Option (List α)
  | [] => some seen
  | x :: stack =>
      if x ∈ seen then visit g stop seen stack
      else if stop x then none
      else visit g stop (x :: seen) (g.push x stack)
termination_by stack => (unseen g.nodes seen, stack.length)
decreasing_by
  · exact Prod.Lex.right _ (Nat.lt_succ_self _)
  · by_cases hx : x ∈ g.nodes
    · exact Prod.Lex.left _ _ (unseen_lt hx ‹_›)
    · rw [Graph.push, g.next_nil x hx, unseen_eq hx]
      exact Prod.Lex.right _ (Nat.lt_succ_self _)

/-- A finished search has seen a closed set that holds all it started from. -/
theorem visit_closed {g : Graph α} {stop : α → Bool} {seen stack found : List α}
    (hinv : Visited g stop seen stack) (h : visit g stop seen stack = some found) :
    Visited g stop found [] ∧ (∀ x ∈ seen, x ∈ found) ∧ ∀ x ∈ stack, x ∈ found := by
  fun_induction visit g stop seen stack with
  | case1 seen =>
    obtain rfl : seen = found := Option.some.inj h
    exact ⟨hinv, fun x hx => hx, by simp⟩
  | case2 seen x stack hx ih =>
    obtain ⟨hfound, hseen, hstack⟩ := ih (hinv.skip hx) h
    refine ⟨hfound, hseen, fun y hy => ?_⟩
    rcases List.mem_cons.mp hy with rfl | hy
    · exact hseen y hx
    · exact hstack y hy
  | case3 seen x stack hx hstop => cases h
  | case4 seen x stack hx hstop ih =>
    obtain ⟨hfound, hseen, hstack⟩ := ih (hinv.step (by simpa using hstop)) h
    refine ⟨hfound, fun y hy => hseen y (List.mem_cons_of_mem _ hy), fun y hy => ?_⟩
    rcases List.mem_cons.mp hy with rfl | hy
    · exact hseen y List.mem_cons_self
    · exact hstack y (List.mem_append_right _ hy)

theorem visit_sound {g : Graph α} {stop : α → Bool} {seen stack found : List α}
    (h : visit g stop seen stack = some found) {x : α} (hx : x ∈ found) :
    x ∈ seen ∨ g.Reached stack x := by
  fun_induction visit g stop seen stack with
  | case1 seen =>
    obtain rfl : seen = found := Option.some.inj h
    exact .inl hx
  | case2 seen y stack hy ih => exact (ih h).imp_right .cons
  | case3 seen y stack hy hstop => cases h
  | case4 seen y stack hy hstop ih =>
    rcases ih h with hmem | hreached
    · rcases List.mem_cons.mp hmem with rfl | hmem
      · exact .inr ⟨x, List.mem_cons_self, .refl⟩
      · exact .inl hmem
    · exact .inr hreached.of_next

theorem visit_stopped {g : Graph α} {stop : α → Bool} {seen stack : List α}
    (h : visit g stop seen stack = none) : ∃ x, g.Reached stack x ∧ stop x = true := by
  fun_induction visit g stop seen stack with
  | case1 seen => cases h
  | case2 seen y stack hy ih =>
    obtain ⟨x, hreached, hstop⟩ := ih h
    exact ⟨x, hreached.cons, hstop⟩
  | case3 seen y stack hy hstop => exact ⟨y, ⟨y, List.mem_cons_self, .refl⟩, hstop⟩
  | case4 seen y stack hy hstop ih =>
    obtain ⟨x, hreached, hstop⟩ := ih h
    exact ⟨x, hreached.of_next, hstop⟩

theorem mem_of_reached {g : Graph α} {stop : α → Bool} {stack found : List α}
    (h : visit g stop [] stack = some found) {x : α} (hx : g.Reached stack x) :
    x ∈ found ∧ stop x = false := by
  obtain ⟨hfound, -, hstack⟩ := visit_closed ⟨by simp, by simp⟩ h
  obtain ⟨y, hy, hpath⟩ := hx
  have hmem : x ∈ found := by
    induction hpath with
    | refl => exact hstack y hy
    | tail _ hedge ih => simpa using hfound.closed _ ih _ hedge
  exact ⟨hmem, hfound.going x hmem⟩

/-- A search stops exactly when a node it reaches stops it. -/
theorem visit_eq_none_iff {g : Graph α} {stop : α → Bool} {stack : List α} :
    visit g stop [] stack = none ↔ ∃ x, g.Reached stack x ∧ stop x = true := by
  constructor
  · exact visit_stopped
  · rintro ⟨x, hreached, hstop⟩
    cases h : visit g stop [] stack with
    | none => rfl
    | some found => simp [(mem_of_reached h hreached).2] at hstop

/-- All nodes reached. -/
def reached (g : Graph α) (start : List α) : List α := (visit g (fun _ => false) [] start).getD []

theorem mem_reached {g : Graph α} {start : List α} {x : α} :
    x ∈ reached g start ↔ g.Reached start x := by
  unfold reached
  cases h : visit g (fun _ => false) [] start with
  | none =>
    obtain ⟨y, -, hstop⟩ := visit_stopped h
    cases hstop
  | some found =>
    constructor
    · intro hx
      simpa using visit_sound h hx
    · exact fun hx => (mem_of_reached h hx).1

end GraphSearch
