import Scarab.RuleProgress

/-!
# The cost bound of a rule

The unit operations of an evaluation are at most the cost the rule was checked with.
-/
namespace Scarab.PolicyRules

open Scarab.Cel

def branchUnits (condition : Outcome) (then_ otherwise : ℕ) : ℕ :=
  match condition with
  | .ok (.bool true) => then_
  | .ok (.bool false) => otherwise
  | _ => 0

/-- What `in` compares with. -/
def haystackUnits : Outcome → ℕ
  | .ok (.list vs) => vs.length
  | .ok (.map _) => 1
  | _ => 0

/-- The elements of a range, each a unit more than its test. -/
def rangeUnits (range : Outcome) (test : Value → ℕ) : ℕ :=
  match range with
  | .ok (.list vs) => (vs.map fun v => test v + 1).sum
  | _ => 0

mutual

/-- The most unit operations that evaluating an expression takes: an evaluation of a node the author
wrote, an iteration of a macro, a comparison of `in`. Both sides of `&&` and `||` count and every
element of a macro's range; of `?:` the branch taken. The literal a `matches` or a conversion takes
is part of its call. -/
def units (host : Host) : Context → Expr → ℕ
  | ρ, .select o _ _ => units host ρ o + 1
  | ρ, .call .conditional none [c, a, b] =>
      units host ρ c + branchUnits (evaluate host ρ c) (units host ρ a) (units host ρ b) + 1
  | ρ, .call .isIn none [a, b] =>
      units host ρ a + units host ρ b + haystackUnits (evaluate host ρ b) + 1
  | ρ, .call .matches (some x) [.literal _] => units host ρ x + 1
  | _, .call .timestamp none [.literal _] => 1
  | _, .call .duration none [.literal _] => 1
  | ρ, .call _ target args => unitsTarget host ρ target + unitsAll host ρ args + 1
  | ρ, .list es _ => unitsAll host ρ es + 1
  | ρ, .map es => unitsEntries host ρ es + 1
  | ρ, .comprehension range var _ _ _ step _ =>
      units host ρ range +
        rangeUnits (evaluate host ρ range) fun v => stepUnits host ((var, v) :: ρ) step
  | _, _ => 1

def stepUnits (host : Host) : Context → Expr → ℕ
  | ρ, .call .or _ (_ :: p :: _) => units host ρ p
  | ρ, .call .and _ (_ :: p :: _) => units host ρ p
  | ρ, .call .conditional _ (p :: _) => units host ρ p
  | _, _ => 1

def unitsTarget (host : Host) : Context → Option Expr → ℕ
  | _, none => 0
  | ρ, some e => units host ρ e

def unitsAll (host : Host) : Context → List Expr → ℕ
  | _, [] => 0
  | ρ, e :: es => units host ρ e + unitsAll host ρ es

def unitsEntries (host : Host) : Context → List (Expr × Expr × EntryKind) → ℕ
  | _, [] => 0
  | ρ, (k, v, _) :: es => units host ρ k + units host ρ v + unitsEntries host ρ es

end

/-- `n` is at most `c`, or past what a cost can say. -/
def Within (n c : ℕ) : Prop := min n u64Max ≤ c

theorem Within.sum {n m a b : ℕ} (h : Within n a) (k : Within m b) :
    Within (n + m) (satAdd a b) := by
  simp only [Within, satAdd] at *
  omega

theorem Within.add_pair {n m a b : ℕ} (h : Within n a) (k : Within m b) :
    Within (n + m) (add [a, b]) := by
  simp only [Within, add, List.foldl, satAdd] at *
  omega

theorem Within.add_two {n a b : ℕ} (h : Within n a) : Within (n + b) (add [a, b]) :=
  h.add_pair (min_le_left _ _)

theorem Within.add_three {n m a b c : ℕ} (h : Within n a) (k : Within m b) :
    Within (n + m + c) (add [a, b, c]) := by
  simp only [Within, add, List.foldl, satAdd] at *
  omega

theorem Within.add_four {n m l a b c d : ℕ} (h : Within n a) (k : Within m b) (hl : l ≤ c) :
    Within (n + m + l + d) (add [a, b, c, d]) := by
  simp only [Within, add, List.foldl, satAdd] at *
  omega

theorem Within.mono {n m c : ℕ} (h : Within n c) (hm : m ≤ n) : Within m c := by
  simp only [Within] at *
  omega

theorem Within.max_left {n a b : ℕ} (h : Within n a) : Within n (max a b) := by
  simp only [Within] at *
  omega

theorem Within.max_right {n a b : ℕ} (h : Within n b) : Within n (max a b) := by
  simp only [Within] at *
  omega

theorem branchUnits_within {o : Outcome} {n m a b : ℕ} (h : Within n a) (k : Within m b) :
    Within (branchUnits o n m) (max a b) := by
  unfold branchUnits
  split
  · exact h.max_left
  · exact k.max_right
  · simp [Within]

/-- A macro over a list is within the product of the list's length and the bound of one element. -/
theorem sum_within {a : ℕ} {ns : List ℕ} (h : ∀ n ∈ ns, Within n a) :
    Within ns.sum (satMul ns.length a) := by
  induction ns with
  | nil => simp [Within]
  | cons n ns ih =>
    have hsum := (h n List.mem_cons_self).sum (ih fun k hk => h k (List.mem_cons_of_mem _ hk))
    have hmul : (n :: ns).length * a = ns.length * a + a := by
      rw [List.length_cons, Nat.add_mul, Nat.one_mul]
    simp only [Within, satAdd, satMul, hmul, List.sum_cons] at *
    omega

theorem satMul_mono {n m a : ℕ} (h : n ≤ m) : satMul n a ≤ satMul m a := by
  have hmul := Nat.mul_le_mul_right a h
  simp only [satMul]
  omega

section Cost

variable {host : Host} {s : Schema} {ρ : Context}

/-- Functions whose call counts its receiver and its arguments. -/
def countsAll : Func → Bool
  | .conditional | .isIn | .matches | .timestamp | .duration => false
  | _ => true

theorem units_call {f : Func} (hf : countsAll f = true) (target : Option Expr) (args : List Expr) :
    units host ρ (.call f target args) =
      unitsTarget host ρ target + unitsAll host ρ args + 1 := by
  cases f <;> first | rfl | cases hf

theorem units_single {f : Func} (hf : countsAll f = true) (a : Expr) :
    units host ρ (.call f none [a]) = units host ρ a + 1 := by
  rw [units_call hf]
  simp [unitsTarget, unitsAll]

theorem units_pair {f : Func} (hf : countsAll f = true) (a b : Expr) :
    units host ρ (.call f none [a, b]) = units host ρ a + units host ρ b + 1 := by
  rw [units_call hf]
  simp [unitsTarget, unitsAll]

theorem units_method {f : Func} (hf : countsAll f = true) (x y : Expr) :
    units host ρ (.call f (some x) [y]) = units host ρ x + units host ρ y + 1 := by
  rw [units_call hf]
  simp [unitsTarget, unitsAll]

theorem stepUnits_predicate {kind : MacroKind} {step p : Expr}
    (h : kind.predicate step = some p) : stepUnits host ρ step = units host ρ p := by
  unfold MacroKind.predicate at h
  split at h
  · obtain rfl := Option.some.inj h
    rfl
  · obtain rfl := Option.some.inj h
    rfl
  · obtain rfl := Option.some.inj h
    rfl
  · cases h

theorem unitsAll_within {items : List Item} : ∀ {n c : ℕ}, Within n c →
    (∀ x ∈ items, Within (units host ρ x.expr) x.cost) →
    Within (n + unitsAll host ρ (items.map Item.expr))
      (items.foldl (fun c x => satAdd c x.cost) c) := by
  induction items with
  | nil => exact fun h _ => h
  | cons x items ih =>
    intro n c h hx
    have hrest := ih (h.sum (hx x List.mem_cons_self)) fun y hy => hx y (List.mem_cons_of_mem _ hy)
    rw [Nat.add_assoc] at hrest
    exact hrest

theorem unitsEntries_within {pairs : List ItemPair} : ∀ {n c : ℕ}, Within n c →
    (∀ p ∈ pairs, Within (units host ρ p.key.expr) p.key.cost) →
    (∀ p ∈ pairs, Within (units host ρ p.value.expr) p.value.cost) →
    Within (n + unitsEntries host ρ (pairs.map ItemPair.entry))
      (pairs.foldl (fun c p => add [c, p.key.cost, p.value.cost]) c) := by
  induction pairs with
  | nil => exact fun h _ _ => h
  | cons p pairs ih =>
    intro n c h hk hv
    have hhead : Within (n + units host ρ p.key.expr + units host ρ p.value.expr)
        (add [c, p.key.cost, p.value.cost]) := by
      have hkey := hk p List.mem_cons_self
      have hvalue := hv p List.mem_cons_self
      simp only [Within, add, List.foldl, satAdd] at *
      omega
    have hrest := ih hhead (fun q hq => hk q (List.mem_cons_of_mem _ hq))
      fun q hq => hv q (List.mem_cons_of_mem _ hq)
    have hsum : n + unitsEntries host ρ ((p :: pairs).map ItemPair.entry) =
        n + units host ρ p.key.expr + units host ρ p.value.expr +
          unitsEntries host ρ (pairs.map ItemPair.entry) := by
      change n + (units host ρ p.key.expr + units host ρ p.value.expr +
        unitsEntries host ρ (pairs.map ItemPair.entry)) = _
      omega
    rw [hsum]
    exact hrest

theorem countsAll_equality {f : Func} (h : isEquality f = true) : countsAll f = true := by
  cases f <;> first | rfl | cases h

theorem countsAll_order {f : Func} (h : isOrder f = true) : countsAll f = true := by
  cases f <;> first | rfl | cases h

theorem countsAll_textTest {f : Func} (h : isTextTest f = true) : countsAll f = true := by
  cases f <;> first | rfl | cases h

/-- A context that agrees up to null asks nothing of what is guarded. -/
theorem Agrees.guarded {Γ : Scope} (ha : Agrees s orNull Γ ρ) (paths : List Text) :
    Agrees s orNull (Γ.guard paths) ρ :=
  ha.guard fun h => by cases h

theorem inList_within {b : Expr} {elem : CelType} {cap : ℕ}
    (hb : ∀ {v}, evaluate host ρ b = .ok v → HasType s orNull v (.list elem cap)) :
    haystackUnits (evaluate host ρ b) ≤ cap := by
  cases hv : evaluate host ρ b with
  | error e => exact Nat.zero_le _
  | ok v =>
    cases hb hv with
    | list hlen _ => exact hlen
    | absent => exact Nat.zero_le _

theorem inMap_within {b : Expr} {key value : CelType} {cap : ℕ}
    (hb : ∀ {v}, evaluate host ρ b = .ok v → HasType s orNull v (.map key value cap)) :
    haystackUnits (evaluate host ρ b) ≤ 1 := by
  cases hv : evaluate host ρ b with
  | error e => exact Nat.zero_le _
  | ok v =>
    cases hb hv with
    | map => exact le_rfl
    | absent => exact Nat.zero_le _

/-- A macro takes for each element of its range, of which there are at most the range's cap. -/
theorem range_within {range : Expr} {elem : CelType} {cap a : ℕ} {test : Value → ℕ}
    (hrange : ∀ {v}, evaluate host ρ range = .ok v → HasType s orNull v (.list elem cap))
    (htest : ∀ v, HasType s orNull v elem → Within (test v + 1) a) :
    Within (rangeUnits (evaluate host ρ range) test) (satMul cap a) := by
  cases hv : evaluate host ρ range with
  | error e => exact (min_le_left _ _).trans (Nat.zero_le _)
  | ok v =>
    cases hrange hv with
    | absent => exact (min_le_left _ _).trans (Nat.zero_le _)
    | @list vs _ _ hlen hvs =>
      have hsum : Within (vs.map fun v => test v + 1).sum
          (satMul (vs.map fun v => test v + 1).length a) := by
        refine sum_within fun n hn => ?_
        obtain ⟨v, hmem, rfl⟩ := List.mem_map.mp hn
        exact htest v (hvs v hmem)
      rw [List.length_map] at hsum
      exact le_trans hsum (satMul_mono hlen)

/-- A node takes no more than its cost, whatever is absent. -/
theorem Checks.units_within (law : Lawful host) {Γ : Scope} {e : Expr} {t : CelType} {c : ℕ}
    {w : List Warning} (h : Checks host s Γ e t c w) :
    ∀ {ρ : Context}, Agrees s orNull Γ ρ → Within (units host ρ e) c := by
  have hone : Within 1 1 := by simp [Within, u64Max]
  induction h with
  | literal => exact fun _ => hone
  | iterVar => exact fun _ => hone
  | topVar => exact fun _ => hone
  | field _ _ _ ih => exact fun ha => (ih ha).add_two
  | entry _ ih => exact fun ha => (ih ha).add_two
  | has _ _ ih => exact fun ha => (ih ha).add_two
  | list _ _ ih =>
    intro ρ ha
    have hall := unitsAll_within hone fun x hx => ih x hx ha
    rw [Nat.add_comm] at hall
    exact hall
  | map _ _ _ _ _ ihk ihv =>
    intro ρ ha
    have hall := unitsEntries_within hone (fun p hp => ihk p hp ha) fun p hp => ihv p hp ha
    rw [Nat.add_comm] at hall
    exact hall
  | and _ _ _ _ iha ihb =>
    intro ρ ha
    rw [units_pair rfl]
    exact (iha ha).add_three (ihb (ha.guarded _))
  | or _ _ _ _ iha ihb =>
    intro ρ ha
    rw [units_pair rfl]
    exact (iha ha).add_three (ihb (ha.guarded _))
  | not _ _ iha =>
    intro ρ ha
    rw [units_single rfl]
    exact (iha ha).add_two
  | conditional _ _ _ _ _ ihc iha ihb =>
    exact fun ha =>
      (ihc ha).add_three (branchUnits_within (iha (ha.guarded _)) (ihb (ha.guarded _)))
  | equality hf _ _ _ _ iha ihb =>
    intro ρ ha
    rw [units_pair (countsAll_equality hf)]
    exact (iha ha).add_three (ihb ha)
  | ordering hf _ _ _ iha ihb =>
    intro ρ ha
    rw [units_pair (countsAll_order hf)]
    exact (iha ha).add_three (ihb ha)
  | inList _ hb _ _ iha ihb =>
    exact fun ha => (iha ha).add_four (ihb ha)
      (inList_within fun hv => hb.preserves law ha (Reads.orNull _ _) hv)
  | inMap _ hb _ _ iha ihb =>
    exact fun ha => (iha ha).add_four (ihb ha)
      (inMap_within fun hv => hb.preserves law ha (Reads.orNull _ _) hv)
  | size _ _ ih =>
    intro ρ ha
    rw [units_single rfl]
    exact (ih ha).add_two
  | sizeOf _ _ ih => exact fun ha => (ih ha).add_two
  | textTest hf _ _ _ _ ihx ihy =>
    intro ρ ha
    rw [units_method (countsAll_textTest hf)]
    exact (ihx ha).add_three (ihy ha)
  | matching _ _ _ ih => exact fun ha => (ih ha).add_two.mono (by simp [units])
  | @conversion Γ f t hf _ =>
    intro ρ _
    cases f with
    | timestamp => exact hone
    | duration => exact hone
    | _ => cases hf
  | comprehension _ hp _ hrange _ _ ihr ihp =>
    intro ρ ha
    refine (ihr ha).add_pair (range_within (hrange.preserves law ha (Reads.orNull _ _)) ?_)
    intro v hv
    rw [stepUnits_predicate hp]
    exact (ihp (ha.iterate hv)).add_two

/-- Evaluating a checked rule on an input that binds takes at most the unit operations of its cost
bound, which the checker keeps under the limit. -/
theorem evaluation_within_cost (law : Lawful host) {source : Text} {e : Expr}
    {expected : CelType} {k : Checked} {json : Pipeline.Json}
    (hcompile : host.cel.compile source = some e)
    (hcheck : check host s source expected = .ok k)
    (hbind : PolicyRules.bind host s json = .ok ρ) : units host ρ e ≤ k.cost ∧ k.cost ≤ maxCost := by
  obtain ⟨e', -, hc, hchecks, -, hcost⟩ := check_refines law hcheck
  obtain rfl := Option.some.inj (hcompile.symm.trans hc)
  have hwithin : Within (units host ρ e) k.cost := hchecks.units_within law (bind_agrees law hbind)
  have hlimit : maxCost < u64Max := by simp [maxCost, u64Max]
  refine ⟨?_, hcost⟩
  simp only [Within] at hwithin
  omega

end Cost

theorem sample_within_cost : ∃ k ρ,
    check sampleHost sampleSchema sampleSource .bool = .ok k ∧
      PolicyRules.bind sampleHost sampleSchema sampleInput = .ok ρ ∧
      units sampleHost ρ sampleRule ≤ k.cost ∧ k.cost ≤ maxCost := by
  obtain ⟨k, hk, -⟩ := sample_checked
  obtain ⟨ρ, hρ⟩ := ok_of_toBool sample_binds
  have hcompile : sampleHost.cel.compile sampleSource = some sampleRule := by
    change sampleCompile sampleSource = some sampleRule
    exact if_pos rfl
  have hcost := evaluation_within_cost sample_lawful hcompile hk hρ
  exact ⟨k, ρ, hk, hρ, hcost.1, hcost.2⟩

end Scarab.PolicyRules
