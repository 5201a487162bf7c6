import Scarab.RuleValues

/-!
# What a checked rule evaluates to

A node that evaluates has a value of its type: strictly where the rule draws no warning, and up to
null otherwise. A condition that has come out leaves the paths it tests present.
-/
namespace Scarab.PolicyRules

open Scarab.Cel

/-- The value is that of the path `p`, or says whether the path is there. -/
def Follows (ρ : Context) (e : Expr) (p : Text) (v : Value) : Prop :=
  ∃ x fs, (∀ n ∈ x :: fs, Undotted n) ∧ pathText x fs = p ∧
    if isTest e then v = .bool (follow ρ x fs).isSome else follow ρ x fs = some v

section Soundness

variable {host : Host} {s : Schema} {ρ : Context} {v : Value}

theorem ident_follows (law : Lawful host) {x p : Text} (hx : Undotted x)
    (hp : pathOf (.ident x) = some p) (hv : evaluate host ρ (.ident x) = .ok v) :
    Follows ρ (.ident x) p v := by
  obtain rfl := Option.some.inj hp
  have hl := (evaluate_ident law).mp hv
  exact ⟨x, [], by simpa using hx, rfl, by simp [isTest, follow, hl, followFields]⟩

/-- A select goes one field further than its operand. -/
theorem select_follows (law : Lawful host) {o : Expr} {f p : Text} {test : Bool}
    (hf : Undotted f) (ho : isTest o = false)
    (ih : ∀ {p : Text} {u : Value}, pathOf o = some p → evaluate host ρ o = .ok u →
      Follows ρ o p u)
    (hp : pathOf (.select o f test) = some p) (hv : evaluate host ρ (.select o f test) = .ok v) :
    Follows ρ (.select o f test) p v := by
  obtain ⟨q, hq, rfl⟩ := Option.map_eq_some_iff.mp hp
  obtain ⟨u, hu, hv'⟩ : ∃ u, evaluate host ρ o = .ok u ∧
      if test then v = .bool (fieldIn f u).isSome else fieldIn f u = some v := by
    cases test with
    | true => exact evaluate_has_ok law hv
    | false =>
      obtain ⟨m, hm, he⟩ := (evaluate_select law).mp hv
      exact ⟨_, hm, he⟩
  obtain ⟨x, fs, hx, rfl, hfollow⟩ := ih hq hu
  rw [if_neg (by simp [ho])] at hfollow
  refine ⟨x, fs ++ [f], fun n hn => ?_, pathText_snoc x fs f, ?_⟩
  · rw [← List.cons_append] at hn
    rcases List.mem_append.mp hn with hn | hn
    · exact hx n hn
    · exact List.mem_singleton.mp hn ▸ hf
  · rw [follow_snoc, hfollow]
    cases test with
    | true => simpa [isTest] using hv'
    | false => simpa [isTest] using hv'

/-- A path of the rule, evaluated: the value at it, or whether it is there. -/
theorem Checks.follows (law : Lawful host) {Γ : Scope} {e : Expr} {t : CelType} {c : ℕ}
    {w : List Warning} (h : Checks host s Γ e t c w) :
    ∀ {p : Text} {v : Value}, Every Named e → pathOf e = some p → evaluate host ρ e = .ok v →
      Follows ρ e p v := by
  induction h with
  | iterVar => exact fun hn => ident_follows law hn.self
  | topVar => exact fun hn => ident_follows law hn.self
  | field ho _ _ ih =>
    exact fun hn => select_follows law hn.self (ho.not_test (by simp)) fun hq => ih hn.operand hq
  | entry ho ih =>
    exact fun hn => select_follows law hn.self (ho.not_test (by simp)) fun hq => ih hn.operand hq
  | has ho hk ih =>
    have hne : ∀ {t : CelType}, keyed t = true → t ≠ .bool := by
      rintro t hk rfl
      cases hk
    intro p v hn
    exact select_follows law hn.self (ho.not_test (hne hk)) fun hq => ih hn.operand hq
  | _ => intro p v _ hp; cases hp

theorem Checks.held (law : Lawful host) {Γ : Scope} {e : Expr} {t : CelType} {c : ℕ}
    {w : List Warning} (h : Checks host s Γ e t c w) {p : Text} (hn : Every Named e)
    (hp : pathOf e = some p) (hv : evaluate host ρ e = .ok v) (hne : v ≠ .null)
    (ht : isTest e = true → v = .bool true) : Held ρ p := by
  obtain ⟨x, fs, hx, hpath, hf⟩ := h.follows law hn hp hv
  split_ifs at hf with hte
  · have hsome : (follow ρ x fs).isSome = true := by
      have hb := (ht hte).symm.trans hf
      exact (Value.bool.inj hb).symm
    obtain ⟨u, hu⟩ := Option.isSome_iff_exists.mp hsome
    refine ⟨x, fs, u, hx, hpath, hu, ?_⟩
    rintro rfl
    -- a test has a field
    cases e with
    | select o f test =>
      exfalso
      obtain ⟨q, hq, rfl⟩ := Option.map_eq_some_iff.mp hp
      have hdot : '.' ∈ pathText x [] := by
        rw [hpath]
        simp
      exact hx x List.mem_cons_self hdot
    | _ => cases hte
  · exact ⟨x, fs, v, hx, hpath, hf, fun _ => hne⟩

/-- What a comparison with null that came out says of the path it tests. -/
theorem nullTested_held (law : Lawful host) {Γ : Scope} {a b : Expr} {ta tb : CelType} {ca cb : ℕ}
    {wa wb : List Warning} {va vb : Value} (ha : Checks host s Γ a ta ca wa)
    (hb : Checks host s Γ b tb cb wb) (na : Every Named a) (nb : Every Named b)
    (hva : evaluate host ρ a = .ok va) (hvb : evaluate host ρ b = .ok vb)
    (hna : isNull b = true → isTest a = false) (hnb : isNull a = true → isTest b = false)
    (hne : ¬ (va = .null ∧ vb = .null)) : ∀ g ∈ nullTested a b, Held ρ g := by
  have hnull : ∀ {e : Expr} {v : Value}, isNull e = true → evaluate host ρ e = .ok v →
      v = .null := by
    intro e v hn hv
    cases e with
    | literal l =>
      cases l with
      | null => exact (Except.ok.inj ((evaluate_literal law _).symm.trans hv)).symm
      | _ => cases hn
    | _ => cases hn
  intro g hg
  simp only [nullTested] at hg
  split_ifs at hg with hb' ha'
  · have hg' : pathOf a = some g := by simpa using hg
    have hv : va ≠ .null := fun he => hne ⟨he, hnull hb' hvb⟩
    exact ha.held law na hg' hva hv fun ht => absurd ht (by simp [hna hb'])
  · have hg' : pathOf b = some g := by simpa using hg
    have hv : vb ≠ .null := fun he => hne ⟨hnull ha' hva, he⟩
    exact hb.held law nb hg' hvb hv fun ht => absurd ht (by simp [hnb ha'])
  · cases hg

theorem strict_of_equality {f : Func} (h : isEquality f = true) : strict f = true := by
  cases f <;> first | rfl | cases h

/-- A comparison with null that came out against null leaves the path it tests present. -/
theorem equality_facts (law : Lawful host) {Γ : Scope} {f : Func} {a b : Expr} {ta tb : CelType}
    {ca cb : ℕ} {wa wb : List Warning} (hf : isEquality f = true)
    (ha : Checks host s Γ a ta ca wa) (hb : Checks host s Γ b tb cb wb)
    (hna : isNull b = true → isTest a = false) (hnb : isNull a = true → isTest b = false)
    (hn : Every Named (.call f none [a, b])) {holds : Bool}
    (hv : evaluate host ρ (.call f none [a, b]) = .ok (.bool holds)) :
    ∀ g ∈ facts holds (.call f none [a, b]), Held ρ g := by
  obtain ⟨vs, hvs, happ⟩ := (evaluate_call law (strict_of_equality hf)).mp hv
  obtain ⟨va, vb, hva, hvb, rfl⟩ := evaluates_pair.mp hvs
  have hheld := nullTested_held law ha hb hn.args.head hn.args.tail.head hva hvb hna hnb
  intro g hg
  cases f with
  | equals =>
    cases holds with
    | true => cases hg
    | false =>
      refine hheld ?_ g hg
      rintro ⟨rfl, rfl⟩
      rw [law.equals_null] at happ
      cases happ
  | notEquals =>
    cases holds with
    | false => cases hg
    | true =>
      refine hheld ?_ g hg
      rintro ⟨rfl, rfl⟩
      rw [law.notEquals_null] at happ
      cases happ
  | _ => cases hf

theorem not_facts (law : Lawful host) {a : Expr}
    (ih : ∀ {holds : Bool}, evaluate host ρ a = .ok (.bool holds) →
      ∀ g ∈ facts holds a, Held ρ g) {holds : Bool}
    (hv : evaluate host ρ (.call .not none [a]) = .ok (.bool holds)) :
    ∀ g ∈ facts holds (.call .not none [a]), Held ρ g := by
  obtain ⟨vs, hvs, happ⟩ := (evaluate_call law rfl).mp hv
  obtain ⟨va, hva, rfl⟩ := evaluates_single.mp hvs
  obtain ⟨b, rfl, hb⟩ := law.negates happ
  obtain rfl : b = !holds := by rw [Value.bool.inj hb, Bool.not_not]
  intro g hg
  have hg' : g ∈ facts (!holds) a := by cases holds <;> exact hg
  exact ih hva g hg'

/-- Once a condition has come out, the paths it tests are present. -/
theorem Checks.facts_hold (law : Lawful host) {Γ : Scope} {e : Expr} {t : CelType} {c : ℕ}
    {w : List Warning} (h : Checks host s Γ e t c w) : ∀ {holds : Bool}, Every Named e →
      evaluate host ρ e = .ok (.bool holds) → ∀ g ∈ facts holds e, Held ρ g := by
  induction h with
  | @has Γ o f t c w ho hk ih =>
    intro holds hn hv g hg
    cases holds with
    | false => cases hg
    | true =>
      have hp : pathOf (.select o f true) = some g := by simpa [facts] using hg
      exact (Checks.has ho hk).held law hn hp hv (by simp) fun _ => rfl
  | @and Γ a b ta tb ca cb wa wb _ _ _ _ iha ihb =>
    intro holds hn hv g hg
    cases holds with
    | false => cases hg
    | true =>
      rcases evaluate_logical_ok law .and hv with hl | ⟨hl, hr, -⟩
      · cases hl
      · rcases List.mem_append.mp hg with hg | hg
        · exact iha hn.args.head hl g hg
        · exact ihb hn.args.tail.head hr g hg
  | @or Γ a b ta tb ca cb wa wb _ _ _ _ iha ihb =>
    intro holds hn hv g hg
    cases holds with
    | true => cases hg
    | false =>
      rcases evaluate_logical_ok law .or hv with hl | ⟨hl, hr, -⟩
      · cases hl
      · rcases List.mem_append.mp hg with hg | hg
        · exact iha hn.args.head hl g hg
        · exact ihb hn.args.tail.head hr g hg
  | not _ _ iha => exact fun hn => not_facts law (iha hn.args.head)
  | equality hf ha hb hna hnb _ _ => exact fun hn => equality_facts law hf ha hb hna hnb hn
  | @ordering Γ f a b ta tb ca cb wa wb hf _ _ _ _ _ =>
    intro holds _ _ g hg
    cases f <;> cases hf <;> cases holds <;> cases hg
  | @textTest Γ f x y tx ty cx cy wx wy hf _ _ _ _ _ _ =>
    intro holds _ _ g hg
    cases f <;> cases hf <;> cases holds <;> cases hg
  | @conversion Γ f t hf _ =>
    intro holds _ _ g hg
    cases f <;> cases hf <;> cases holds <;> cases hg
  | _ =>
    intro holds _ _ g hg
    cases holds <;> cases hg

variable {r : Reading}

theorem literal_typed (law : Lawful host) {l : Literal} (hl : l ≠ .double nan)
    (hv : evaluate host ρ (.literal l) = .ok v) : HasType s r v (literalType l) := by
  obtain rfl := Except.ok.inj ((evaluate_literal law l).symm.trans hv)
  cases l with
  | bool b => exact .bool
  | bytes bs => exact .bytes
  | double x => exact .double fun hx => hl (hx ▸ rfl)
  | int z => exact .int
  | null => exact .null
  | string x => exact .string
  | uint n => exact .uint

/-- A variable bound to null where it may be absent is read only where a guard holds. -/
theorem topVar_typed (law : Lawful host) {Γ : Scope} {x : Text} {var : Field}
    (ha : Agrees s r Γ ρ) (hl : Γ.vars.lookup x = none) (hvar : s.variable x = some var)
    (hx : r.absent = false → Undotted x)
    (hw : r.absent = false → (var.optional && !Γ.guarded x) = false)
    (hv : evaluate host ρ (.ident x) = .ok v) : HasType s r v var.ty := by
  obtain ⟨u, hu, ht⟩ := ha.outer hl hvar
  obtain rfl := Option.some.inj (((evaluate_ident law).mp hv).symm.trans hu)
  rcases ht with ht | ⟨ho, rfl⟩
  · exact ht
  · cases hr : r.absent with
    | true => exact .absent hr
    | false =>
      exfalso
      have hg : Γ.guarded x = true := by simpa [ho] using hw hr
      have hheld : Held ρ (pathText x []) := ha.held hr x (by simpa [Scope.guarded] using hg)
      obtain ⟨u, hf, hn⟩ := hheld.at (by simpa using hx hr)
      have hf' : ρ.lookup x = some u := by simpa [follow, followFields] using hf
      exact hn rfl (Option.some.inj (hu.symm.trans hf')).symm

theorem field_typed (law : Lawful host) {o : Expr} {f name : Text} {d : StructDecl} {decl : Field}
    (hd : s.structDecl name = some d) (hdecl : d.field f = some decl)
    (ih : ∀ {u}, evaluate host ρ o = .ok u → HasType s r u (.struct name))
    (hv : evaluate host ρ (.select o f false) = .ok v) : HasType s r v decl.ty := by
  obtain ⟨m, hm, he⟩ := (evaluate_select law).mp hv
  cases ih hm with
  | struct hd' htyped _ =>
    obtain rfl := Option.some.inj (hd.symm.trans hd')
    exact htyped f decl v hdecl he

theorem entry_typed (law : Lawful host) {o : Expr} {f : Text} {key value : CelType} {cap : ℕ}
    (ih : ∀ {u}, evaluate host ρ o = .ok u → HasType s r u (.map key value cap))
    (hv : evaluate host ρ (.select o f false) = .ok v) : HasType s r v value := by
  obtain ⟨m, hm, he⟩ := (evaluate_select law).mp hv
  cases ih hm with
  | map _ _ hvs => exact hvs _ (entryOf_mem he)

theorem evaluates_typed {elem : CelType} {items : List Item} : ∀ {vs : List Value},
    (∀ x ∈ items, ∀ v, evaluate host ρ x.expr = .ok v → HasType s r v elem) →
      Evaluates host ρ (items.map Item.expr) vs →
      vs.length = items.length ∧ ∀ v ∈ vs, HasType s r v elem := by
  induction items with
  | nil =>
    intro vs _ h
    obtain rfl := List.forall₂_nil_left_iff.mp h
    exact ⟨rfl, by simp⟩
  | cons x items ih =>
    intro vs hx h
    obtain ⟨v, us, hv, hus, rfl⟩ := List.forall₂_cons_left_iff.mp h
    obtain ⟨hlen, htyped⟩ := ih (fun y hy => hx y (List.mem_cons_of_mem _ hy)) hus
    refine ⟨by simp [hlen], fun u hu => ?_⟩
    rcases List.mem_cons.mp hu with rfl | hu
    · exact hx x List.mem_cons_self _ hv
    · exact htyped u hu

theorem list_typed (law : Lawful host) {elem : CelType} {items : List Item}
    (ht : unifyAll .dyn (items.map Item.ty) = some elem)
    (ih : ∀ x ∈ items, ∀ u, evaluate host ρ x.expr = .ok u → HasType s r u x.ty)
    (hv : evaluate host ρ (.list (items.map Item.expr) []) = .ok v) :
    HasType s r v (.list elem items.length) := by
  obtain ⟨vs, hvs, rfl⟩ := (evaluate_list law).mp hv
  obtain ⟨hlen, htyped⟩ := evaluates_typed (fun x hx u hu =>
    (HasType.unifyAll ht).2 x.ty (List.mem_map_of_mem hx) u (ih x hx u hu)) hvs
  exact .list hlen.le htyped

theorem map_typed (law : Lawful host) {key value : CelType} {pairs : List ItemPair}
    (hm : r.maps = true) (hkt : unifyAll .dyn (pairs.map fun p => p.key.ty) = some key)
    (hvt : unifyAll .dyn (pairs.map fun p => p.value.ty) = some value)
    (ihk : ∀ p ∈ pairs, ∀ u, evaluate host ρ p.key.expr = .ok u → HasType s r u p.key.ty)
    (ihv : ∀ p ∈ pairs, ∀ u, evaluate host ρ p.value.expr = .ok u → HasType s r u p.value.ty)
    (hv : evaluate host ρ (.map (pairs.map ItemPair.entry)) = .ok v) :
    HasType s r v (.map key value pairs.length) := by
  have hpair : ∀ e ∈ pairs.map ItemPair.entry, e.2.2 = .pair := by
    intro e he
    obtain ⟨p, -, rfl⟩ := List.mem_map.mp he
    rfl
  obtain ⟨m, rfl, hmem⟩ := evaluate_map_ok law hpair hv
  have hentry : ∀ entry ∈ m, HasType s r entry.1.value key ∧ HasType s r entry.2 value := by
    intro entry hentry
    obtain ⟨e, he, hk, hv⟩ := hmem entry hentry
    obtain ⟨p, hp, rfl⟩ := List.mem_map.mp he
    exact ⟨(HasType.unifyAll hkt).2 p.key.ty
        (List.mem_map_of_mem (f := fun p : ItemPair => p.key.ty) hp) _ (ihk p hp _ hk),
      (HasType.unifyAll hvt).2 p.value.ty
        (List.mem_map_of_mem (f := fun p : ItemPair => p.value.ty) hp) _ (ihv p hp _ hv)⟩
  exact .map hm (fun e he => (hentry e he).1) fun e he => (hentry e he).2

theorem logical_typed (law : Lawful host) (op : Logic) {a b : Expr}
    (hv : evaluate host ρ (.call op.func none [a, b]) = .ok v) : HasType s r v .bool := by
  rcases evaluate_logical_ok law op hv with rfl | ⟨-, -, rfl⟩ <;> exact .bool

theorem not_typed (law : Lawful host) {a : Expr}
    (hv : evaluate host ρ (.call .not none [a]) = .ok v) : HasType s r v .bool := by
  obtain ⟨vs, hvs, happ⟩ := (evaluate_call law rfl).mp hv
  obtain ⟨u, -, rfl⟩ := evaluates_single.mp hvs
  obtain ⟨b, -, rfl⟩ := law.negates happ
  exact .bool

theorem strict_of_test {f : Func} (h : isTestFunc f = true) : strict f = true := by
  cases f <;> first | rfl | cases h

/-- The calls of tests come out as bools. -/
theorem test_typed (law : Lawful host) {f : Func} {args : List Expr} (hf : isTestFunc f = true)
    (hv : evaluate host ρ (.call f none args) = .ok v) : HasType s r v .bool := by
  obtain ⟨vs, -, happ⟩ := (evaluate_call law (strict_of_test hf)).mp hv
  obtain ⟨b, rfl⟩ := law.tests hf happ
  exact .bool

theorem textTest_typed (law : Lawful host) {f : Func} {x : Expr} {args : List Expr}
    (hf : isTextTest f = true) (hv : evaluate host ρ (.call f (some x) args) = .ok v) :
    HasType s r v .bool := by
  have hf' : isTestFunc f = true := by simp [isTestFunc, hf]
  obtain ⟨u, vs, -, -, happ⟩ := (evaluate_method law (strict_of_test hf')).mp hv
  obtain ⟨b, rfl⟩ := law.tests hf' happ
  exact .bool

theorem size_typed (law : Lawful host) {args : List Expr}
    (hv : evaluate host ρ (.call .size none args) = .ok v) : HasType s r v .int := by
  obtain ⟨vs, -, happ⟩ := (evaluate_call law rfl).mp hv
  obtain ⟨z, rfl⟩ := law.sizes happ
  exact .int

theorem sizeOf_typed (law : Lawful host) {x : Expr} {args : List Expr}
    (hv : evaluate host ρ (.call .size (some x) args) = .ok v) : HasType s r v .int := by
  obtain ⟨u, vs, -, -, happ⟩ := (evaluate_method law rfl).mp hv
  obtain ⟨z, rfl⟩ := law.sizes happ
  exact .int

theorem matching_typed (law : Lawful host) {x : Expr} {p : Text}
    (hv : evaluate host ρ (.call .matches (some x) [.literal (.string p)]) = .ok v) :
    HasType s r v .bool := by
  obtain ⟨u, -, h⟩ := (evaluate_matches law).mp hv
  unfold matchesOutcome at h
  split at h
  · split at h
    · obtain rfl := Except.ok.inj h
      exact .bool
    · cases h
  · cases h

theorem conversion_typed (law : Lawful host) {f : Func} {args : List Expr}
    (hf : isConversion f = true) (hv : evaluate host ρ (.call f none args) = .ok v) :
    HasType s r v (conversionType f) := by
  cases f with
  | timestamp =>
    obtain ⟨vs, -, happ⟩ := (evaluate_call law rfl).mp hv
    obtain ⟨z, rfl⟩ := law.timestamps happ
    exact .timestamp
  | duration =>
    obtain ⟨vs, -, happ⟩ := (evaluate_call law rfl).mp hv
    obtain ⟨z, rfl⟩ := law.durations happ
    exact .duration
  | _ => cases hf

theorem comprehension_typed (law : Lawful host) {kind : MacroKind}
    {range init cond step result p : Expr} {var : Text} (hp : kind.predicate step = some p)
    (hx : host.cel.expand kind range var p = .comprehension range var none init cond step result)
    (hv : evaluate host ρ (.comprehension range var none init cond step result) = .ok v) :
    HasType s r v .bool := by
  rw [← hx] at hv
  obtain ⟨b, rfl⟩ := evaluate_loop_bool law (MacroKind.predicate_ne hp) hv
  exact .bool

/-- The node writes no map. -/
def Mapless : Expr → Prop
  | .map _ => False
  | _ => True

/-- What is asked of an expression that draws the warnings `w` for its types to be read by `r`. -/
structure Reads (r : Reading) (e : Expr) (w : List Warning) : Prop where
  quiet : r.absent = false → w = []
  named : r.absent = false → Every Named e
  mapless : r.maps = false → Every Mapless e

theorem Reads.sub {e e' : Expr} {w w' : List Warning} (h : Reads r e w) (hw : w = [] → w' = [])
    (he : ∀ {P}, Every P e → Every P e') : Reads r e' w' where
  quiet hr := hw (h.quiet hr)
  named hr := he (h.named hr)
  mapless hr := he (h.mapless hr)

theorem left_nil {w w' : List Warning} (h : w ++ w' = []) : w = [] :=
  (List.append_eq_nil_iff.mp h).1

theorem right_nil {w w' : List Warning} (h : w ++ w' = []) : w' = [] :=
  (List.append_eq_nil_iff.mp h).2

theorem every_entry {P : Expr → Prop} {pairs : List ItemPair}
    (h : Every P (.map (pairs.map ItemPair.entry))) :
    ∀ p ∈ pairs, Every P p.key.expr ∧ Every P p.value.expr := by
  have hall : ∀ n ∈ nodesEntries (pairs.map ItemPair.entry), P n := fun n hn =>
    h n (by simp [nodes, hn])
  clear h
  induction pairs with
  | nil => simp
  | cons q pairs ih =>
    intro p hp
    rcases List.mem_cons.mp hp with rfl | hp
    · exact ⟨fun n hn => hall n (by simp [nodesEntries, ItemPair.entry, hn]),
        fun n hn => hall n (by simp [nodesEntries, ItemPair.entry, hn])⟩
    · exact ih (fun n hn => hall n (by simp [nodesEntries, ItemPair.entry, hn])) p hp

theorem Checks.preserves (law : Lawful host) {Γ : Scope} {e : Expr} {t : CelType} {c : ℕ}
    {w : List Warning} (h : Checks host s Γ e t c w) :
    ∀ {ρ : Context} {r : Reading} {v : Value}, Agrees s r Γ ρ → Reads r e w →
      evaluate host ρ e = .ok v → HasType s r v t := by
  induction h with
  | literal hl => exact fun _ _ hv => literal_typed law hl hv
  | iterVar hl =>
    intro ρ r v ha _ hv
    obtain ⟨u, hu, ht⟩ := ha.inner hl
    obtain rfl := Option.some.inj (((evaluate_ident law).mp hv).symm.trans hu)
    exact ht
  | topVar hl hvar =>
    intro ρ r v ha hr hv
    exact topVar_typed law ha hl hvar (fun h => (hr.named h).self)
      (fun h => by simpa using hr.quiet h) hv
  | field _ hd hdecl ih =>
    intro ρ r v ha hr hv
    exact field_typed law hd hdecl (fun hu => ih ha (hr.sub left_nil Every.operand) hu) hv
  | entry _ ih =>
    intro ρ r v ha hr hv
    exact entry_typed law (fun hu => ih ha (hr.sub id Every.operand) hu) hv
  | has =>
    intro ρ r v _ _ hv
    obtain ⟨u, -, rfl⟩ := evaluate_has_ok law hv
    exact .bool
  | @list Γ elem items _ ht ih =>
    intro ρ r v ha hr hv
    refine list_typed law ht (fun x hx u hu => ih x hx ha ?_ hu) hv
    exact hr.sub (fun hw => List.flatMap_eq_nil_iff.mp hw x hx) fun he =>
      he.elements.mem _ (List.mem_map_of_mem hx)
  | @map Γ key value pairs _ _ _ hkt hvt ihk ihv =>
    intro ρ r v ha hr hv
    have hm : r.maps = true := by
      by_contra hm
      exact (hr.mapless (by simpa using hm)).self
    refine map_typed law hm hkt hvt (fun p hp u hu => ihk p hp ha ?_ hu)
      (fun p hp u hu => ihv p hp ha ?_ hu) hv
    · exact hr.sub (fun hw => left_nil (List.flatMap_eq_nil_iff.mp hw p hp)) fun he =>
        (every_entry he p hp).1
    · exact hr.sub (fun hw => right_nil (List.flatMap_eq_nil_iff.mp hw p hp)) fun he =>
        (every_entry he p hp).2
  | and => exact fun _ _ hv => logical_typed law .and hv
  | or => exact fun _ _ hv => logical_typed law .or hv
  | not => exact fun _ _ hv => not_typed law hv
  | conditional hc _ _ _ hu _ iha ihb =>
    intro ρ r v ha hr hv
    rcases (evaluate_conditional law).mp hv with ⟨hcond, hv⟩ | ⟨hcond, hv⟩
    · have hag := ha.guard fun h => hc.facts_hold law (hr.named h).args.head hcond
      exact (iha hag (hr.sub (fun hw => right_nil (left_nil hw)) fun he => he.args.tail.head)
        hv).unify (.inl hu)
    · have hag := ha.guard fun h => hc.facts_hold law (hr.named h).args.head hcond
      exact (ihb hag (hr.sub right_nil fun he => he.args.tail.tail.head) hv).unify (.inr hu)
  | equality hf => exact fun _ _ hv => test_typed law (by simp [isTestFunc, hf]) hv
  | ordering hf => exact fun _ _ hv => test_typed law (by simp [isTestFunc, hf]) hv
  | inList => exact fun _ _ hv => test_typed law rfl hv
  | inMap => exact fun _ _ hv => test_typed law rfl hv
  | size => exact fun _ _ hv => size_typed law hv
  | sizeOf => exact fun _ _ hv => sizeOf_typed law hv
  | textTest hf => exact fun _ _ hv => textTest_typed law hf hv
  | matching => exact fun _ _ hv => matching_typed law hv
  | conversion hf => exact fun _ _ hv => conversion_typed law hf hv
  | comprehension _ hp hx => exact fun _ _ hv => comprehension_typed law hp hx hv

end Soundness

end Scarab.PolicyRules
