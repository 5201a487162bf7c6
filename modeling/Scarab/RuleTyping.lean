import Scarab.RuleEvaluation

/-!
# The typing rules the checker decides

`Checks Γ e t c w`: in the scope `Γ` the rule node `e` has type `t` and cost `c` and draws the
warnings `w`. What the checker accepts is derivable.
-/
namespace Scarab.PolicyRules

open Scarab.Cel

/-- A child of a literal, with what the rules give it. -/
structure Item where
  expr : Expr
  ty : CelType
  cost : ℕ
  warnings : List Warning

/-- An entry of a map literal. -/
structure ItemPair where
  key : Item
  value : Item

def ItemPair.entry (p : ItemPair) : Expr × Expr × EntryKind := (p.key.expr, p.value.expr, .pair)

/-- The common type of a list of types. -/
def unifyAll : CelType → List CelType → Option CelType
  | t, [] => some t
  | t, u :: us => (unify t u).bind fun t => unifyAll t us

/-- An equality warns of no variable it reads itself. -/
def sideWarnings : Expr → List Warning → List Warning
  | .ident _, _ => []
  | _, w => w

/-- Types whose fields `has` tests. -/
def keyed : CelType → Bool
  | .struct _ => true
  | .map _ _ _ => true
  | _ => false

def conversionType (f : Func) : CelType := if f = .timestamp then .timestamp else .duration

/-- Two types one ordering compares. -/
def orders (ta tb : CelType) : Bool :=
  ordered ta && ordered tb && (ta = tb || ta = .dyn || tb = .dyn)

/-- Whether the expression is a `has()`. -/
def isTest : Expr → Bool
  | .select _ _ true => true
  | _ => false

/-- `e` in the scope `Γ` has a type and a cost, and draws warnings. -/
inductive Checks (host : Host) (s : Schema) :
    Scope → Expr → CelType → ℕ → List Warning → Prop
  | literal {Γ l} : l ≠ .double nan → Checks host s Γ (.literal l) (literalType l) 1 []
  | iterVar {Γ x t} : Γ.vars.lookup x = some t → Checks host s Γ (.ident x) t 1 []
  | topVar {Γ x var} : Γ.vars.lookup x = none → s.variable x = some var →
      Checks host s Γ (.ident x) var.ty 1
        (if var.optional && !Γ.guarded x then [.mayBeNull x] else [])
  | field {Γ o f name d decl c w} : Checks host s Γ o (.struct name) c w →
      s.structDecl name = some d → d.field f = some decl →
      Checks host s Γ (.select o f false) decl.ty (add [c, 1])
        (w ++ if decl.optional && !(pathOf (.select o f false)).any Γ.guarded then
          [.optionalField f] else [])
  | entry {Γ o f key value cap c w} : Checks host s Γ o (.map key value cap) c w →
      Checks host s Γ (.select o f false) value (add [c, 1]) w
  | has {Γ o f t c w} : Checks host s Γ o t c w → keyed t = true →
      Checks host s Γ (.select o f true) .bool (add [c, 1]) w
  | list {Γ elem} {items : List Item} :
      (∀ x ∈ items, Checks host s Γ x.expr x.ty x.cost x.warnings) →
      unifyAll .dyn (items.map Item.ty) = some elem →
      Checks host s Γ (.list (items.map Item.expr) []) (.list elem items.length)
        (items.foldl (fun c x => satAdd c x.cost) 1) (items.flatMap Item.warnings)
  | map {Γ key value} {pairs : List ItemPair} :
      (∀ p ∈ pairs, Checks host s Γ p.key.expr p.key.ty p.key.cost p.key.warnings) →
      (∀ p ∈ pairs, Checks host s Γ p.value.expr p.value.ty p.value.cost p.value.warnings) →
      (∀ p ∈ pairs, isKeyType p.key.ty = true) →
      unifyAll .dyn (pairs.map fun p => p.key.ty) = some key →
      unifyAll .dyn (pairs.map fun p => p.value.ty) = some value →
      Checks host s Γ (.map (pairs.map ItemPair.entry)) (.map key value pairs.length)
        (pairs.foldl (fun c p => add [c, p.key.cost, p.value.cost]) 1)
        (pairs.flatMap fun p => p.key.warnings ++ p.value.warnings)
  | and {Γ a b ta tb ca cb wa wb} : Checks host s Γ a ta ca wa → assignable .bool ta = true →
      Checks host s (Γ.guard (facts true a)) b tb cb wb → assignable .bool tb = true →
      Checks host s Γ (.call .and none [a, b]) .bool (add [ca, cb, 1]) (wa ++ wb)
  | or {Γ a b ta tb ca cb wa wb} : Checks host s Γ a ta ca wa → assignable .bool ta = true →
      Checks host s (Γ.guard (facts false a)) b tb cb wb → assignable .bool tb = true →
      Checks host s Γ (.call .or none [a, b]) .bool (add [ca, cb, 1]) (wa ++ wb)
  | not {Γ a t c w} : Checks host s Γ a t c w → assignable .bool t = true →
      Checks host s Γ (.call .not none [a]) .bool (add [c, 1]) w
  | conditional {Γ c a b tc ta tb t cc ca cb wc wa wb} : Checks host s Γ c tc cc wc →
      assignable .bool tc = true → Checks host s (Γ.guard (factsIfTrue c)) a ta ca wa →
      Checks host s (Γ.guard (factsIfFalse c)) b tb cb wb → unify ta tb = some t →
      Checks host s Γ (.call .conditional none [c, a, b]) t (add [cc, max ca cb, 1])
        (wc ++ wa ++ wb)
  | equality {Γ f a b ta tb ca cb wa wb} : isEquality f = true → Checks host s Γ a ta ca wa →
      Checks host s Γ b tb cb wb → (isNull b = true → isTest a = false) →
      (isNull a = true → isTest b = false) →
      Checks host s Γ (.call f none [a, b]) .bool (add [ca, cb, 1])
        (sideWarnings a wa ++ sideWarnings b wb)
  | ordering {Γ f a b ta tb ca cb wa wb} : isOrder f = true → Checks host s Γ a ta ca wa →
      Checks host s Γ b tb cb wb → orders ta tb = true →
      Checks host s Γ (.call f none [a, b]) .bool (add [ca, cb, 1]) (wa ++ wb)
  | inList {Γ a b ta elem cap ca cb wa wb} : Checks host s Γ a ta ca wa →
      Checks host s Γ b (.list elem cap) cb wb → composite ta = false →
      equatable ta elem = true →
      Checks host s Γ (.call .isIn none [a, b]) .bool (add [ca, cb, cap, 1]) (wa ++ wb)
  | inMap {Γ a b ta key value cap ca cb wa wb} : Checks host s Γ a ta ca wa →
      Checks host s Γ b (.map key value cap) cb wb → composite ta = false →
      equatable ta key = true →
      Checks host s Γ (.call .isIn none [a, b]) .bool (add [ca, cb, 1, 1]) (wa ++ wb)
  | size {Γ x t c w} : Checks host s Γ x t c w → isSized t = true →
      Checks host s Γ (.call .size none [x]) .int (add [c, 1]) w
  | sizeOf {Γ x t c w} : Checks host s Γ x t c w → isSized t = true →
      Checks host s Γ (.call .size (some x) []) .int (add [c, 1]) w
  | textTest {Γ f x y tx ty cx cy wx wy} : isTextTest f = true → Checks host s Γ x tx cx wx →
      Checks host s Γ y ty cy wy → isStringy tx = true → isStringy ty = true →
      Checks host s Γ (.call f (some x) [y]) .bool (add [cx, cy, 1]) (wx ++ wy)
  | matching {Γ x p t c w} : Checks host s Γ x t c w → isStringy t = true →
      (host.pattern p).toBool = true →
      Checks host s Γ (.call .matches (some x) [.literal (.string p)]) .bool (add [c, 2]) w
  | conversion {Γ f t} : isConversion f = true → probe host f t = true →
      Checks host s Γ (.call f none [.literal (.string t)]) (conversionType f) 1 []
  | comprehension {Γ range var init cond step result kind p elem cap rc wr tp cp wp} :
      MacroKind.of init = some kind → kind.predicate step = some p →
      host.cel.expand kind range var p = .comprehension range var none init cond step result →
      Checks host s Γ range (.list elem cap) rc wr →
      Checks host s (Γ.iterate var elem) p tp cp wp → assignable .bool tp = true →
      Checks host s Γ (.comprehension range var none init cond step result) .bool
        (add [rc, satMul cap (add [cp, 1])]) (wr ++ wp)

namespace Check

variable {α β : Type}

theorem bind_ok {x : Check α} {f : α → Check β} {r r' : Report} {b : β} :
    (x >>= f) r = .ok (b, r') ↔ ∃ a r₁, x r = .ok (a, r₁) ∧ f a r₁ = .ok (b, r') := by
  change (Except.bind (x r) fun p => f p.1 p.2) = _ ↔ _
  cases h : x r with
  | error e => simp [Except.bind]
  | ok p => simp [Except.bind, Prod.ext_iff]

theorem pure_ok {a b : α} {r r' : Report} :
    (pure a : Check α) r = .ok (b, r') ↔ a = b ∧ r = r' := by
  change Except.ok (a, r) = _ ↔ _
  simp

@[simp] theorem throw_ok {f : Finding} {a : α} {r r' : Report} :
    ¬ (throw f : Check α) r = .ok (a, r') := by
  change ¬ Except.error f = _
  simp

theorem warn_ok {w : Warning} {r r' : Report} :
    warn w r = .ok ((), r') ↔ r' = { r with warnings := r.warnings ++ [w] } := by
  change Except.ok ((), _) = _ ↔ _
  simp [eq_comm]

theorem get_ok {a r r' : Report} (h : (get : Check Report) r = .ok (a, r')) : r = a ∧ r = r' := by
  change Except.ok (r, r) = _ at h
  simpa using h

theorem demand_ok {p : Bool} {f : Finding} {r r' : Report} :
    demand p f r = .ok ((), r') ↔ p = true ∧ r = r' := by
  cases p
  · simp [demand]
  · simp [demand, pure_ok]

end Check

/-- What holds of the patterns of a report. -/
structure Report.Sound (host : Host) (r : Report) : Prop where
  compiled : ∀ p ∈ r.patterns, (host.pattern p).toBool = true
  seen : ∀ p, r.seen.get p = some none → (host.pattern p).toBool = true

/-- A check that leaves the report sound and adds the warnings `w`. -/
structure Report.Adds (host : Host) (r r' : Report) (w : List Warning) : Prop where
  sound : r'.Sound host
  warnings : r'.warnings = r.warnings ++ w

variable {host : Host} {s : Schema}

theorem Report.Adds.trans {r r₁ r₂ : Report} {w₁ w₂ : List Warning}
    (h₁ : Report.Adds host r r₁ w₁) (h₂ : Report.Adds host r₁ r₂ w₂) :
    Report.Adds host r r₂ (w₁ ++ w₂) :=
  ⟨h₂.sound, by rw [h₂.warnings, h₁.warnings, List.append_assoc]⟩

theorem Report.Adds.nil {r : Report} (h : r.Sound host) : Report.Adds host r r [] :=
  ⟨h, by simp⟩

theorem record_adds {path : Text} {r r' : Report} (hr : r.Sound host)
    (h : record path r = .ok ((), r')) : Report.Adds host r r' [] := by
  have he : r' = { r with reads := if path ∈ r.reads then r.reads else r.reads ++ [path] } := by
    change Except.ok ((), _) = _ at h
    simpa [eq_comm] using h
  subst he
  exact ⟨⟨hr.compiled, hr.seen⟩, by simp⟩

theorem warn_adds {w : Warning} {r r' : Report} (hr : r.Sound host)
    (h : warn w r = .ok ((), r')) : Report.Adds host r r' [w] := by
  obtain rfl := Check.warn_ok.mp h
  exact ⟨⟨hr.compiled, hr.seen⟩, rfl⟩

theorem warnIf_adds {b : Bool} {w : Warning} {r r' : Report} (hr : r.Sound host)
    (h : warnIf b w r = .ok ((), r')) :
    Report.Adds host r r' (if b then [w] else []) := by
  cases b
  · obtain ⟨-, rfl⟩ := Check.pure_ok.mp h
    exact .nil hr
  · exact warn_adds hr h

theorem readField_adds {Γ : Scope} {o : Expr} {f : Text} {r r' : Report} (hr : r.Sound host)
    (h : readField s Γ o f r = .ok ((), r')) : Report.Adds host r r' [] := by
  cases o with
  | ident name =>
    simp only [readField] at h
    split_ifs at h
    · exact record_adds hr h
    · obtain ⟨-, rfl⟩ := Check.pure_ok.mp h
      exact .nil hr
  | _ =>
    obtain ⟨-, rfl⟩ := Check.pure_ok.mp h
    exact .nil hr

theorem fieldDecl_ok {name f : Text} {decl : Field} {r r' : Report}
    (h : fieldDecl s name f r = .ok (decl, r')) :
    (∃ d, s.structDecl name = some d ∧ d.field f = some decl) ∧ r = r' := by
  simp only [fieldDecl] at h
  cases hd : s.structDecl name with
  | none =>
    rw [hd] at h
    exact absurd h Check.throw_ok
  | some d =>
    cases hf : d.field f with
    | none =>
      simp only [hd, hf] at h
      exact absurd h Check.throw_ok
    | some decl' =>
      simp only [hd, hf] at h
      obtain ⟨rfl, rfl⟩ := Check.pure_ok.mp h
      exact ⟨⟨d, rfl, hf⟩, rfl⟩

/-- What the parser leaves of a node: macros are their expansions, numbers are numbers. -/
def Read (host : Host) (n : Expr) : Prop := host.cel.Expanded n ∧ n ≠ .literal (.double nan)

theorem Checks.not_test {Γ : Scope} {e : Expr} {t : CelType} {c : ℕ} {w : List Warning}
    (h : Checks host s Γ e t c w) (ht : t ≠ .bool) : isTest e = false := by
  cases h <;> first | rfl | exact absurd rfl ht

theorem Checks.null_type {Γ : Scope} {e : Expr} {t : CelType} {c : ℕ} {w : List Warning}
    (h : Checks host s Γ e t c w) (hn : isNull e = true) : t = .null := by
  cases h with
  | @literal Γ l => cases l <;> first | rfl | simp [isNull] at hn
  | _ => simp [isNull] at hn

/-- A checker of the children of a node accepts only what the rules derive. -/
def Refines (host : Host) (s : Schema) (rec : Rec) : Prop :=
  ∀ ⦃Γ e t c r r'⦄, r.Sound host → Every (Read host) e → rec Γ e r = .ok ((t, c), r') →
    ∃ w, r.Adds host r' w ∧ Checks host s Γ e t c w

theorem identType_refines {Γ : Scope} {x : Text} {t : CelType} {c : ℕ} {r r' : Report}
    (hr : r.Sound host) (h : identType s Γ x r = .ok ((t, c), r')) :
    ∃ w, r.Adds host r' [] ∧ Checks host s Γ (.ident x) t c w := by
  simp only [identType] at h
  cases hl : Γ.vars.lookup x with
  | some t' =>
    rw [hl] at h
    obtain ⟨he, rfl⟩ := Check.pure_ok.mp h
    obtain ⟨rfl, rfl⟩ := Prod.mk.inj he
    exact ⟨_, .nil hr, .iterVar hl⟩
  | none =>
    cases hv : s.variable x with
    | none =>
      simp only [hl, hv] at h
      exact absurd h Check.throw_ok
    | some var =>
      simp only [hl, hv] at h
      obtain ⟨_, r₁, h₁, h⟩ := Check.bind_ok.mp h
      obtain ⟨he, rfl⟩ := Check.pure_ok.mp h
      obtain ⟨rfl, rfl⟩ := Prod.mk.inj he
      exact ⟨_, record_adds hr h₁, .topVar hl hv⟩

theorem ident_refines {Γ : Scope} {x : Text} {t : CelType} {c : ℕ} {r r' : Report}
    (hr : r.Sound host) (h : ident s Γ x r = .ok ((t, c), r')) :
    ∃ w, r.Adds host r' w ∧ Checks host s Γ (.ident x) t c w := by
  obtain ⟨_, r₁, h₁, h⟩ := Check.bind_ok.mp h
  have hw := warnIf_adds hr h₁
  simp only [identType] at h
  cases hl : Γ.vars.lookup x with
  | some t' =>
    rw [hl] at h
    obtain ⟨he, rfl⟩ := Check.pure_ok.mp h
    obtain ⟨rfl, rfl⟩ := Prod.mk.inj he
    simp only [Scope.shadowed, hl, Option.isSome_some, Bool.not_true, Bool.false_and,
      Bool.false_eq_true, if_false] at hw
    exact ⟨_, hw, .iterVar hl⟩
  | none =>
    cases hv : s.variable x with
    | none =>
      simp only [hl, hv] at h
      exact absurd h Check.throw_ok
    | some var =>
      simp only [hl, hv] at h
      obtain ⟨_, r₂, h₂, h⟩ := Check.bind_ok.mp h
      obtain ⟨he, rfl⟩ := Check.pure_ok.mp h
      obtain ⟨rfl, rfl⟩ := Prod.mk.inj he
      simp only [Scope.shadowed, hl, hv, Option.isSome_none, Bool.not_false, Bool.true_and,
        Option.any_some] at hw
      have ha := hw.trans (record_adds hw.sound h₂)
      rw [List.append_nil] at ha
      exact ⟨_, ha, .topVar hl hv⟩

section Helpers

variable {rec : Rec} {Γ : Scope} {t : CelType} {c : ℕ} {r r' : Report}

theorem select_refines (hrec : Refines host s rec) {o : Expr} {f : Text} (hr : r.Sound host)
    (hp : Every (Read host) (.select o f false)) (h : select s rec Γ o f r = .ok ((t, c), r')) :
    ∃ w, r.Adds host r' w ∧ Checks host s Γ (.select o f false) t c w := by
  obtain ⟨⟨ot, oc⟩, r₁, h₁, h⟩ := Check.bind_ok.mp h
  obtain ⟨w, ha, hc⟩ := hrec hr hp.operand h₁
  obtain ⟨_, r₂, h₂, h⟩ := Check.bind_ok.mp h
  have ha₂ := ha.trans (readField_adds ha.sound h₂)
  rw [List.append_nil] at ha₂
  cases ot with
  | struct name =>
    obtain ⟨decl, r₃, h₃, h⟩ := Check.bind_ok.mp h
    obtain ⟨⟨d, hd, hdecl⟩, rfl⟩ := fieldDecl_ok h₃
    obtain ⟨_, r₄, h₄, h⟩ := Check.bind_ok.mp h
    obtain ⟨he, rfl⟩ := Check.pure_ok.mp h
    obtain ⟨rfl, rfl⟩ := Prod.mk.inj he
    exact ⟨_, ha₂.trans (warnIf_adds ha₂.sound h₄), .field hc hd hdecl⟩
  | map key value cap =>
    obtain ⟨_, r₃, h₃, h⟩ := Check.bind_ok.mp h
    obtain ⟨-, rfl⟩ := Check.demand_ok.mp h₃
    obtain ⟨he, rfl⟩ := Check.pure_ok.mp h
    obtain ⟨rfl, rfl⟩ := Prod.mk.inj he
    exact ⟨_, ha₂, .entry hc⟩
  | _ => exact absurd h Check.throw_ok

theorem has_refines (hrec : Refines host s rec) {o : Expr} {f : Text} (hr : r.Sound host)
    (hp : Every (Read host) (.select o f true)) (h : has s rec Γ o f r = .ok ((t, c), r')) :
    ∃ w, r.Adds host r' w ∧ Checks host s Γ (.select o f true) t c w := by
  obtain ⟨⟨ot, oc⟩, r₁, h₁, h⟩ := Check.bind_ok.mp h
  obtain ⟨w, ha, hc⟩ := hrec hr hp.operand h₁
  obtain ⟨_, r₂, h₂, h⟩ := Check.bind_ok.mp h
  have ha₂ := ha.trans (readField_adds ha.sound h₂)
  rw [List.append_nil] at ha₂
  cases ot with
  | struct name =>
    obtain ⟨decl, r₃, h₃, h⟩ := Check.bind_ok.mp h
    obtain ⟨-, rfl⟩ := fieldDecl_ok h₃
    obtain ⟨he, rfl⟩ := Check.pure_ok.mp h
    obtain ⟨rfl, rfl⟩ := Prod.mk.inj he
    exact ⟨_, ha₂, .has hc rfl⟩
  | map key value cap =>
    obtain ⟨_, r₃, h₃, h⟩ := Check.bind_ok.mp h
    obtain ⟨-, rfl⟩ := Check.demand_ok.mp h₃
    obtain ⟨he, rfl⟩ := Check.pure_ok.mp h
    obtain ⟨rfl, rfl⟩ := Prod.mk.inj he
    exact ⟨_, ha₂, .has hc rfl⟩
  | _ => exact absurd h Check.throw_ok

theorem elements_refines (hrec : Refines host s rec) {es : List Expr} :
    ∀ {elem elem' : CelType} {cost cost' : ℕ} {r : Report}, r.Sound host → EveryOf (Read host) es →
      elements rec Γ es elem cost r = .ok ((elem', cost'), r') →
      ∃ items : List Item, items.map Item.expr = es ∧
        (∀ x ∈ items, Checks host s Γ x.expr x.ty x.cost x.warnings) ∧
        unifyAll elem (items.map Item.ty) = some elem' ∧
        items.foldl (fun c x => satAdd c x.cost) cost = cost' ∧
        r.Adds host r' (items.flatMap Item.warnings) := by
  induction es with
  | nil =>
    intro elem elem' cost cost' r hr _ h
    obtain ⟨he, rfl⟩ := Check.pure_ok.mp h
    obtain ⟨rfl, rfl⟩ := Prod.mk.inj he
    exact ⟨[], rfl, by simp, rfl, rfl, .nil hr⟩
  | cons e es ih =>
    intro elem elem' cost cost' r hr hp h
    obtain ⟨⟨te, ce⟩, r₁, h₁, h⟩ := Check.bind_ok.mp h
    obtain ⟨w, ha, hc⟩ := hrec hr hp.head h₁
    cases hu : unify elem te with
    | none =>
      simp only [hu] at h
      exact absurd h Check.throw_ok
    | some elem₁ =>
      simp only [hu] at h
      obtain ⟨items, hes, hitems, ht, hcost, hw⟩ := ih ha.sound hp.tail h
      refine ⟨⟨e, te, ce, w⟩ :: items, by simp [hes], ?_, ?_, hcost, ?_⟩
      · intro x hx
        rcases List.mem_cons.mp hx with rfl | hx
        · exact hc
        · exact hitems x hx
      · simpa [unifyAll, hu] using ht
      · simpa using ha.trans hw

theorem entries_refines (hrec : Refines host s rec) {es : List (Expr × Expr × EntryKind)} :
    ∀ {key key' value value' : CelType} {cost cost' : ℕ} {r : Report}, r.Sound host →
      (∀ n ∈ nodesEntries es, Read host n) →
      entries rec Γ es key value cost r = .ok ((key', value', cost'), r') →
      ∃ pairs : List ItemPair, pairs.map ItemPair.entry = es ∧
        (∀ p ∈ pairs, Checks host s Γ p.key.expr p.key.ty p.key.cost p.key.warnings) ∧
        (∀ p ∈ pairs, Checks host s Γ p.value.expr p.value.ty p.value.cost p.value.warnings) ∧
        (∀ p ∈ pairs, isKeyType p.key.ty = true) ∧
        unifyAll key (pairs.map fun p => p.key.ty) = some key' ∧
        unifyAll value (pairs.map fun p => p.value.ty) = some value' ∧
        pairs.foldl (fun c p => add [c, p.key.cost, p.value.cost]) cost = cost' ∧
        r.Adds host r' (pairs.flatMap fun p => p.key.warnings ++ p.value.warnings) := by
  induction es with
  | nil =>
    intro key key' value value' cost cost' r hr _ h
    obtain ⟨he, rfl⟩ := Check.pure_ok.mp h
    simp only [Prod.mk.injEq] at he
    obtain ⟨rfl, rfl, rfl⟩ := he
    exact ⟨[], rfl, by simp, by simp, by simp, rfl, rfl, rfl, .nil hr⟩
  | cons e es ih =>
    intro key key' value value' cost cost' r hr hp h
    obtain ⟨ke, ve, kind⟩ := e
    have hpk : Every (Read host) ke := fun n hn => hp n (by simp [nodesEntries, hn])
    have hpv : Every (Read host) ve := fun n hn => hp n (by simp [nodesEntries, hn])
    have hps : ∀ n ∈ nodesEntries es, Read host n := fun n hn => hp n (by simp [nodesEntries, hn])
    obtain ⟨_, r₁, h₁, h⟩ := Check.bind_ok.mp h
    obtain ⟨hfield, rfl⟩ := Check.demand_ok.mp h₁
    obtain ⟨_, r₂, h₂, h⟩ := Check.bind_ok.mp h
    obtain ⟨hoptional, rfl⟩ := Check.demand_ok.mp h₂
    have hkind : kind = .pair := by cases kind <;> simp_all
    obtain ⟨⟨tk, ck⟩, r₃, h₃, h⟩ := Check.bind_ok.mp h
    obtain ⟨wk, hak, hck⟩ := hrec hr hpk h₃
    obtain ⟨_, r₄, h₄, h⟩ := Check.bind_ok.mp h
    obtain ⟨hkey, rfl⟩ := Check.demand_ok.mp h₄
    obtain ⟨⟨tv, cv⟩, r₅, h₅, h⟩ := Check.bind_ok.mp h
    obtain ⟨wv, hav, hcv⟩ := hrec hak.sound hpv h₅
    cases huk : unify key tk with
    | none =>
      simp only [huk] at h
      exact absurd h Check.throw_ok
    | some key₁ =>
      cases huv : unify value tv with
      | none =>
        simp only [huk, huv] at h
        exact absurd h Check.throw_ok
      | some value₁ =>
        simp only [huk, huv] at h
        obtain ⟨pairs, hes, hks, hvs, htys, hk, hv, hcost, hw⟩ := ih hav.sound hps h
        refine ⟨⟨⟨ke, tk, ck, wk⟩, ⟨ve, tv, cv, wv⟩⟩ :: pairs,
          by simp [hes, ItemPair.entry, hkind], ?_, ?_, ?_, ?_, ?_, hcost, ?_⟩
        · intro p hp
          rcases List.mem_cons.mp hp with rfl | hp
          · exact hck
          · exact hks p hp
        · intro p hp
          rcases List.mem_cons.mp hp with rfl | hp
          · exact hcv
          · exact hvs p hp
        · intro p hp
          rcases List.mem_cons.mp hp with rfl | hp
          · exact hkey
          · exact htys p hp
        · simpa [unifyAll, huk] using hk
        · simpa [unifyAll, huv] using hv
        · simpa using (hak.trans hav).trans hw

theorem expect_ok {t t' : CelType} (h : expect t t' r = .ok ((), r')) :
    assignable t' t = true ∧ r = r' :=
  Check.demand_ok.mp h

theorem logical_refines (hrec : Refines host s rec) {op : Logic} {a b : Expr}
    (hr : r.Sound host) (ha : Every (Read host) a) (hb : Every (Read host) b)
    (h : logical rec Γ op a b r = .ok ((t, c), r')) :
    ∃ w ta tb ca cb wa wb, r.Adds host r' w ∧ w = wa ++ wb ∧ t = .bool ∧ c = add [ca, cb, 1] ∧
      Checks host s Γ a ta ca wa ∧ assignable .bool ta = true ∧
      Checks host s (Γ.guard (facts (!op.decides) a)) b tb cb wb ∧ assignable .bool tb = true := by
  obtain ⟨⟨ta, ca⟩, r₁, h₁, h⟩ := Check.bind_ok.mp h
  obtain ⟨wa, haa, hca⟩ := hrec hr ha h₁
  obtain ⟨_, r₂, h₂, h⟩ := Check.bind_ok.mp h
  obtain ⟨hta, rfl⟩ := expect_ok h₂
  obtain ⟨⟨tb, cb⟩, r₃, h₃, h⟩ := Check.bind_ok.mp h
  obtain ⟨wb, hab, hcb⟩ := hrec haa.sound hb h₃
  obtain ⟨_, r₄, h₄, h⟩ := Check.bind_ok.mp h
  obtain ⟨htb, rfl⟩ := expect_ok h₄
  obtain ⟨he, rfl⟩ := Check.pure_ok.mp h
  obtain ⟨rfl, rfl⟩ := Prod.mk.inj he
  exact ⟨_, ta, tb, ca, cb, wa, wb, haa.trans hab, rfl, rfl, rfl, hca, hta, hcb, htb⟩

theorem negation_refines (hrec : Refines host s rec) {a : Expr} (hr : r.Sound host)
    (ha : Every (Read host) a) (h : negation rec Γ a r = .ok ((t, c), r')) :
    ∃ w, r.Adds host r' w ∧ Checks host s Γ (.call .not none [a]) t c w := by
  obtain ⟨⟨ta, ca⟩, r₁, h₁, h⟩ := Check.bind_ok.mp h
  obtain ⟨wa, haa, hca⟩ := hrec hr ha h₁
  obtain ⟨_, r₂, h₂, h⟩ := Check.bind_ok.mp h
  obtain ⟨hta, rfl⟩ := expect_ok h₂
  obtain ⟨he, rfl⟩ := Check.pure_ok.mp h
  obtain ⟨rfl, rfl⟩ := Prod.mk.inj he
  exact ⟨wa, haa, .not hca hta⟩

theorem conditional_refines (hrec : Refines host s rec) {cond a b : Expr} (hr : r.Sound host)
    (hcond : Every (Read host) cond) (ha : Every (Read host) a) (hb : Every (Read host) b)
    (h : conditional rec Γ cond a b r = .ok ((t, c), r')) :
    ∃ w, r.Adds host r' w ∧ Checks host s Γ (.call .conditional none [cond, a, b]) t c w := by
  obtain ⟨⟨tc, cc⟩, r₁, h₁, h⟩ := Check.bind_ok.mp h
  obtain ⟨wc, hac, hcc⟩ := hrec hr hcond h₁
  obtain ⟨_, r₂, h₂, h⟩ := Check.bind_ok.mp h
  obtain ⟨htc, rfl⟩ := expect_ok h₂
  obtain ⟨⟨ta, ca⟩, r₃, h₃, h⟩ := Check.bind_ok.mp h
  obtain ⟨wa, haa, hca⟩ := hrec hac.sound ha h₃
  obtain ⟨⟨tb, cb⟩, r₄, h₄, h⟩ := Check.bind_ok.mp h
  obtain ⟨wb, hab, hcb⟩ := hrec haa.sound hb h₄
  cases hu : unify ta tb with
  | none =>
    simp only [hu] at h
    exact absurd h Check.throw_ok
  | some tu =>
    simp only [hu] at h
    obtain ⟨he, rfl⟩ := Check.pure_ok.mp h
    obtain ⟨rfl, rfl⟩ := Prod.mk.inj he
    exact ⟨_, (hac.trans haa).trans hab, .conditional hcc htc hca hcb hu⟩

/-- A side of an equality, and the warnings it adds. -/
theorem equalitySide_refines (hrec : Refines host s rec) {e : Expr} (hr : r.Sound host)
    (he : Every (Read host) e) (h : equalitySide s rec Γ e r = .ok ((t, c), r')) :
    ∃ w, r.Adds host r' (sideWarnings e w) ∧ Checks host s Γ e t c w := by
  cases e with
  | ident x =>
    obtain ⟨w, ha, hc⟩ := identType_refines hr h
    exact ⟨w, ha, hc⟩
  | _ => exact hrec hr he h

/-- The comparisons with declared values leave the report as it is. -/
theorem enumSide_ok {t : CelType} {e : Expr} (h : enumSide s t e r = .ok ((), r')) : r = r' := by
  cases t with
  | enum name =>
    cases e with
    | literal l =>
      cases l with
      | string x =>
        simp only [enumSide, enumLiteral] at h
        cases hd : s.enumDecl name with
        | none =>
          rw [hd] at h
          exact absurd h Check.throw_ok
        | some d =>
          rw [hd] at h
          exact (Check.demand_ok.mp h).2
      | _ => exact (Check.pure_ok.mp h).2
    | _ => exact (Check.pure_ok.mp h).2
  | _ => exact (Check.pure_ok.mp h).2

theorem enumLiterals_ok {t : CelType} {e : Expr} (h : enumLiterals s t e r = .ok ((), r')) :
    r = r' := by
  cases e with
  | list items optionals =>
    simp only [enumLiterals] at h
    induction items generalizing r with
    | nil => exact (Check.pure_ok.mp h).2
    | cons x xs ih =>
      obtain ⟨_, r₁, h₁, h⟩ := Check.bind_ok.mp h
      obtain rfl := enumSide_ok h₁
      exact ih h
  | _ => exact (Check.pure_ok.mp h).2

/-- Only a variable is compared with null, unless both sides are null. -/
theorem checkEquatable_ok {a b : Expr} {ta tb : CelType}
    (h : checkEquatable s a ta b tb r = .ok ((), r')) :
    r = r' ∧ (tb = .null → ta ≠ .null → isTest a = false) ∧
      (ta = .null → tb ≠ .null → isTest b = false) := by
  have hvar : ∀ e : Expr, isOptionalVar s e = true → isTest e = false := by
    intro e he
    cases e with
    | ident x => rfl
    | _ => simp [isOptionalVar] at he
  unfold checkEquatable at h
  split_ifs at h with h₁ h₂
  · obtain ⟨ho, rfl⟩ := Check.demand_ok.mp h
    exact ⟨rfl, fun _ _ => hvar a ho, fun he => absurd he h₁.2⟩
  · obtain ⟨ho, rfl⟩ := Check.demand_ok.mp h
    exact ⟨rfl, fun he => absurd he h₂.2, fun _ _ => hvar b ho⟩
  · refine ⟨?_, fun he hne => absurd ⟨he, hne⟩ h₁, fun he hne => absurd ⟨he, hne⟩ h₂⟩
    obtain ⟨_, r₁, h₁, h⟩ := Check.bind_ok.mp h
    obtain ⟨-, rfl⟩ := Check.demand_ok.mp h₁
    obtain ⟨_, r₂, h₂, h⟩ := Check.bind_ok.mp h
    obtain ⟨-, rfl⟩ := Check.demand_ok.mp h₂
    obtain ⟨_, r₃, h₃, h⟩ := Check.bind_ok.mp h
    obtain ⟨-, rfl⟩ := Check.demand_ok.mp h₃
    obtain ⟨_, r₄, h₄, h⟩ := Check.bind_ok.mp h
    obtain rfl := enumSide_ok h₄
    exact enumSide_ok h

theorem equality_refines (hrec : Refines host s rec) {f : Func} (hf : isEquality f = true)
    {a b : Expr} (hr : r.Sound host) (ha : Every (Read host) a) (hb : Every (Read host) b)
    (h : equality s rec Γ a b r = .ok ((t, c), r')) :
    ∃ w, r.Adds host r' w ∧ Checks host s Γ (.call f none [a, b]) t c w := by
  obtain ⟨⟨ta, ca⟩, r₁, h₁, h⟩ := Check.bind_ok.mp h
  obtain ⟨wa, haa, hca⟩ := equalitySide_refines hrec hr ha h₁
  obtain ⟨⟨tb, cb⟩, r₂, h₂, h⟩ := Check.bind_ok.mp h
  obtain ⟨wb, hab, hcb⟩ := equalitySide_refines hrec haa.sound hb h₂
  obtain ⟨_, r₃, h₃, h⟩ := Check.bind_ok.mp h
  obtain ⟨rfl, hna, hnb⟩ := checkEquatable_ok h₃
  obtain ⟨he, rfl⟩ := Check.pure_ok.mp h
  obtain ⟨rfl, rfl⟩ := Prod.mk.inj he
  refine ⟨_, haa.trans hab, .equality hf hca hcb (fun hb => ?_) fun ha => ?_⟩
  · by_cases hta : ta = .null
    · exact hca.not_test (by simp [hta])
    · exact hna (hcb.null_type hb) hta
  · by_cases htb : tb = .null
    · exact hcb.not_test (by simp [htb])
    · exact hnb (hca.null_type ha) htb

theorem ordering_refines (hrec : Refines host s rec) {f : Func} (hf : isOrder f = true)
    {a b : Expr} (hr : r.Sound host) (ha : Every (Read host) a) (hb : Every (Read host) b)
    (h : ordering rec Γ a b r = .ok ((t, c), r')) :
    ∃ w, r.Adds host r' w ∧ Checks host s Γ (.call f none [a, b]) t c w := by
  obtain ⟨⟨ta, ca⟩, r₁, h₁, h⟩ := Check.bind_ok.mp h
  obtain ⟨wa, haa, hca⟩ := hrec hr ha h₁
  obtain ⟨⟨tb, cb⟩, r₂, h₂, h⟩ := Check.bind_ok.mp h
  obtain ⟨wb, hab, hcb⟩ := hrec haa.sound hb h₂
  obtain ⟨_, r₃, h₃, h⟩ := Check.bind_ok.mp h
  obtain ⟨ho, rfl⟩ := Check.demand_ok.mp h₃
  obtain ⟨he, rfl⟩ := Check.pure_ok.mp h
  obtain ⟨rfl, rfl⟩ := Prod.mk.inj he
  exact ⟨_, haa.trans hab, .ordering hf hca hcb ho⟩

theorem membership_refines (hrec : Refines host s rec) {a b : Expr} (hr : r.Sound host)
    (ha : Every (Read host) a) (hb : Every (Read host) b) (h : membership s rec Γ a b r = .ok ((t, c), r')) :
    ∃ w, r.Adds host r' w ∧ Checks host s Γ (.call .isIn none [a, b]) t c w := by
  obtain ⟨⟨ta, ca⟩, r₁, h₁, h⟩ := Check.bind_ok.mp h
  obtain ⟨wa, haa, hca⟩ := hrec hr ha h₁
  obtain ⟨⟨tb, cb⟩, r₂, h₂, h⟩ := Check.bind_ok.mp h
  obtain ⟨wb, hab, hcb⟩ := hrec haa.sound hb h₂
  obtain ⟨⟨elem, cap⟩, r₃, h₃, h⟩ := Check.bind_ok.mp h
  obtain ⟨_, r₄, h₄, h⟩ := Check.bind_ok.mp h
  obtain ⟨hcomp, rfl⟩ := Check.demand_ok.mp h₄
  obtain ⟨_, r₅, h₅, h⟩ := Check.bind_ok.mp h
  obtain ⟨heq, rfl⟩ := Check.demand_ok.mp h₅
  obtain ⟨_, r₆, h₆, h⟩ := Check.bind_ok.mp h
  obtain rfl := enumLiterals_ok h₆
  obtain ⟨he, rfl⟩ := Check.pure_ok.mp h
  obtain ⟨rfl, rfl⟩ := Prod.mk.inj he
  simp only [Bool.not_eq_true'] at hcomp
  cases tb with
  | list elem' cap' =>
    obtain ⟨he, rfl⟩ := Check.pure_ok.mp h₃
    obtain ⟨rfl, rfl⟩ := Prod.mk.inj he
    exact ⟨_, haa.trans hab, .inList hca hcb hcomp heq⟩
  | map key value cap' =>
    obtain ⟨he, rfl⟩ := Check.pure_ok.mp h₃
    obtain ⟨rfl, rfl⟩ := Prod.mk.inj he
    exact ⟨_, haa.trans hab, .inMap hca hcb hcomp heq⟩
  | _ => exact absurd h₃ Check.throw_ok

theorem sizeCall_refines (hrec : Refines host s rec) {x : Expr} (hr : r.Sound host)
    (hx : Every (Read host) x) (h : sizeCall rec Γ x r = .ok ((t, c), r')) :
    ∃ w tx cx, r.Adds host r' w ∧ t = .int ∧ c = add [cx, 1] ∧ Checks host s Γ x tx cx w ∧
      isSized tx = true := by
  obtain ⟨⟨tx, cx⟩, r₁, h₁, h⟩ := Check.bind_ok.mp h
  obtain ⟨w, ha, hc⟩ := hrec hr hx h₁
  obtain ⟨_, r₂, h₂, h⟩ := Check.bind_ok.mp h
  obtain ⟨ht, rfl⟩ := Check.demand_ok.mp h₂
  obtain ⟨he, rfl⟩ := Check.pure_ok.mp h
  obtain ⟨rfl, rfl⟩ := Prod.mk.inj he
  exact ⟨w, tx, cx, ha, rfl, rfl, hc, ht⟩

theorem stringTest_refines (hrec : Refines host s rec) {f : Func} (hf : isTextTest f = true)
    {x y : Expr} (hr : r.Sound host) (hx : Every (Read host) x) (hy : Every (Read host) y)
    (h : stringTest rec Γ f x y r = .ok ((t, c), r')) :
    ∃ w, r.Adds host r' w ∧ Checks host s Γ (.call f (some x) [y]) t c w := by
  obtain ⟨⟨tx, cx⟩, r₁, h₁, h⟩ := Check.bind_ok.mp h
  obtain ⟨wx, hax, hcx⟩ := hrec hr hx h₁
  obtain ⟨⟨ty, cy⟩, r₂, h₂, h⟩ := Check.bind_ok.mp h
  obtain ⟨wy, hay, hcy⟩ := hrec hax.sound hy h₂
  obtain ⟨_, r₃, h₃, h⟩ := Check.bind_ok.mp h
  obtain ⟨hs, rfl⟩ := Check.demand_ok.mp h₃
  obtain ⟨he, rfl⟩ := Check.pure_ok.mp h
  obtain ⟨rfl, rfl⟩ := Prod.mk.inj he
  obtain ⟨htx, hty⟩ := (Bool.and_eq_true _ _).mp hs
  exact ⟨_, hax.trans hay, .textTest hf hcx hcy htx hty⟩

theorem compiledPattern_ok {p : Text} {e : Option Text} (hr : r.Sound host)
    (h : compiledPattern host p r = .ok (e, r')) :
    r.Adds host r' [] ∧ r'.patterns = r.patterns ∧
      (e = none → (host.pattern p).toBool = true) := by
  obtain ⟨r₀, r₁, h₁, h⟩ := Check.bind_ok.mp h
  obtain ⟨rfl, rfl⟩ := Check.get_ok h₁
  cases hs : r.seen.get p with
  | some compiled =>
    simp only [hs] at h
    obtain ⟨rfl, rfl⟩ := Check.pure_ok.mp h
    exact ⟨.nil hr, rfl, fun he => hr.seen p (he ▸ hs)⟩
  | none =>
    simp only [hs] at h
    obtain ⟨_, r₂, h₂, h⟩ := Check.bind_ok.mp h
    obtain ⟨-, rfl⟩ := Check.demand_ok.mp h₂
    obtain ⟨_, r₃, h₃, h⟩ := Check.bind_ok.mp h
    obtain ⟨rfl, rfl⟩ := Check.pure_ok.mp h
    have hcomp : patternError host p = none → (host.pattern p).toBool = true := by
      unfold patternError
      cases host.pattern p <;> simp [Except.toBool]
    obtain rfl : r₃ = { r with seen := r.seen.insert p (patternError host p) } := by
      change Except.ok ((), _) = _ at h₃
      simpa [eq_comm] using h₃
    refine ⟨⟨⟨hr.compiled, fun q hq => ?_⟩, by simp⟩, rfl, hcomp⟩
    rw [SortedMap.get_insert] at hq
    split_ifs at hq with he
    · subst he
      exact hcomp (Option.some.inj hq)
    · exact hr.seen q hq

theorem usePattern_ok {p : Text} (hr : r.Sound host) (h : usePattern host p r = .ok ((), r')) :
    r.Adds host r' [] ∧ (host.pattern p).toBool = true := by
  obtain ⟨r₀, r₁, h₁, h⟩ := Check.bind_ok.mp h
  obtain ⟨rfl, rfl⟩ := Check.get_ok h₁
  split_ifs at h with hp
  · obtain ⟨-, rfl⟩ := Check.pure_ok.mp h
    exact ⟨.nil hr, hr.compiled p hp⟩
  · obtain ⟨_, r₂, h₂, h⟩ := Check.bind_ok.mp h
    obtain ⟨-, rfl⟩ := Check.demand_ok.mp h₂
    obtain ⟨e, r₃, h₃, h⟩ := Check.bind_ok.mp h
    obtain ⟨ha, hpat, hcomp⟩ := compiledPattern_ok hr h₃
    cases e with
    | some err => exact absurd h Check.throw_ok
    | none =>
      have hc := hcomp rfl
      obtain rfl : r' = { r₃ with patterns := r₃.patterns ++ [p] } := by
        change Except.ok ((), _) = _ at h
        simpa [eq_comm] using h
      refine ⟨⟨⟨fun q hq => ?_, ha.sound.seen⟩, ha.warnings⟩, hc⟩
      rcases List.mem_append.mp hq with hq | hq
      · exact ha.sound.compiled q hq
      · obtain rfl := List.mem_singleton.mp hq
        exact hc

theorem matching_refines (hrec : Refines host s rec) {x p : Expr} (hr : r.Sound host)
    (hx : Every (Read host) x) (h : matching host rec Γ x p r = .ok ((t, c), r')) :
    ∃ w, r.Adds host r' w ∧ Checks host s Γ (.call .matches (some x) [p]) t c w := by
  obtain ⟨⟨tx, cx⟩, r₁, h₁, h⟩ := Check.bind_ok.mp h
  obtain ⟨w, ha, hc⟩ := hrec hr hx h₁
  obtain ⟨_, r₂, h₂, h⟩ := Check.bind_ok.mp h
  obtain ⟨ht, rfl⟩ := Check.demand_ok.mp h₂
  cases p with
  | literal l =>
    cases l with
    | string q =>
      obtain ⟨_, r₃, h₃, h⟩ := Check.bind_ok.mp h
      obtain ⟨haq, hq⟩ := usePattern_ok ha.sound h₃
      obtain ⟨he, rfl⟩ := Check.pure_ok.mp h
      obtain ⟨rfl, rfl⟩ := Prod.mk.inj he
      have hall := ha.trans haq
      rw [List.append_nil] at hall
      exact ⟨w, hall, .matching hc ht hq⟩
    | _ => exact absurd h Check.throw_ok
  | _ => exact absurd h Check.throw_ok

theorem conversion_refines {f : Func} (hf : isConversion f = true) {arg : Expr}
    (hr : r.Sound host) (h : conversion host f arg r = .ok ((t, c), r')) :
    ∃ w, r.Adds host r' w ∧ Checks host s Γ (.call f none [arg]) t c w := by
  cases arg with
  | literal l =>
    cases l with
    | string q =>
      obtain ⟨_, r₁, h₁, h⟩ := Check.bind_ok.mp h
      obtain ⟨hp, rfl⟩ := Check.demand_ok.mp h₁
      obtain ⟨he, rfl⟩ := Check.pure_ok.mp h
      obtain ⟨rfl, rfl⟩ := Prod.mk.inj he
      exact ⟨[], .nil hr, .conversion hf hp⟩
    | _ => exact absurd h Check.throw_ok
  | _ => exact absurd h Check.throw_ok

theorem call_refines (hrec : Refines host s rec) {f : Func} {target : Option Expr}
    {args : List Expr} (hr : r.Sound host) (hp : Every (Read host) (.call f target args))
    (h : call host s rec Γ f target args r = .ok ((t, c), r')) :
    ∃ w, r.Adds host r' w ∧ Checks host s Γ (.call f target args) t c w := by
  unfold call at h
  split at h
  · obtain ⟨w, ta, tb, ca, cb, wa, wb, ha, rfl, rfl, rfl, hca, hta, hcb, htb⟩ :=
      logical_refines hrec hr hp.args.head hp.args.tail.head h
    exact ⟨_, ha, .and hca hta hcb htb⟩
  · obtain ⟨w, ta, tb, ca, cb, wa, wb, ha, rfl, rfl, rfl, hca, hta, hcb, htb⟩ :=
      logical_refines hrec hr hp.args.head hp.args.tail.head h
    exact ⟨_, ha, .or hca hta hcb htb⟩
  · exact negation_refines hrec hr hp.args.head h
  · exact conditional_refines hrec hr hp.args.head hp.args.tail.head hp.args.tail.tail.head h
  · exact equality_refines hrec rfl hr hp.args.head hp.args.tail.head h
  · exact equality_refines hrec rfl hr hp.args.head hp.args.tail.head h
  · exact ordering_refines hrec rfl hr hp.args.head hp.args.tail.head h
  · exact ordering_refines hrec rfl hr hp.args.head hp.args.tail.head h
  · exact ordering_refines hrec rfl hr hp.args.head hp.args.tail.head h
  · exact ordering_refines hrec rfl hr hp.args.head hp.args.tail.head h
  · exact membership_refines hrec hr hp.args.head hp.args.tail.head h
  · obtain ⟨w, tx, cx, ha, rfl, rfl, hc, ht⟩ := sizeCall_refines hrec hr hp.args.head h
    exact ⟨w, ha, .size hc ht⟩
  · obtain ⟨w, tx, cx, ha, rfl, rfl, hc, ht⟩ := sizeCall_refines hrec hr hp.target h
    exact ⟨w, ha, .sizeOf hc ht⟩
  · exact stringTest_refines hrec rfl hr hp.target hp.args.head h
  · exact stringTest_refines hrec rfl hr hp.target hp.args.head h
  · exact stringTest_refines hrec rfl hr hp.target hp.args.head h
  · exact matching_refines hrec hr hp.target h
  · exact conversion_refines rfl hr h
  · exact conversion_refines rfl hr h
  · exact absurd h Check.throw_ok

theorem comprehension_refines (hrec : Refines host s rec)
    {range init cond step result : Expr} {var : Text} {var2 : Option Text} (hr : r.Sound host)
    (hp : Every (Read host) (.comprehension range var var2 init cond step result))
    (h : comprehension rec Γ range var var2 init step r = .ok ((t, c), r')) :
    ∃ w, r.Adds host r' w ∧
      Checks host s Γ (.comprehension range var var2 init cond step result) t c w := by
  unfold comprehension at h
  cases hk : MacroKind.of init with
  | none =>
    simp only [hk] at h
    exact absurd h Check.throw_ok
  | some kind =>
    cases var2 with
    | some v2 =>
      simp only [hk] at h
      exact absurd h Check.throw_ok
    | none =>
      cases hpred : kind.predicate step with
      | none =>
        simp only [hk, hpred] at h
        exact absurd h Check.throw_ok
      | some p =>
        simp only [hk, hpred] at h
        obtain ⟨⟨tr, rc⟩, r₁, h₁, h⟩ := Check.bind_ok.mp h
        obtain ⟨wr, har, hcr⟩ := hrec hr hp.range h₁
        cases tr with
        | list elem cap =>
          obtain ⟨⟨tp, cp⟩, r₂, h₂, h⟩ := Check.bind_ok.mp h
          obtain ⟨wp, hap, hcp⟩ := hrec har.sound (hp.predicate hpred) h₂
          obtain ⟨_, r₃, h₃, h⟩ := Check.bind_ok.mp h
          obtain ⟨htp, rfl⟩ := expect_ok h₃
          obtain ⟨he, rfl⟩ := Check.pure_ok.mp h
          obtain ⟨rfl, rfl⟩ := Prod.mk.inj he
          exact ⟨_, har.trans hap, .comprehension hk hpred (hp.self.1 kind p hk hpred) hcr hcp htp⟩
        | _ => exact absurd h Check.throw_ok

theorem exprInner_refines (hrec : Refines host s rec) : Refines host s (exprInner host s rec) := by
  intro Γ e t c r r' hr hp h
  cases e with
  | literal l =>
    obtain ⟨he, rfl⟩ := Check.pure_ok.mp h
    obtain ⟨rfl, rfl⟩ := Prod.mk.inj he
    exact ⟨[], .nil hr, .literal fun hl => hp.self.2 (hl ▸ rfl)⟩
  | ident x => exact ident_refines hr h
  | select o f test =>
    cases test with
    | true => exact has_refines hrec hr hp h
    | false => exact select_refines hrec hr hp h
  | call f target args => exact call_refines hrec hr hp h
  | list es optionals =>
    obtain ⟨_, r₁, h₁, h⟩ := Check.bind_ok.mp h
    obtain ⟨hempty, rfl⟩ := Check.demand_ok.mp h₁
    have hnone : optionals = [] := List.isEmpty_iff.mp hempty
    obtain ⟨⟨elem, cost⟩, r₂, h₂, h⟩ := Check.bind_ok.mp h
    obtain ⟨items, rfl, hitems, ht, rfl, ha⟩ := elements_refines hrec hr hp.elements h₂
    obtain ⟨he, rfl⟩ := Check.pure_ok.mp h
    obtain ⟨rfl, rfl⟩ := Prod.mk.inj he
    rw [List.length_map, hnone]
    exact ⟨_, ha, .list hitems ht⟩
  | map es =>
    obtain ⟨⟨key, value, cost⟩, r₁, h₁, h⟩ := Check.bind_ok.mp h
    obtain ⟨pairs, rfl, hks, hvs, htys, hk, hv, rfl, ha⟩ :=
      entries_refines hrec hr (fun n hn => hp n (by simp [nodes, hn])) h₁
    obtain ⟨he, rfl⟩ := Check.pure_ok.mp h
    obtain ⟨rfl, rfl⟩ := Prod.mk.inj he
    rw [List.length_map]
    exact ⟨_, ha, .map hks hvs htys hk hv⟩
  | comprehension range var var2 init cond step result => exact comprehension_refines hrec hr hp h
  | struct name => exact absurd h Check.throw_ok
  | unspecified => exact absurd h Check.throw_ok

end Helpers

theorem expr_refines (depth : ℕ) : Refines host s (expr host s depth) := by
  induction depth with
  | zero => exact fun _ _ _ _ _ _ _ _ h => absurd h Check.throw_ok
  | succ depth ih => exact exprInner_refines ih

/-- A checked rule is derivable, with the cost and the warnings it was accepted with. -/
theorem check_refines (law : Lawful host) {source : Text} {expected : CelType} {k : Checked}
    (h : check host s source expected = .ok k) :
    ∃ e, checkLimits source = .ok () ∧ host.cel.compile source = some e ∧
      Checks host s ⟨[], []⟩ e k.result k.cost k.warnings ∧
      assignable expected k.result = true ∧ k.cost ≤ maxCost := by
  unfold check checkIn at h
  cases hl : checkLimits source with
  | error f =>
    simp only [hl, Except.map] at h
    cases h
  | ok u =>
    cases hc : host.cel.compile source with
    | none =>
      simp only [hl, parse, hc, Except.map] at h
      cases h
    | some e =>
      simp only [hl, parse, hc] at h
      cases hx : expr host s maxDepth ⟨[], []⟩ e ⟨[], [], [], .empty⟩ with
      | error f =>
        simp only [hx, Except.map] at h
        cases h
      | ok out =>
        obtain ⟨⟨t, c⟩, r⟩ := out
        have hsound : Report.Sound host ⟨[], [], [], .empty⟩ :=
          ⟨by simp, fun p hp => nomatch hp⟩
        have hread : Every (Read host) e := fun n hn => ⟨law.expanded hc n hn, law.number hc n hn⟩
        obtain ⟨w, ha, hcheck⟩ := expr_refines maxDepth hsound hread hx
        have hw : r.warnings = w := by simpa using ha.warnings
        simp only [hx] at h
        split_ifs at h with h₁ h₂
        · cases h
        · cases h
        · obtain rfl := Except.ok.inj h
          refine ⟨e, rfl, rfl, ?_, by simpa using h₁, not_lt.mp h₂⟩
          rw [← hw] at hcheck
          exact hcheck

end Scarab.PolicyRules
