import Scarab.RuleSoundness
import Scarab.CelReference

/-!
# A rule without warnings decides

A checked rule that draws no warning and writes no map literal evaluates to a bool on every input
that binds.
-/
namespace Scarab.PolicyRules

open Scarab.Cel

/-- Null is one of no type but its own, and no value is a map a rule wrote. -/
def exactly : Reading := ⟨false, false⟩

/-- Null stands in for a value of any type. -/
def orNull : Reading := ⟨true, true⟩

section Progress

variable {host : Host} {s : Schema} {ρ : Context} {v : Value}

theorem typed_bool {r : Reading} {t : CelType} (hr : r.absent = false)
    (ht : assignable .bool t = true) (hv : HasType s r v t) : ∃ b, v = .bool b := by
  cases hv with
  | bool => exact ⟨_, rfl⟩
  | absent hl => exact absurd (hl.symm.trans hr) (by simp)
  | _ => simp [assignable, shape] at ht

/-- A child that evaluates has a value of its type. -/
theorem Checks.value (law : Lawful host) {Γ : Scope} {e : Expr} {t : CelType} {c : ℕ}
    {w : List Warning} (h : Checks host s Γ e t c w) (hr : Reads exactly e w)
    (ha : Agrees s exactly Γ ρ)
    (ih : Reads exactly e w → Agrees s exactly Γ ρ → ∃ v, evaluate host ρ e = .ok v) :
    ∃ v, evaluate host ρ e = .ok v ∧ HasType s exactly v t := by
  obtain ⟨v, hv⟩ := ih hr ha
  exact ⟨v, hv, h.preserves law ha hr hv⟩

theorem evaluateWhen_notABool {source : Text}
    (h : evaluateWhen host source ρ = .error .notABool) :
    ∃ e v, host.cel.compile source = some e ∧ evaluate host ρ e = .ok v ∧ ∀ b, v ≠ .bool b := by
  unfold evaluateWhen at h
  cases hl : checkLimits source with
  | error f =>
    rw [hl] at h
    cases h
  | ok u =>
    cases hc : host.cel.compile source with
    | none =>
      simp only [hl, parse, hc] at h
      cases h
    | some e =>
      simp only [hl, parse, hc] at h
      cases hv : host.cel.resolve (ruleFunctions host) ρ (routeMatches e) with
      | error err =>
        rw [hv] at h
        cases h
      | ok v =>
        refine ⟨e, v, rfl, hv, ?_⟩
        rintro b rfl
        rw [hv] at h
        cases h

theorem typed_bool_or_null {t : CelType} (ht : assignable .bool t = true)
    (hv : HasType s orNull v t) : (∃ b, v = .bool b) ∨ v = .null := by
  cases hv with
  | bool => exact .inl ⟨_, rfl⟩
  | absent => exact .inr rfl
  | _ => simp [assignable, shape] at ht

/-- Null apart, a reading asks nothing of a rule. -/
theorem Reads.orNull (e : Expr) (w : List Warning) : Reads PolicyRules.orNull e w where
  quiet h := by cases h
  named h := by cases h
  mapless h := by cases h

/-- A checked rule that comes out as no bool came out null, and the checker warned of it. -/
theorem notABool_warned (law : Lawful host) {source : Text} {k : Checked}
    {json : Pipeline.Json} (hnamed : ∀ e, host.cel.compile source = some e → Every Named e)
    (hcheck : check host s source .bool = .ok k) (hbind : PolicyRules.bind host s json = .ok ρ)
    (hout : evaluateWhen host source ρ = .error .notABool) :
    k.warnings ≠ [] ∧ ∃ e, host.cel.compile source = some e ∧ evaluate host ρ e = .ok .null := by
  obtain ⟨e, v, hc, hv, hne⟩ := evaluateWhen_notABool hout
  obtain ⟨e', -, hc', hchecks, hres, -⟩ := check_refines law hcheck
  obtain rfl := Option.some.inj (hc.symm.trans hc')
  constructor
  · intro hclean
    -- the maps a rule writes are of their types here
    have hr : Reads ⟨false, true⟩ e k.warnings :=
      ⟨fun _ => hclean, fun _ => hnamed e hc, fun h => by cases h⟩
    have htyped := hchecks.preserves law (bind_agrees law hbind) hr hv
    obtain ⟨b, hb⟩ := typed_bool rfl hres htyped
    exact hne b hb
  · have htyped := hchecks.preserves law (bind_agrees law hbind) (Reads.orNull e _) hv
    rcases typed_bool_or_null hres htyped with ⟨b, hb⟩ | hnull
    · exact absurd hb (hne b)
    · exact ⟨e, hc, hnull ▸ hv⟩

end Progress

def orderedPair (f : Func) (x y : ℤ) : Bool :=
  match f with
  | .less => x < y
  | .lessEquals => x ≤ y
  | .greater => y < x
  | _ => y ≤ x

def orderedValues (f : Func) : Value → Value → Bool
  | .int x, .int y => orderedPair f x y
  | .uint x, .uint y => orderedPair f x y
  | .timestamp x, .timestamp y => orderedPair f x y
  | .duration x, .duration y => orderedPair f x y
  | _, _ => false

def sameValue : Value → Value → Bool
  | .null, .null => true
  | a, b => a.asKey.isSome && a.asKey = b.asKey

def textTest (f : Func) (x y : Text) : Bool :=
  match f with
  | .startsWith => y.isPrefixOf x
  | .endsWith => y.isSuffixOf x
  | _ => x.tails.any y.isPrefixOf

def sizeOf : Value → Outcome
  | .string x => .ok (.int x.length)
  | .bytes x => .ok (.int x.length)
  | .list x => .ok (.int x.length)
  | .map x => .ok (.int x.length)
  | _ => .error "no size".toList

def within (a : Value) : Value → Outcome
  | .list vs => .ok (.bool (vs.any (sameValue a)))
  | .map es => .ok (.bool (es.any fun e => sameValue a e.1.value))
  | _ => .error "not a collection".toList

/-- The operators of the subset on scalars. -/
def scalarApply : Func → Option Value → List Value → Outcome
  | .not, none, [.bool b] => .ok (.bool !b)
  | .equals, none, [a, b] => .ok (.bool (sameValue a b))
  | .notEquals, none, [a, b] => .ok (.bool !(sameValue a b))
  | .isIn, none, [a, b] => within a b
  | .size, none, [a] => sizeOf a
  | .size, some a, [] => sizeOf a
  | f, some (.string x), [.string y] =>
      if isTextTest f then .ok (.bool (textTest f x y)) else .error "unsupported".toList
  | f, none, [a, b] =>
      if isOrder f && sameOrder a b then .ok (.bool (orderedValues f a b))
      else .error "unsupported".toList
  | _, _, _ => .error "unsupported".toList

theorem scalarApply_order {f : Func} (hf : isOrder f = true) (a b : Value) :
    scalarApply f none [a, b] = if sameOrder a b then .ok (.bool (orderedValues f a b))
      else .error "unsupported".toList := by
  cases f <;> first | rfl | cases hf

/-- The operators on scalars over the reference evaluator. -/
def scalarHost (compile : Text → Option Expr) : Host where
  cel := reference compile scalarApply
  pattern _ := .error "no pattern".toList
  debug t := t
  asF64 _ := []
  parseRfc3339 _ := .error "no time".toList

theorem scalarApply_test {f : Func} {t : Option Value} {vs : List Value} {v : Value}
    (hf : isTestFunc f = true) (h : scalarApply f t vs = .ok v) : ∃ b, v = .bool b := by
  unfold scalarApply at h
  split at h
  · cases hf
  · exact ⟨_, (Except.ok.inj h).symm⟩
  · exact ⟨_, (Except.ok.inj h).symm⟩
  · unfold within at h
    split at h
    · exact ⟨_, (Except.ok.inj h).symm⟩
    · exact ⟨_, (Except.ok.inj h).symm⟩
    · cases h
  · cases hf
  · cases hf
  · split_ifs at h
    exact ⟨_, (Except.ok.inj h).symm⟩
  · split_ifs at h
    exact ⟨_, (Except.ok.inj h).symm⟩
  · cases h

theorem scalarApply_size {t : Option Value} {vs : List Value} {v : Value}
    (h : scalarApply .size t vs = .ok v) : ∃ z, v = .int z := by
  have hsize : ∀ {a}, sizeOf a = .ok v → ∃ z, v = .int z := by
    intro a ha
    cases a <;> first | exact ⟨_, (Except.ok.inj ha).symm⟩ | cases ha
  unfold scalarApply at h
  split at h
  all_goals first
    | exact hsize h
    | simp_all [isTextTest, isOrder]

theorem scalarApply_conversion {f : Func} {t : Option Value} {vs : List Value} {v : Value}
    (hf : isConversion f = true) : scalarApply f t vs ≠ .ok v := by
  intro h
  unfold scalarApply at h
  cases f <;> cases hf <;> split at h <;> simp_all [isTextTest, isOrder]

theorem scalarHost_lawful {compile : Text → Option Expr}
    (hread : ∀ {source e}, compile source = some e → Every (Read (scalarHost compile)) e)
    (hprobe : ∀ f t, compile (probeSource (scalarHost compile) f t) = none) :
    Lawful (scalarHost compile) where
  meaning := reference_meaning _ _
  expanded hc n hn := (hread hc n hn).1
  routes {kind range var p} := by cases kind <;> rfl
  number hc n hn := (hread hc n hn).2
  asF64 n := by
    change ([] : Text) ≠ nan
    decide
  rendered {f t e} _ hc := by
    change compile _ = _ at hc
    rw [hprobe] at hc
    cases hc
  tests := scalarApply_test
  sizes := scalarApply_size
  timestamps h := absurd h (scalarApply_conversion rfl)
  durations h := absurd h (scalarApply_conversion rfl)
  negates {v w} h := by
    cases v with
    | bool b => exact ⟨b, rfl, (Except.ok.inj h).symm⟩
    | _ => cases h
  not_ok _ := rfl
  equality_ok {f} hf a b := by cases f <;> first | exact ⟨_, rfl⟩ | cases hf
  equals_null := rfl
  notEquals_null := rfl
  order_ok {f a b} hf hab := ⟨_, (scalarApply_order hf a b).trans (if_pos hab)⟩
  inList_ok vs _ := ⟨_, rfl⟩
  size_ok {a} ha := by cases a <;> first | exact ⟨_, rfl⟩ | cases ha
  sizeOf_ok {a} ha := by cases a <;> first | exact ⟨_, rfl⟩ | cases ha
  text_ok {f} hf a b := by cases f <;> first | exact ⟨_, rfl⟩ | cases hf

def sampleSource : Text :=
  "has(run.ref) && steps.exists(s, s.image.startsWith('r/') && s.retries < 3)".toList

/-- The rule of `sampleSource`. -/
def sampleRule : Expr :=
  .call .and none [.select (.ident "run".toList) "ref".toList true,
    standardMacro .exists (.ident "steps".toList) "s".toList
      (.call .and none [
        .call .startsWith (some (.select (.ident "s".toList) "image".toList false))
          [.literal (.string "r/".toList)],
        .call .less none [.select (.ident "s".toList) "retries".toList false, .literal (.int 3)]])]

def sampleSchema : Schema where
  vars := [⟨"run".toList, .struct "Run".toList, false, 100⟩,
    ⟨"steps".toList, .list (.struct "Step".toList) 512, false, 100⟩]
  distinct := by decide
  structs := (SortedMap.empty.insert "Run".toList ⟨[⟨"ref".toList, .string, true, 100⟩], by decide⟩).insert
    "Step".toList ⟨[⟨"image".toList, .string, false, 100⟩, ⟨"retries".toList, .int, false, 100⟩],
      by decide⟩
  enums := .empty

def sampleCompile (t : Text) : Option Expr := if t = sampleSource then some sampleRule else none

def sampleHost : Host := scalarHost sampleCompile

def sampleStep (image : Text) (retries : ℕ) : Pipeline.Json :=
  .object [("image".toList, .string image), ("retries".toList, .number (.posInt retries))]

def sampleInput : Pipeline.Json :=
  .object [("run".toList, .object [("ref".toList, .string "refs/heads/x".toList)]),
    ("steps".toList, .array [sampleStep "r/a".toList 5, sampleStep "r/b".toList 1])]

theorem sample_checks :
    (check sampleHost sampleSchema sampleSource .bool).toOption.map Checked.warnings = some [] := by
  decide +kernel

theorem sample_binds : (PolicyRules.bind sampleHost sampleSchema sampleInput).toBool = true := by
  decide +kernel

theorem shown_head (f : Func) (t : Text) :
    (Func.shown f ++ t).head? = some 't' ∨ (Func.shown f ++ t).head? = some 'd' := by
  unfold Func.shown
  split
  · exact .inl rfl
  · exact .inr rfl

/-- A rendered conversion starts as neither sample does. -/
theorem probeSource_ne {host : Host} {source : Text} (ht : source.head? ≠ some 't')
    (hd : source.head? ≠ some 'd') (f : Func) (t : Text) : probeSource host f t ≠ source := by
  rintro rfl
  rw [probeSource, List.append_assoc] at ht hd
  rcases shown_head f (('(' :: host.debug t) ++ [')']) with h | h
  · exact ht h
  · exact hd h

theorem sampleCompile_eq {source : Text} {e : Expr} (h : sampleCompile source = some e) :
    e = sampleRule := by
  unfold sampleCompile at h
  split_ifs at h
  exact (Option.some.inj h).symm

theorem sample_every {P : Expr → Prop} (h : ∀ n ∈ nodes sampleRule, P n) {source : Text} {e : Expr}
    (hc : sampleCompile source = some e) : Every P e :=
  sampleCompile_eq hc ▸ h

theorem sample_lawful : Lawful sampleHost := by
  have hloop : ∀ p, Read (scalarHost sampleCompile)
      (standardMacro .exists (.ident "steps".toList) "s".toList p) := fun p =>
    ⟨standardMacro_expanded sampleCompile scalarApply, by simp [standardMacro]⟩
  have hread : ∀ n ∈ nodes sampleRule, Read (scalarHost sampleCompile) n := by
    simp only [sampleRule, standardMacro, accu, nodes, nodesTarget, nodesAll,
      List.cons_append, List.nil_append, List.forall_mem_cons]
    refine ⟨?_, ?_, ?_, hloop _, ?_⟩
    all_goals simp [Read, Crate.Expanded]
  refine scalarHost_lawful (fun hc => sample_every hread hc) fun f t => if_neg ?_
  exact probeSource_ne (by decide +kernel) (by decide +kernel) f t

theorem ok_of_toBool {ε α : Type} {o : Except ε α} (h : o.toBool = true) : ∃ v, o = .ok v := by
  cases o with
  | error e => cases h
  | ok v => exact ⟨v, rfl⟩

theorem sample_checked : ∃ k, check sampleHost sampleSchema sampleSource .bool = .ok k ∧
    k.warnings = [] := by
  obtain ⟨k, hk, hw⟩ := Option.map_eq_some_iff.mp sample_checks
  cases hc : check sampleHost sampleSchema sampleSource .bool with
  | error f =>
    rw [hc] at hk
    cases hk
  | ok k' =>
    rw [hc] at hk
    exact ⟨k', rfl, Option.some.inj hk ▸ hw⟩

def nullSource : Text := "flag".toList

def nullCompile (t : Text) : Option Expr :=
  if t = nullSource then some (.ident nullSource) else none

def nullHost : Host := scalarHost nullCompile

def nullSchema : Schema where
  vars := [⟨nullSource, .bool, true, 100⟩]
  distinct := by decide
  structs := .empty
  enums := .empty

theorem null_every {P : Expr → Prop} (h : P (.ident nullSource)) {source : Text} {e : Expr}
    (hc : nullCompile source = some e) : Every P e := by
  unfold nullCompile at hc
  split_ifs at hc
  obtain rfl := Option.some.inj hc
  simpa [Every, nodes] using h

theorem null_lawful : Lawful nullHost :=
  scalarHost_lawful (fun hc => null_every ⟨trivial, by simp⟩ hc) fun f t =>
    if_neg (probeSource_ne (by decide +kernel) (by decide +kernel) f t)

theorem null_checks : (check nullHost nullSchema nullSource .bool).toBool = true := by
  decide +kernel

theorem sample_notABool_warned : ∃ k, check nullHost nullSchema nullSource .bool = .ok k ∧
    k.warnings ≠ [] := by
  obtain ⟨k, hk⟩ := ok_of_toBool null_checks
  have hnamed : ∀ e, nullHost.cel.compile nullSource = some e → Every Named e := by
    intro e he
    change nullCompile nullSource = some e at he
    have hdot : Named (.ident nullSource) := by
      change '.' ∉ nullSource
      decide
    exact null_every hdot he
  have hbind : PolicyRules.bind nullHost nullSchema (.object []) = .ok [(nullSource, .null)] := rfl
  have hout : evaluateWhen nullHost nullSource [(nullSource, .null)] = .error .notABool := rfl
  exact ⟨k, hk, (notABool_warned null_lawful hnamed hk hbind hout).1⟩

end Scarab.PolicyRules
