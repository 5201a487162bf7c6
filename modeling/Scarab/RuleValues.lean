import Scarab.RuleTyping

/-!
# The values a type admits

A value of a type, read with or without null standing in anywhere and the maps a rule writes, and
the contexts that agree with what the checker knows. An input that binds gives such a context.
-/
namespace Scarab.PolicyRules

open Scarab.Cel
open Scarab.Pipeline (Json Number)

/-- How types are read: whether null stands in for a value of any type, and whether a map has the
values a rule writes. -/
structure Reading where
  absent : Bool
  maps : Bool

/-- `v` is a value of the type `t`. -/
inductive HasType (s : Schema) (r : Reading) : Value → CelType → Prop
  | bool {b} : HasType s r (.bool b) .bool
  | int {z} : HasType s r (.int z) .int
  | uint {n} : HasType s r (.uint n) .uint
  | double {x} : x ≠ nan → HasType s r (.double x) .double
  | string {x} : HasType s r (.string x) .string
  | bytes {x} : HasType s r (.bytes x) .bytes
  | null : HasType s r .null .null
  | timestamp {z} : HasType s r (.timestamp z) .timestamp
  | duration {z} : HasType s r (.duration z) .duration
  | enum {x name} : HasType s r (.string x) (.enum name)
  | list {vs elem cap} : vs.length ≤ cap → (∀ v ∈ vs, HasType s r v elem) →
      HasType s r (.list vs) (.list elem cap)
  | map {es key value cap} : r.maps = true → (∀ e ∈ es, HasType s r e.1.value key) →
      (∀ e ∈ es, HasType s r e.2 value) → HasType s r (.map es) (.map key value cap)
  | struct {es name d} : s.structDecl name = some d →
      (∀ f decl v, d.field f = some decl → entryOf (.string f) es = some v →
        HasType s r v decl.ty) →
      (∀ f decl, d.field f = some decl → decl.optional = false →
        (entryOf (.string f) es).isSome) →
      HasType s r (.map es) (.struct name)
  | absent {t} : r.absent = true → HasType s r .null t

section Unify

variable {s : Schema} {r : Reading} {v : Value}

/-- A common type admits the values of both. -/
theorem HasType.unify {v : Value} {a : CelType} (h : HasType s r v a) :
    ∀ {b t : CelType}, unify a b = some t ∨ PolicyRules.unify b a = some t → HasType s r v t := by
  induction h with
  | absent hl => exact fun _ => .absent hl
  | @list vs elem cap hlen hvs ih =>
    intro b t hu
    cases b with
    | dyn =>
      simp only [PolicyRules.unify, or_self, Option.some.injEq] at hu
      exact hu ▸ .list hlen hvs
    | list elem' cap' =>
      simp only [PolicyRules.unify] at hu
      rcases hu with hu | hu <;> obtain ⟨u, he, rfl⟩ := Option.map_eq_some_iff.mp hu
      · exact .list (le_trans hlen (le_max_left _ _)) fun v hv => ih v hv (.inl he)
      · exact .list (le_trans hlen (le_max_right _ _)) fun v hv => ih v hv (.inr he)
    | _ => simp [PolicyRules.unify] at hu
  | @map es key value cap hm hks hvs ihk ihv =>
    intro b t hu
    cases b with
    | dyn =>
      simp only [PolicyRules.unify, or_self, Option.some.injEq] at hu
      exact hu ▸ .map hm hks hvs
    | map key' value' cap' =>
      simp only [PolicyRules.unify] at hu
      rcases hu with hu | hu
      · cases hk : PolicyRules.unify key key' with
        | none => simp [hk] at hu
        | some k =>
          cases hv : PolicyRules.unify value value' with
          | none => simp [hk, hv] at hu
          | some u =>
            simp only [hk, hv, Option.some.injEq] at hu
            exact hu ▸ .map hm (fun e he => ihk e he (.inl hk)) fun e he => ihv e he (.inl hv)
      · cases hk : PolicyRules.unify key' key with
        | none => simp [hk] at hu
        | some k =>
          cases hv : PolicyRules.unify value' value with
          | none => simp [hk, hv] at hu
          | some u =>
            simp only [hk, hv, Option.some.injEq] at hu
            exact hu ▸ .map hm (fun e he => ihk e he (.inr hk)) fun e he => ihv e he (.inr hv)
    | _ => simp [PolicyRules.unify] at hu
  | @struct es name d hd hfs hreq =>
    intro b t hu
    cases b with
    | dyn =>
      simp only [PolicyRules.unify, or_self, Option.some.injEq] at hu
      exact hu ▸ .struct hd hfs hreq
    | struct name' =>
      simp only [PolicyRules.unify, CelType.struct.injEq] at hu
      have ht : t = .struct name := by grind
      exact ht ▸ .struct hd hfs hreq
    | _ => simp [PolicyRules.unify] at hu
  | @enum x name =>
    intro b t hu
    cases b with
    | dyn =>
      simp only [PolicyRules.unify, or_self, Option.some.injEq] at hu
      exact hu ▸ .enum
    | enum name' =>
      simp only [PolicyRules.unify] at hu
      have ht : t = .enum name := by grind
      exact ht ▸ .enum
    | string =>
      simp only [PolicyRules.unify, or_self, Option.some.injEq] at hu
      exact hu ▸ .string
    | _ => simp [PolicyRules.unify] at hu
  | double hx =>
    intro b t hu
    cases b <;> simp [PolicyRules.unify] at hu <;> exact hu ▸ .double hx
  | bool | int | uint | string | bytes | null | timestamp | duration =>
    intro b t hu
    cases b <;> simp [PolicyRules.unify] at hu <;> subst hu <;> constructor

/-- The common type of a list of types admits the values of each. -/
theorem HasType.unifyAll {a t : CelType} {us : List CelType} (h : unifyAll a us = some t) :
    (∀ v, HasType s r v a → HasType s r v t) ∧
      ∀ u ∈ us, ∀ v, HasType s r v u → HasType s r v t := by
  induction us generalizing a with
  | nil =>
    obtain rfl := Option.some.inj h
    exact ⟨fun _ hv => hv, by simp⟩
  | cons u us ih =>
    obtain ⟨b, hb, h⟩ := Option.bind_eq_some_iff.mp h
    obtain ⟨hhead, htail⟩ := ih h
    refine ⟨fun v hv => hhead v (hv.unify (.inl hb)), fun w hw v hv => ?_⟩
    rcases List.mem_cons.mp hw with rfl | hw
    · exact hhead v (hv.unify (.inr hb))
    · exact htail w hw v hv

end Unify

/-- What a name holds to be no path of several names. -/
def Undotted (name : Text) : Prop := '.' ∉ name

/-- No name of the node holds a dot. -/
def Named : Expr → Prop
  | .ident x => Undotted x
  | .select _ f _ => Undotted f
  | _ => True

/-- The text of a path. -/
def pathText (x : Text) (fields : List Text) : Text := fields.foldl (fun p f => p ++ '.' :: f) x

theorem pathText_snoc (x : Text) (fields : List Text) (f : Text) :
    pathText x (fields ++ [f]) = pathText x fields ++ '.' :: f := by
  simp [pathText]

theorem prefix_pathText (x : Text) (fields : List Text) : x <+: pathText x fields := by
  induction fields generalizing x with
  | nil => exact List.prefix_rfl
  | cons f fs ih => exact (List.prefix_append x ('.' :: f)).trans (ih _)

theorem intercalate_append_head (x y : Text) (zs : List Text) :
    ['.'].intercalate ((x ++ y) :: zs) = x ++ ['.'].intercalate (y :: zs) := by
  induction x with
  | nil => rfl
  | cons c x ih => rw [List.cons_append, List.intercalate_cons_cons_left, ih, List.cons_append]

theorem pathText_eq (x : Text) (fields : List Text) :
    pathText x fields = ['.'].intercalate (x :: fields) := by
  induction fields generalizing x with
  | nil => simp [pathText]
  | cons f fs ih =>
    have h : pathText x (f :: fs) = pathText (x ++ '.' :: f) fs := rfl
    rw [h, ih, intercalate_append_head, List.intercalate_cons_cons_left,
      List.intercalate_cons_cons]
    simp

/-- A path of undotted names has one spelling. -/
theorem pathText_injective {x y : Text} {fs gs : List Text} (hx : ∀ n ∈ x :: fs, Undotted n)
    (hy : ∀ n ∈ y :: gs, Undotted n) (h : pathText x fs = pathText y gs) : x = y ∧ fs = gs := by
  rw [pathText_eq, pathText_eq] at h
  have hsplit := List.splitOn_intercalate '.' hx (List.cons_ne_nil x fs)
  rw [h, List.splitOn_intercalate '.' hy (List.cons_ne_nil y gs)] at hsplit
  obtain ⟨hxy, hfg⟩ := List.cons.inj hsplit
  exact ⟨hxy.symm, hfg.symm⟩

def followFields : List Text → Value → Option Value
  | [], v => some v
  | f :: fs, v => (fieldIn f v).bind (followFields fs)

theorem followFields_snoc (fs : List Text) (f : Text) (v : Value) :
    followFields (fs ++ [f]) v = (followFields fs v).bind (fieldIn f) := by
  induction fs generalizing v with
  | nil => simp [followFields]
  | cons g fs ih =>
    simp only [List.cons_append, followFields, Option.bind_assoc]
    congr 1
    exact funext ih

/-- The value at a path of a context. -/
def follow (ρ : Context) (x : Text) (fields : List Text) : Option Value :=
  (ρ.lookup x).bind (followFields fields)

theorem follow_snoc (ρ : Context) (x : Text) (fs : List Text) (f : Text) :
    follow ρ x (fs ++ [f]) = (follow ρ x fs).bind (fieldIn f) := by
  simp only [follow, Option.bind_assoc, followFields_snoc]

/-- The path is present: a variable that is not null, or a field that is there. -/
def Held (ρ : Context) (path : Text) : Prop :=
  ∃ x fs v, (∀ n ∈ x :: fs, Undotted n) ∧ pathText x fs = path ∧ follow ρ x fs = some v ∧
    (fs = [] → v ≠ .null)

theorem Held.at {ρ : Context} {x : Text} {fs : List Text} (h : Held ρ (pathText x fs))
    (hx : ∀ n ∈ x :: fs, Undotted n) : ∃ v, follow ρ x fs = some v ∧ (fs = [] → v ≠ .null) := by
  obtain ⟨y, gs, v, hy, he, hf, hn⟩ := h
  obtain ⟨rfl, rfl⟩ := pathText_injective hy hx he
  exact ⟨v, hf, hn⟩

/-- The context has a value of its type for every variable in scope; a top-level variable that is
optional may be null, and the paths known present are. -/
structure Agrees (s : Schema) (r : Reading) (Γ : Scope) (ρ : Context) : Prop where
  inner : ∀ {x t}, Γ.vars.lookup x = some t → ∃ v, ρ.lookup x = some v ∧ HasType s r v t
  outer : ∀ {x var}, Γ.vars.lookup x = none → s.variable x = some var →
    ∃ v, ρ.lookup x = some v ∧ (HasType s r v var.ty ∨ var.optional = true ∧ v = .null)
  held : r.absent = false → ∀ g ∈ Γ.guards, Held ρ g

section Contexts

variable {s : Schema} {r : Reading} {Γ : Scope} {ρ : Context}

theorem Agrees.guard (h : Agrees s r Γ ρ) {paths : List Text}
    (hp : r.absent = false → ∀ g ∈ paths, Held ρ g) : Agrees s r (Γ.guard paths) ρ where
  inner := h.inner
  outer := h.outer
  held hl g hg := by
    rcases List.mem_append.mp hg with hg | hg
    · exact h.held hl g hg
    · exact hp hl g hg

/-- A guard that survives a macro is about another variable than the macro's. -/
theorem Held.iterate {path var : Text} {v : Value} (h : Held ρ path) (hne : path ≠ var)
    (hpre : ¬ (var ++ ['.']) <+: path) : Held ((var, v) :: ρ) path := by
  obtain ⟨x, fs, u, hx, rfl, hf, hn⟩ := h
  have hxv : x ≠ var := by
    rintro rfl
    cases fs with
    | nil => exact hne rfl
    | cons f fs =>
      apply hpre
      have hhead : x ++ ['.'] <+: x ++ '.' :: f := ⟨f, by simp⟩
      exact hhead.trans (prefix_pathText _ fs)
  refine ⟨x, fs, u, hx, rfl, ?_, hn⟩
  rw [← hf]
  simp [follow, List.lookup_cons, beq_eq_false_iff_ne.mpr hxv]

theorem Agrees.iterate (h : Agrees s r Γ ρ) {var : Text} {elem : CelType} {v : Value}
    (hv : HasType s r v elem) : Agrees s r (Γ.iterate var elem) ((var, v) :: ρ) where
  inner {x t} hx := by
    simp only [Scope.iterate, List.lookup_cons] at hx ⊢
    by_cases he : x = var
    · subst he
      simp only [beq_self_eq_true] at hx ⊢
      exact ⟨v, rfl, Option.some.inj hx ▸ hv⟩
    · simp only [beq_eq_false_iff_ne.mpr he] at hx ⊢
      exact h.inner hx
  outer {x f} hx hf := by
    simp only [Scope.iterate, List.lookup_cons] at hx ⊢
    by_cases he : x = var
    · simp [he] at hx
    · simp only [beq_eq_false_iff_ne.mpr he] at hx ⊢
      exact h.outer hx hf
  held hl g hg := by
    obtain ⟨hg, hp⟩ := List.mem_filter.mp hg
    have hp' : g ≠ var ∧ ¬ (var ++ ['.']) <+: g := by
      simpa [← List.isPrefixOf_iff_prefix] using hp
    exact (h.held hl g hg).iterate hp'.1 hp'.2

end Contexts

section Bound

variable {host : Host} {s : Schema} {r : Reading}

theorem scalarValue_typed (law : Lawful host) {json : Json} {ty : CelType} {v : Value}
    (h : scalarValue host s ty json = .ok v) : HasType s r v ty := by
  unfold scalarValue at h
  split at h
  · obtain rfl := Except.ok.inj h
    exact .bool
  · obtain rfl := Except.ok.inj h
    exact .string
  · split at h
    · obtain rfl := Except.ok.inj h
      exact .int
    · cases h
  · split at h
    · obtain rfl := Except.ok.inj h
      exact .uint
    · cases h
  · obtain rfl := Except.ok.inj h
    exact .double (law.asF64 _)
  · split at h
    · obtain rfl := Except.ok.inj h
      exact .timestamp
    · cases h
  · split at h
    · cases h
    · split_ifs at h
      obtain rfl := Except.ok.inj h
      exact .enum
  · cases h

theorem leafValue_typed (law : Lawful host) (json : Json) (ty : CelType) (maxLen : ℕ) {v : Value}
    (h : leafValue host s ty maxLen json = .ok v) : HasType s r v ty := by
  unfold leafValue at h
  split at h
  · exact scalarValue_typed law h
  · cases h

/-- The fields of a struct, read in order: each has a value of its type, and the required ones are
there. -/
theorem structEntries_typed {member : Text → Option (CelType → ℕ → Except BindError (Option Value))}
    (hmember : ∀ {name read ty maxLen v}, member name = some read →
      read ty maxLen = .ok (some v) → HasType s r v ty)
    {fields : List Field} : ∀ {m es : List (Key × Value)}, (fields.map Field.name).Nodup →
      structEntries member fields m = .ok es → (∀ f ∈ fields, entryOf (.string f.name) m = none) →
      (∀ f ∈ fields, ∀ v, entryOf (.string f.name) es = some v → HasType s r v f.ty) ∧
        (∀ f ∈ fields, f.optional = false → (entryOf (.string f.name) es).isSome) ∧
        ∀ k, (∀ f ∈ fields, k ≠ .string f.name) → entryOf k es = entryOf k m := by
  induction fields with
  | nil =>
    intro m es _ h _
    obtain rfl := Except.ok.inj h
    exact ⟨by simp, by simp, fun _ _ => rfl⟩
  | cons f fs ih =>
    intro m es hnd h hm
    obtain ⟨hnf, hnd⟩ := List.nodup_cons.mp hnd
    have hother : ∀ g ∈ fs, (Key.string f.name) ≠ .string g.name := fun g hg he =>
      hnf (Key.string.inj he ▸ List.mem_map_of_mem hg)
    have habsent : (if f.optional then structEntries member fs m
        else .error (.required f.name)) = .ok es →
        (∀ g ∈ f :: fs, ∀ v, entryOf (.string g.name) es = some v → HasType s r v g.ty) ∧
          (∀ g ∈ f :: fs, g.optional = false → (entryOf (.string g.name) es).isSome) ∧
          ∀ k, (∀ g ∈ f :: fs, k ≠ .string g.name) → entryOf k es = entryOf k m := by
      intro h
      split_ifs at h with ho
      obtain ⟨htyped, hreq, hkept⟩ := ih hnd h fun g hg => hm g (List.mem_cons_of_mem _ hg)
      refine ⟨fun g hg v hv => ?_, fun g hg hgo => ?_, fun k hk =>
        hkept k fun g hg => hk g (List.mem_cons_of_mem _ hg)⟩
      · rcases List.mem_cons.mp hg with rfl | hg
        · rw [hkept _ hother, hm _ List.mem_cons_self] at hv
          cases hv
        · exact htyped g hg v hv
      · rcases List.mem_cons.mp hg with rfl | hg
        · simp [ho] at hgo
        · exact hreq g hg hgo
    simp only [structEntries] at h
    split at h
    · exact habsent h
    · rename_i read hread
      split at h
      · cases h
      · exact habsent h
      · rename_i v hv
        have hm' : ∀ g ∈ fs, entryOf (.string g.name) (insertEntry (.string f.name) v m) = none :=
          fun g hg => by
            rw [entryOf_insertEntry_of_ne (hother g hg).symm]
            exact hm g (List.mem_cons_of_mem _ hg)
        obtain ⟨htyped, hreq, hkept⟩ := ih hnd h hm'
        have hself : entryOf (.string f.name) es = some v := by
          rw [hkept _ hother, entryOf_insertEntry_self]
        refine ⟨fun g hg u hu => ?_, fun g hg hgo => ?_, fun k hk => ?_⟩
        · rcases List.mem_cons.mp hg with rfl | hg
          · obtain rfl := Option.some.inj (hself.symm.trans hu)
            exact hmember hread hv
          · exact htyped g hg u hu
        · rcases List.mem_cons.mp hg with rfl | hg
          · simp [hself]
          · exact hreq g hg hgo
        · rw [hkept k fun g hg => hk g (List.mem_cons_of_mem _ hg),
            entryOf_insertEntry_of_ne (hk f List.mem_cons_self)]

theorem StructDecl.field_mem {d : StructDecl} {name : Text} {f : Field}
    (h : d.field name = some f) : f ∈ d.fields ∧ f.name = name :=
  ⟨List.mem_of_find?_eq_some h, by simpa using List.find?_some h⟩

theorem unlessNull_ok {json : Json} {read : Except BindError Value} {v : Value}
    (h : unlessNull json read = .ok (some v)) : read = .ok v := by
  cases json with
  | null => cases h
  | _ =>
    cases read with
    | error e => cases h
    | ok u => exact congrArg Except.ok (Option.some.inj (Except.ok.inj h))

mutual

theorem toValue_typed (law : Lawful host) : ∀ (json : Json) {ty : CelType} {maxLen : ℕ} {v : Value},
    toValue host s json ty maxLen = .ok v → HasType s r v ty
  | .array items, ty, maxLen, v, h => by
      cases ty with
      | list elem cap =>
        simp only [toValue] at h
        split_ifs at h with hlen
        cases hvs : toValues host s items elem maxLen with
        | error e =>
          rw [hvs] at h
          cases h
        | ok vs =>
          rw [hvs] at h
          obtain rfl := Except.ok.inj h
          obtain ⟨hl, htyped⟩ := toValues_typed law items hvs
          exact .list (by omega) htyped
      | _ => exact leafValue_typed law (.array items) _ maxLen h
  | .object members, ty, maxLen, v, h => by
      cases ty with
      | struct name =>
        simp only [toValue] at h
        cases hd : s.structDecl name with
        | none =>
          rw [hd] at h
          cases h
        | some d =>
          rw [hd] at h
          cases hes : structEntries (readMember host s members) d.fields [] with
          | error e =>
            simp only [hes] at h
            cases h
          | ok es =>
            simp only [hes] at h
            obtain rfl := Except.ok.inj h
            have hmember : ∀ {name read ty maxLen v},
                readMember host s members name = some read → read ty maxLen = .ok (some v) →
                HasType s r v ty := fun hr hv => readMember_typed law members hr hv
            obtain ⟨htyped, hreq, -⟩ := structEntries_typed hmember d.distinct hes fun _ _ => rfl
            refine .struct hd (fun f decl u hf hu => ?_) fun f decl hf ho => ?_
            · obtain ⟨hmem, rfl⟩ := StructDecl.field_mem hf
              exact htyped decl hmem u hu
            · obtain ⟨hmem, rfl⟩ := StructDecl.field_mem hf
              exact hreq decl hmem ho
      | _ => exact leafValue_typed law (.object members) _ maxLen h
  | .null, ty, maxLen, _, h => leafValue_typed law .null ty maxLen h
  | .bool b, ty, maxLen, _, h => leafValue_typed law (.bool b) ty maxLen h
  | .number n, ty, maxLen, _, h => leafValue_typed law (.number n) ty maxLen h
  | .string t, ty, maxLen, _, h => leafValue_typed law (.string t) ty maxLen h

theorem toValues_typed (law : Lawful host) : ∀ (items : List Json) {ty : CelType} {maxLen : ℕ} {vs : List Value},
    toValues host s items ty maxLen = .ok vs →
      vs.length = items.length ∧ ∀ v ∈ vs, HasType s r v ty
  | [], _, _, _, h => by
      obtain rfl := Except.ok.inj h
      exact ⟨rfl, by simp⟩
  | json :: items, ty, maxLen, vs, h => by
      simp only [toValues] at h
      cases hv : toValue host s json ty maxLen with
      | error e =>
        rw [hv] at h
        cases h
      | ok u =>
        cases hus : toValues host s items ty maxLen with
        | error e =>
          rw [hv, hus] at h
          cases h
        | ok us =>
          rw [hv, hus] at h
          obtain rfl := Except.ok.inj h
          obtain ⟨hl, htyped⟩ := toValues_typed law items hus
          refine ⟨by simp [hl], fun w hw => ?_⟩
          rcases List.mem_cons.mp hw with rfl | hw
          · exact toValue_typed law json hv
          · exact htyped w hw

theorem readMember_typed (law : Lawful host) : ∀ (members : List (Text × Json)) {name : Text}
    {read : CelType → ℕ → Except BindError (Option Value)} {ty : CelType} {maxLen : ℕ} {v : Value},
    readMember host s members name = some read → read ty maxLen = .ok (some v) →
      HasType s r v ty
  | [], _, _, _, _, _, h, _ => by cases h
  | (key, json) :: members, name, read, ty, maxLen, v, h, hv => by
      simp only [readMember] at h
      split_ifs at h
      · obtain rfl := Option.some.inj h
        exact toValue_typed law json (unlessNull_ok hv)
      · exact readMember_typed law members h hv

end

/-- Each declared variable is bound, to a value of its type or, where it may be absent, to null. -/
theorem bindVariables_lookup (law : Lawful host) {members : List (Text × Json)} {vars : List Field} :
    ∀ {ρ : Context}, bindVariables host s members vars = .ok ρ → ∀ {x var},
      vars.find? (fun f => f.name = x) = some var → ∃ v, ρ.lookup x = some v ∧
        (HasType s r v var.ty ∨ var.optional = true ∧ v = .null) := by
  induction vars with
  | nil => intro ρ _ x var hf; cases hf
  | cons f vars ih =>
    intro ρ h x var hf
    simp only [bindVariables] at h
    cases hv : bindVariable host s members f with
    | error e => simp [hv] at h
    | ok v =>
      cases hρ : bindVariables host s members vars with
      | error e => simp [hv, hρ] at h
      | ok ρ' =>
        simp only [hv, hρ, Except.ok.injEq] at h
        subst h
        by_cases hx : f.name = x
        · rw [List.find?_cons_of_pos (by simpa using hx)] at hf
          obtain rfl := Option.some.inj hf
          refine ⟨v, by simp [hx], ?_⟩
          unfold bindVariable at hv
          split at hv
          · split_ifs at hv with ho
            exact .inr ⟨ho, (Except.ok.inj hv).symm⟩
          · rename_i read hread
            split at hv
            · cases hv
            · split_ifs at hv with ho
              exact .inr ⟨ho, (Except.ok.inj hv).symm⟩
            · rename_i u hu
              obtain rfl := Except.ok.inj hv
              exact .inl (readMember_typed law members hread hu)
        · rw [List.find?_cons_of_neg (by simpa using hx)] at hf
          obtain ⟨u, hu, ht⟩ := ih hρ hf
          exact ⟨u, by rw [List.lookup_cons, beq_eq_false_iff_ne.mpr (Ne.symm hx)]; exact hu, ht⟩

/-- A bound input agrees with what the checker knows at the top of a rule. -/
theorem bind_agrees (law : Lawful host) {json : Json} {ρ : Context} (h : PolicyRules.bind host s json = .ok ρ) :
    Agrees s r ⟨[], []⟩ ρ where
  inner hx := by cases hx
  outer _ hf := by
    cases json with
    | object members => exact bindVariables_lookup law h hf
    | _ => cases h
  held _ g hg := by cases hg

end Bound

end Scarab.PolicyRules
