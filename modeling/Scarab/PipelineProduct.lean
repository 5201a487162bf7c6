import Scarab.MixedRadix
import Scarab.PipelineInlined

/-!
# Numbered combinations

The compiler never builds the product of a matrix. A combination is a number whose digits are
the value indexes, and a predicate is evaluated once for each point of the smaller product of
the dimensions it reads.
-/
namespace Scarab.Pipeline

open MixedRadix

/-- A dimension of a matrix, with the weight of its value index. -/
structure Column where
  name : Text
  values : List Text
  stride : ℕ

def columns (dims : List (Text × List Text)) : List Column :=
  List.zipWith (fun d s => ⟨d.1, d.2, s⟩) dims (strides (dims.map (·.2.length)))

def Column.index (d : Column) (c : ℕ) : ℕ := c / d.stride % d.values.length

def Column.value (d : Column) (c : ℕ) : Text := d.values.getD (d.index c) []

/-- The combination a number stands for. -/
def combinationAt (cols : List Column) (c : ℕ) : Combination := cols.map fun d => (d.name, d.value c)

/-- The rest of `eval_bool` once the predicate is parsed. -/
def executeBool (host : Host) (expr : Text) (e : Expr) (ctx : Ctx) : Except CelError Bool :=
  match host.execute e ctx with
  | .ok (.bool b) => .ok b
  | .ok other => .error (.notBool expr other)
  | .error why => .error (.failed expr why)

/-- Bind each dimension to its value at a point, the dimensions given from the last. -/
def bindPoint : List (Text × List Text) → ℕ → Ctx → Ctx
  | [], _, ctx => ctx
  | d :: ds, rest, ctx =>
      let n := max d.2.length 1
      bindPoint ds (rest / n) (ctx.insert d.1 (.string (d.2.getD (rest % n) [])))

/-- Each point binds its values over the last point's. -/
def evalPoints (host : Host) (expr : Text) (e : Expr) (dims : List (Text × List Text)) :
    List ℕ → Ctx → Except CelError (List Bool)
  | [], _ => .ok []
  | p :: ps, ctx => do
      let ctx := bindPoint dims.reverse p ctx
      let out ← executeBool host expr e ctx
      let outs ← evalPoints host expr e dims ps ctx
      .ok (out :: outs)

def evalBoolProduct (host : Host) (expr : Text) (fixed : List (Text × Text))
    (dims : List (Text × List Text)) (points : List ℕ) : Except CelError (List Bool) := do
  let e ← host.program expr
  evalPoints host expr e dims points (SortedMap.ofList (fixed.map fun f => (f.1, Json.string f.2)))

/-- The dimensions a predicate reads that have one value. -/
def fixedColumns (vars : List Text) (cols : List Column) : List Column :=
  cols.filter fun d => d.name ∈ vars && d.values.length = 1

/-- The dimensions a predicate reads that have several. -/
def varyingColumns (vars : List Text) (cols : List Column) : List Column :=
  cols.filter fun d => d.name ∈ vars && d.values.length ≠ 1

/-- The value indexes of the varying dimensions, as a number. -/
def pointOf (varying : List Column) (c : ℕ) : ℕ :=
  varying.foldl (fun p d => p * d.values.length + d.index c) 0

def pointCount (varying : List Column) : ℕ := (varying.map (·.values.length)).prod

/-- Ask for the point of a combination unless it is asked for already. -/
def wantPoint (point : ℕ → ℕ) (acc : List Bool × List ℕ) (c : ℕ) : List Bool × List ℕ :=
  if acc.1.getD (point c) true then acc else (acc.1.set (point c) true, acc.2 ++ [point c])

def wantedPoints (point : ℕ → ℕ) (size : ℕ) (cs : List ℕ) : List ℕ :=
  (cs.foldl (wantPoint point) (List.replicate size false, [])).2

/-- The answers, each at its point. -/
def answerTable (size : ℕ) (answers : List (ℕ × Bool)) : List Bool :=
  answers.foldl (fun table a => table.set a.1 a.2) (List.replicate size false)

def keptNumbers (keep : List Bool) : List ℕ :=
  (List.range keep.length).filter fun c => keep.getD c false

def excludePass (host : Host) (cols : List Column) (pred : Text) (keep : List Bool) :
    Except CelError (List Bool) := do
  let reads ← host.reads pred
  let vars := reads.map (·.var)
  let varying := varyingColumns vars cols
  let points := wantedPoints (pointOf varying) (pointCount varying) (keptNumbers keep)
  let excluded ← evalBoolProduct host pred
    ((fixedColumns vars cols).map fun d => (d.name, d.values.headD []))
    (varying.map fun d => (d.name, d.values)) points
  let table := answerTable (pointCount varying) (points.zip excluded)
  .ok (keep.mapIdx fun c k => k && !table.getD (pointOf varying c) false)

def excludePasses (host : Host) (cols : List Column) :
    List Text → List Bool → Except CelError (List Bool)
  | [], keep => .ok keep
  | pred :: preds, keep => do
      let keep ← excludePass host cols pred keep
      excludePasses host cols preds keep

/-- The instances of a step whose matrix was counted. -/
def numberedInstances (tc : Toolchain) (step : StepSpec) (matrix : Matrix) :
    Except MatrixProblem (List StepSpec) :=
  let dims := matrix.dimensions.entries
  let cols := columns dims
  let n := (dims.map (·.2.length)).prod
  match excludePasses tc.toHost cols matrix.exclude (List.replicate n true) with
  | .error e => .error (.exclude e)
  | .ok keep =>
      let kept := keptNumbers keep
      if kept.length > maxCompiledSteps then .error .tooManySteps
      else if (kept.map fun c =>
          tc.jsonLen step + 3 * combinationLen (combinationAt cols c)).sum > maxCompiledIrBytes then
        .error .tooLarge
      else .ok (kept.map fun c => instanceOf step (combinationAt cols c))

/-- Expand one authored step, as the compiler counts its combinations. -/
def expandStepNumbered (tc : Toolchain) (step : StepSpec) (work : MatrixWork) :
    Except MatrixProblem (List StepSpec) × MatrixWork :=
  match step.matrix with
  | none => (.ok [step], work)
  | some matrix =>
      match countMatrix matrix work with
      | (.error p, work) => (.error p, work)
      | (.ok (), work) => (numberedInstances tc step matrix, work)

/-- The combination whose value indexes are given. -/
def combinationOf (dims : List (Text × List Text)) (v : List ℕ) : Combination :=
  List.zipWith (fun d i => (d.1, d.2.getD i [])) dims v

theorem columns_cons (d : Text × List Text) (ds : List (Text × List Text)) :
    columns (d :: ds) = ⟨d.1, d.2, (ds.map (·.2.length)).prod⟩ :: columns ds := by
  simp [columns, strides_cons]

theorem combinationAt_columns (dims : List (Text × List Text)) (c : ℕ) :
    combinationAt (columns dims) c = combinationOf dims (digits (dims.map (·.2.length)) c) := by
  induction dims with
  | nil => rfl
  | cons d ds ih =>
    simp only [combinationAt, columns_cons, List.map_cons, digits_cons, combinationOf,
      List.zipWith_cons_cons, List.cons.injEq]
    exact ⟨rfl, ih⟩

theorem flatMap_getD {α β : Type} (xs : List α) (a : α) (f : α → List β) :
    xs.flatMap f = (List.range xs.length).flatMap fun i => f (xs.getD i a) := by
  have hxs : xs = (List.range xs.length).map fun i => xs.getD i a := by
    refine List.ext_getElem (by simp) fun i hi _ => ?_
    simp [List.getD_eq_getElem?_getD, hi]
  conv_lhs => rw [hxs]
  rw [List.flatMap_map]

theorem combinations_eq (dims : List (Text × List Text)) :
    combinations dims = (vectors (dims.map (·.2.length))).map (combinationOf dims) := by
  induction dims with
  | nil => rfl
  | cons d ds ih =>
    rw [combinations, List.map_cons, vectors, flatMap_getD d.2 [], List.map_flatMap]
    refine List.flatMap_congr fun i _ => ?_
    rw [ih, List.map_map, List.map_map]
    rfl

/-- The numbers below the number of combinations stand for the combinations, in order. -/
theorem map_combinationAt (dims : List (Text × List Text)) :
    (List.range (dims.map (·.2.length)).prod).map (combinationAt (columns dims)) =
      combinations dims := by
  rw [combinations_eq, ← map_digits_range, List.map_map]
  exact List.map_congr_left fun c _ => combinationAt_columns dims c

section points

variable {α β ε : Type}

/-- Run `f` on each element, stopping at the first error. -/
def evalEach (f : α → Except ε β) : List α → Except ε (List β)
  | [] => .ok []
  | a :: as =>
      match f a with
      | .error e => .error e
      | .ok b =>
          match evalEach f as with
          | .error e => .error e
          | .ok bs => .ok (b :: bs)

theorem evalEach_ok {f : α → Except ε β} {as : List α} {bs : List β} (h : evalEach f as = .ok bs) :
    List.Forall₂ (fun a b => f a = .ok b) as bs := by
  induction as generalizing bs with
  | nil =>
    obtain rfl : [] = bs := Except.ok.inj h
    exact .nil
  | cons a as ih =>
    rw [evalEach] at h
    cases ha : f a with
    | error e => simp [ha] at h
    | ok b =>
      cases has : evalEach f as with
      | error e => simp [ha, has] at h
      | ok cs =>
        simp only [ha, has] at h
        obtain rfl := Except.ok.inj h
        exact .cons ha (ih has)

/-- The elements whose point is not among those seen, each point once. -/
def firsts (g : α → ℕ) : List ℕ → List α → List α
  | _, [] => []
  | seen, a :: as => if g a ∈ seen then firsts g seen as else a :: firsts g (seen ++ [g a]) as

theorem mem_of_mem_firsts {g : α → ℕ} {as : List α} {seen : List ℕ} {a : α}
    (h : a ∈ firsts g seen as) : a ∈ as ∧ g a ∉ seen := by
  induction as generalizing seen with
  | nil => cases h
  | cons b as ih =>
    rw [firsts] at h
    split_ifs at h with hb
    · exact ⟨List.mem_cons_of_mem _ (ih h).1, (ih h).2⟩
    · rcases List.mem_cons.mp h with rfl | h
      · exact ⟨List.mem_cons_self, hb⟩
      · refine ⟨List.mem_cons_of_mem _ (ih h).1, fun hmem => (ih h).2 ?_⟩
        exact List.mem_append_left _ hmem

theorem nodup_firsts {g : α → ℕ} {as : List α} {seen : List ℕ} :
    ((firsts g seen as).map g).Nodup := by
  induction as generalizing seen with
  | nil => exact List.nodup_nil
  | cons b as ih =>
    rw [firsts]
    split_ifs with hb
    · exact ih
    · rw [List.map_cons, List.nodup_cons]
      refine ⟨fun hmem => ?_, ih⟩
      obtain ⟨a, ha, heq⟩ := List.mem_map.mp hmem
      exact (mem_of_mem_firsts ha).2 (by simp [heq])

/-- Every element has its point seen or among the first ones. -/
theorem exists_firsts (g : α → ℕ) {as : List α} (seen : List ℕ) {a : α} (h : a ∈ as) :
    g a ∈ seen ∨ ∃ b ∈ firsts g seen as, g b = g a := by
  induction as generalizing seen with
  | nil => cases h
  | cons b as ih =>
    rw [firsts]
    rcases List.mem_cons.mp h with rfl | h
    · split_ifs with hb
      · exact .inl hb
      · exact .inr ⟨a, List.mem_cons_self, rfl⟩
    · split_ifs with hb
      · exact ih seen h
      · rcases ih (seen ++ [g b]) h with hseen | ⟨c, hc, heq⟩
        · rcases List.mem_append.mp hseen with hseen | hseen
          · exact .inl hseen
          · rw [List.mem_singleton] at hseen
            exact .inr ⟨b, List.mem_cons_self, hseen.symm⟩
        · exact .inr ⟨c, List.mem_cons_of_mem _ hc, heq⟩

/-- Where `f` depends on the point only, the first error over the first elements of each point
is the first error over all. -/
theorem evalEach_firsts_error {f : α → Except ε β} {g : α → ℕ}
    (hf : ∀ a b, g a = g b → f a = f b) {as : List α} {seen : List ℕ}
    (hseen : ∀ a, g a ∈ seen → ∃ b, f a = .ok b) {e : ε} :
    evalEach f (firsts g seen as) = .error e ↔ evalEach f as = .error e := by
  induction as generalizing seen with
  | nil => simp [firsts]
  | cons a as ih =>
    rw [firsts, evalEach]
    split_ifs with ha
    · obtain ⟨b, hb⟩ := hseen a ha
      rw [ih hseen, hb]
      cases evalEach f as <;> simp
    · rw [evalEach]
      cases hb : f a with
      | error e' => simp
      | ok b =>
        have hnext : ∀ c, g c ∈ seen ++ [g a] → ∃ b, f c = .ok b := by
          intro c hc
          rcases List.mem_append.mp hc with hc | hc
          · exact hseen c hc
          · exact ⟨b, by rw [hf c a (List.mem_singleton.mp hc), hb]⟩
        have hrest := ih hnext
        cases h₁ : evalEach f (firsts g (seen ++ [g a]) as) <;> cases h₂ : evalEach f as <;>
          simp_all

end points

section wanted

variable {point : ℕ → ℕ} {size : ℕ}

theorem foldl_wantPoint {cs : List ℕ} (hsize : ∀ c ∈ cs, point c < size) {wanted : List Bool}
    {points : List ℕ} (hlen : wanted.length = size)
    (hwanted : ∀ p < size, wanted.getD p true = true ↔ p ∈ points) :
    (cs.foldl (wantPoint point) (wanted, points)).2 =
      points ++ (firsts point points cs).map point := by
  induction cs generalizing wanted points with
  | nil => simp [firsts]
  | cons c cs ih =>
    have hc : point c < size := hsize c List.mem_cons_self
    have htail : ∀ c ∈ cs, point c < size := fun d hd => hsize d (List.mem_cons_of_mem _ hd)
    rw [List.foldl_cons, firsts, wantPoint]
    dsimp only
    by_cases hmem : point c ∈ points
    · rw [if_pos ((hwanted _ hc).mpr hmem), if_pos hmem]
      exact ih htail hlen hwanted
    · rw [if_neg fun h => hmem ((hwanted _ hc).mp h), if_neg hmem]
      have hnext : ∀ p < size, (wanted.set (point c) true).getD p true = true ↔
          p ∈ points ++ [point c] := by
        intro p hp
        by_cases heq : p = point c
        · subst heq
          simp [List.getD_eq_getElem?_getD, hlen, hc]
        · have hset : (wanted.set (point c) true).getD p true = wanted.getD p true := by
            simp [List.getD_eq_getElem?_getD, Ne.symm heq]
          rw [hset, hwanted p hp]
          simp [heq]
      rw [ih htail (by simpa using hlen) hnext]
      simp

theorem wantedPoints_eq {cs : List ℕ} (hsize : ∀ c ∈ cs, point c < size) :
    wantedPoints point size cs = (firsts point [] cs).map point := by
  have hnone : ∀ p < size, (List.replicate size false).getD p true = true ↔ p ∈ ([] : List ℕ) := by
    intro p hp
    simp [List.getD_eq_getElem?_getD, hp]
  rw [wantedPoints, foldl_wantPoint hsize List.length_replicate hnone, List.nil_append]

theorem foldl_set_of_notMem {answers : List (ℕ × Bool)} {p : ℕ} (h : p ∉ answers.map (·.1))
    (table : List Bool) :
    (answers.foldl (fun table a => table.set a.1 a.2) table).getD p false = table.getD p false := by
  induction answers generalizing table with
  | nil => rfl
  | cons a answers ih =>
    rw [List.map_cons, List.mem_cons, not_or] at h
    rw [List.foldl_cons, ih h.2]
    simp [List.getD_eq_getElem?_getD, Ne.symm h.1]

theorem foldl_set_of_mem {answers : List (ℕ × Bool)} (hpoints : (answers.map (·.1)).Nodup)
    {p : ℕ} {b : Bool} (h : (p, b) ∈ answers) {table : List Bool} (hp : p < table.length) :
    (answers.foldl (fun table a => table.set a.1 a.2) table).getD p false = b := by
  induction answers generalizing table with
  | nil => cases h
  | cons a answers ih =>
    rw [List.map_cons, List.nodup_cons] at hpoints
    rw [List.foldl_cons]
    rcases List.mem_cons.mp h with rfl | h
    · rw [foldl_set_of_notMem hpoints.1]
      simp [List.getD_eq_getElem?_getD, hp]
    · exact ih hpoints.2 h (by simpa using hp)

end wanted

theorem bindPoint_eq (ds : List (Text × List Text)) (p : ℕ) (ctx : Ctx) :
    bindPoint ds p ctx = ctx.insertAll (List.zipWith
      (fun d i => (d.1, Json.string (d.2.getD i []))) ds
      (digitsBack (ds.map fun d => max d.2.length 1) p)) := by
  induction ds generalizing p ctx with
  | nil => rfl
  | cons d ds ih =>
    rw [bindPoint, ih]
    rfl

theorem pointOf_eq (varying : List Column) (c : ℕ) :
    pointOf varying c =
      numberFrom 0 (varying.map (·.values.length)) (varying.map (·.index c)) := by
  rw [pointOf, numberFrom, List.zip_map', List.foldl_map]

theorem Column.index_lt {d : Column} (h : d.values ≠ []) (c : ℕ) : d.index c < d.values.length :=
  Nat.mod_lt _ (List.length_pos_iff.mpr h)

theorem index_forall₂ {varying : List Column} (h : ∀ d ∈ varying, d.values ≠ []) (c : ℕ) :
    List.Forall₂ (· < ·) (varying.map (·.index c)) (varying.map (·.values.length)) := by
  induction varying with
  | nil => exact .nil
  | cons d ds ih =>
    refine .cons (Column.index_lt (h d List.mem_cons_self) c) (ih fun x hx => ?_)
    exact h x (List.mem_cons_of_mem _ hx)

theorem pointOf_lt {varying : List Column} (h : ∀ d ∈ varying, d.values ≠ []) (c : ℕ) :
    pointOf varying c < pointCount varying := by
  have hlt := numberFrom_lt (index_forall₂ h c) 0
  rw [pointOf_eq, pointCount]
  omega

/-- The variables a combination binds. -/
def boundVars (cols : List Column) (c : ℕ) : List (Text × Json) :=
  cols.map fun d => (d.name, Json.string (d.value c))

theorem bindPoint_pointOf {varying : List Column} (h : ∀ d ∈ varying, d.values ≠ []) (c : ℕ)
    (ctx : Ctx) :
    bindPoint (varying.map fun d => (d.name, d.values)).reverse (pointOf varying c) ctx =
      ctx.insertAll (boundVars varying c).reverse := by
  have hlens : (varying.map fun d => (d.name, d.values)).reverse.map (fun d => max d.2.length 1) =
      (varying.map (·.values.length)).reverse := by
    rw [List.map_reverse, List.map_map]
    congr 1
    refine List.map_congr_left fun d hd => ?_
    have hpos := List.length_pos_iff.mpr (h d hd)
    simp only [Function.comp_apply]
    omega
  have hback := digitsBack_numberFrom (index_forall₂ h c) 0 []
  rw [List.append_nil, digitsBack, List.append_nil] at hback
  rw [bindPoint_eq, hlens, pointOf_eq, hback, ← List.map_reverse, ← List.map_reverse,
    List.zipWith_map, boundVars, ← List.map_reverse, List.zipWith_self]
  rfl

section context

variable {cols : List Column} (hnames : (cols.map (·.name)).Nodup)

include hnames

theorem names_filter_nodup (p : Column → Bool) : ((cols.filter p).map (·.name)).Nodup :=
  hnames.sublist (List.filter_sublist.map _)

theorem boundVars_get {p : Column → Bool} {d : Column} (hd : d ∈ cols.filter p) (c : ℕ) (m : Ctx) :
    (m.insertAll (boundVars (cols.filter p) c)).get d.name = some (.string (d.value c)) := by
  have hmem : (d.name, Json.string (d.value c)) ∈ boundVars (cols.filter p) c :=
    List.mem_map.mpr ⟨d, hd, rfl⟩
  refine SortedMap.get_insertAll_of_mem ?_ hmem m
  simpa [boundVars, Function.comp_def] using names_filter_nodup hnames p

theorem boundVars_reverse_get {p : Column → Bool} {d : Column} (hd : d ∈ cols.filter p) (c : ℕ)
    (m : Ctx) :
    (m.insertAll (boundVars (cols.filter p) c).reverse).get d.name = some (.string (d.value c)) := by
  have hmem : (d.name, Json.string (d.value c)) ∈ (boundVars (cols.filter p) c).reverse :=
    List.mem_reverse.mpr (List.mem_map.mpr ⟨d, hd, rfl⟩)
  refine SortedMap.get_insertAll_of_mem ?_ hmem m
  rw [List.map_reverse, List.nodup_reverse]
  simpa [boundVars, Function.comp_def] using names_filter_nodup hnames p

omit hnames in
theorem combinationCtx_combinationAt (vars : List Text) (c : ℕ) :
    combinationCtx vars (combinationAt cols c) =
      SortedMap.ofList (boundVars (cols.filter fun d => d.name ∈ vars) c) := by
  rw [combinationCtx, combinationAt, List.filter_map, List.map_map]
  rfl

/-- Binding a combination's point over the fixed dimensions gives the context of the read
dimensions, whatever the last point bound. -/
theorem bindPoint_context (vars : List Text) (hvalues : ∀ d ∈ cols, d.values ≠ []) {ctx : Ctx}
    (hctx : ∀ k, k ∉ (varyingColumns vars cols).map (·.name) → ctx.get k =
      (SortedMap.ofList (((fixedColumns vars cols).map fun d => (d.name, d.values.headD [])).map
        fun f => (f.1, Json.string f.2))).get k) (c : ℕ) :
    bindPoint ((varyingColumns vars cols).map fun d => (d.name, d.values)).reverse
      (pointOf (varyingColumns vars cols) c) ctx = combinationCtx vars (combinationAt cols c) := by
  have hvarying : ∀ d ∈ varyingColumns vars cols, d.values ≠ [] :=
    fun d hd => hvalues d (List.mem_of_mem_filter hd)
  have hfixed : ((fixedColumns vars cols).map fun d => (d.name, d.values.headD [])).map
      (fun f => (f.1, Json.string f.2)) = boundVars (fixedColumns vars cols) c := by
    rw [List.map_map, boundVars]
    refine List.map_congr_left fun d hd => ?_
    have hone : d.values.length = 1 := by
      have hkeep := (List.mem_filter.mp hd).2
      rw [Bool.and_eq_true] at hkeep
      exact of_decide_eq_true hkeep.2
    obtain ⟨v, hv⟩ := List.length_eq_one_iff.mp hone
    have hzero : d.index c = 0 := by
      rw [Column.index, hone, Nat.mod_one]
    simp [Column.value, hzero, hv]
  rw [hfixed] at hctx
  rw [bindPoint_pointOf hvarying, combinationCtx_combinationAt]
  refine SortedMap.ext_get fun k => ?_
  by_cases hk : ∃ d ∈ cols, d.name = k ∧ k ∈ vars
  · obtain ⟨d, hd, rfl, hvar⟩ := hk
    have hread : d ∈ cols.filter fun d => d.name ∈ vars := List.mem_filter.mpr ⟨hd, by simpa using hvar⟩
    rw [SortedMap.ofList, boundVars_get hnames hread]
    by_cases hone : d.values.length = 1
    · have hmem : d ∈ fixedColumns vars cols := List.mem_filter.mpr ⟨hd, by simp [hvar, hone]⟩
      have hnot : d.name ∉ (varyingColumns vars cols).map (·.name) := by
        intro hname
        obtain ⟨d', hd', heq⟩ := List.mem_map.mp hname
        obtain ⟨hmem', hkeep⟩ := List.mem_filter.mp hd'
        obtain rfl : d' = d := List.inj_on_of_nodup_map hnames hmem' hd heq
        simp [hone] at hkeep
      rw [SortedMap.get_insertAll_of_notMem, hctx _ hnot, SortedMap.ofList, fixedColumns,
        boundVars_get hnames hmem]
      simpa [boundVars, Function.comp_def] using hnot
    · have hmem : d ∈ varyingColumns vars cols := List.mem_filter.mpr ⟨hd, by simp [hvar, hone]⟩
      exact boundVars_reverse_get hnames hmem c ctx
  · have hoff : ∀ q : Column → Bool, (∀ d, q d = true → d.name ∈ vars) →
        k ∉ (boundVars (cols.filter q) c).map (·.1) := by
      intro q hq hmem
      obtain ⟨b, hb, rfl⟩ := List.mem_map.mp hmem
      obtain ⟨d, hd, rfl⟩ := List.mem_map.mp hb
      obtain ⟨hcol, hkeep⟩ := List.mem_filter.mp hd
      exact hk ⟨d, hcol, rfl, hq d hkeep⟩
    have hread := hoff (fun d => d.name ∈ vars) fun d h => of_decide_eq_true h
    have hvary := hoff (fun d => d.name ∈ vars && d.values.length ≠ 1) fun d h => by
      rw [Bool.and_eq_true] at h
      exact of_decide_eq_true h.1
    have hfix := hoff (fun d => d.name ∈ vars && d.values.length = 1) fun d h => by
      rw [Bool.and_eq_true] at h
      exact of_decide_eq_true h.1
    rw [SortedMap.ofList, SortedMap.get_insertAll_of_notMem hread,
      SortedMap.get_insertAll_of_notMem (by simpa [varyingColumns] using hvary), hctx k, SortedMap.ofList,
      fixedColumns, SortedMap.get_insertAll_of_notMem hfix]
    simpa [varyingColumns, boundVars, Function.comp_def] using hvary

end context

section passes

variable {host : Host} {cols : List Column}

/-- A predicate at a combination, once it is parsed. -/
def excludesAt (host : Host) (pred : Text) (e : Expr) (vars : List Text) (cols : List Column)
    (c : ℕ) : Except CelError Bool :=
  executeBool host pred e (combinationCtx vars (combinationAt cols c))

theorem evalBool_of_program {pred : Text} {e : Expr} (h : host.program pred = .ok e) (ctx : Ctx) :
    host.evalBool pred ctx = executeBool host pred e ctx := by
  simp only [Host.evalBool, Host.eval, h, Bind.bind, Except.bind, executeBool]
  cases hout : host.execute e ctx with
  | error why => simp
  | ok v => cases v <;> simp

theorem evalPoints_eq {pred : Text} {e : Expr} {vars : List Text}
    (hnames : (cols.map (·.name)).Nodup) (hvalues : ∀ d ∈ cols, d.values ≠ []) {ctx : Ctx}
    (hctx : ∀ k, k ∉ (varyingColumns vars cols).map (·.name) → ctx.get k =
      (SortedMap.ofList (((fixedColumns vars cols).map fun d => (d.name, d.values.headD [])).map
        fun f => (f.1, Json.string f.2))).get k) (cs : List ℕ) :
    evalPoints host pred e ((varyingColumns vars cols).map fun d => (d.name, d.values))
      (cs.map (pointOf (varyingColumns vars cols))) ctx =
      evalEach (excludesAt host pred e vars cols) cs := by
  induction cs generalizing ctx with
  | nil => rfl
  | cons c cs ih =>
    have hvarying : ∀ d ∈ varyingColumns vars cols, d.values ≠ [] :=
      fun d hd => hvalues d (List.mem_of_mem_filter hd)
    have hnext := bindPoint_context hnames vars hvalues hctx c
    have hkeeps : ∀ k, k ∉ (varyingColumns vars cols).map (·.name) →
        (combinationCtx vars (combinationAt cols c)).get k = ctx.get k := by
      intro k hk
      rw [← hnext, bindPoint_pointOf hvarying, SortedMap.get_insertAll_of_notMem]
      simpa [boundVars, Function.comp_def] using hk
    have hrest := ih fun k hk => (hkeeps k hk).trans (hctx k hk)
    simp only [List.map_cons, evalPoints, evalEach, hnext, hrest, Bind.bind, Except.bind, excludesAt]
    cases executeBool host pred e (combinationCtx vars (combinationAt cols c)) with
    | error x => rfl
    | ok out =>
      dsimp only
      cases evalEach (excludesAt host pred e vars cols) cs <;> rfl

/-- The combinations one predicate leaves, read off its values. -/
theorem excludeBy_eq {pred : Text} {e : Expr} {vars : List Text} (h : host.program pred = .ok e)
    (cs : List ℕ) :
    excludeBy host pred vars (cs.map (combinationAt cols)) =
      (evalEach (excludesAt host pred e vars cols) cs).map fun _ =>
        (cs.filter fun c => (excludesAt host pred e vars cols c).toOption ≠ some true).map
          (combinationAt cols) := by
  induction cs with
  | nil => rfl
  | cons c cs ih =>
    have hc : host.evalBool pred (combinationCtx vars (combinationAt cols c)) =
        excludesAt host pred e vars cols c := evalBool_of_program h _
    simp only [List.map_cons, excludeBy, hc, ih, Bind.bind, Except.bind, evalEach, List.filter_cons]
    cases hout : excludesAt host pred e vars cols c with
    | error x => rfl
    | ok out =>
      cases hrest : evalEach (excludesAt host pred e vars cols) cs with
      | error x => rfl
      | ok outs => cases out <;> simp [Except.map, Except.toOption]

theorem excludesAt_congr {pred : Text} {e : Expr} {vars : List Text}
    (hnames : (cols.map (·.name)).Nodup) (hvalues : ∀ d ∈ cols, d.values ≠ []) {c c' : ℕ}
    (h : pointOf (varyingColumns vars cols) c = pointOf (varyingColumns vars cols) c') :
    excludesAt host pred e vars cols c = excludesAt host pred e vars cols c' := by
  have hat := bindPoint_context hnames vars hvalues fun k _ => rfl
  rw [excludesAt, excludesAt, ← hat c, ← hat c', h]

/-- A table of the values at the first combination of each point has the value of every
combination. -/
theorem answerTable_point {pred : Text} {e : Expr} {vars : List Text}
    (hnames : (cols.map (·.name)).Nodup) (hvalues : ∀ d ∈ cols, d.values ≠ []) {cs : List ℕ}
    {outs : List Bool}
    (houts : evalEach (excludesAt host pred e vars cols)
      (firsts (pointOf (varyingColumns vars cols)) [] cs) = .ok outs) {c : ℕ} (hc : c ∈ cs) :
    excludesAt host pred e vars cols c =
      .ok ((answerTable (pointCount (varyingColumns vars cols))
        (((firsts (pointOf (varyingColumns vars cols)) [] cs).map
          (pointOf (varyingColumns vars cols))).zip outs)).getD
        (pointOf (varyingColumns vars cols) c) false) := by
  set point := pointOf (varyingColumns vars cols) with hpoint
  have hall := evalEach_ok houts
  have hlen : (firsts point [] cs).length = outs.length := hall.length_eq
  rcases exists_firsts point [] hc with hseen | ⟨b, hb, heq⟩
  · cases hseen
  · obtain ⟨i, hi, rfl⟩ := List.getElem_of_mem hb
    have hout := (List.forall₂_iff_get.mp hall).2 i hi (hlen ▸ hi)
    simp only [List.get_eq_getElem] at hout
    have hlt : point c < pointCount (varyingColumns vars cols) :=
      pointOf_lt (fun d hd => hvalues d (List.mem_of_mem_filter hd)) c
    have hkeys : ((((firsts point [] cs).map point).zip outs).map (·.1)).Nodup := by
      rw [List.map_fst_zip (by simp [hlen])]
      exact nodup_firsts
    have hmem : (point c, outs[i]) ∈ ((firsts point [] cs).map point).zip outs := by
      rw [List.mem_iff_getElem]
      exact ⟨i, by simp [hi, ← hlen], by simp [heq]⟩
    rw [answerTable, foldl_set_of_mem hkeys hmem (by simpa using hlt), ← hout]
    exact (excludesAt_congr hnames hvalues heq).symm

theorem keptNumbers_mapIdx (keep : List Bool) (f : ℕ → Bool) :
    keptNumbers (keep.mapIdx fun c k => k && !f c) = (keptNumbers keep).filter fun c => !f c := by
  rw [keptNumbers, keptNumbers, List.filter_filter, List.length_mapIdx]
  refine List.filter_congr fun c hc => ?_
  have hc : c < keep.length := List.mem_range.mp hc
  simp [List.getD_eq_getElem?_getD, hc, Bool.and_comm]

theorem reads_eq {pred : Text} {e : Expr} (h : host.program pred = .ok e) :
    host.reads pred = .ok e.reads := by
  simp [Host.reads, h, Bind.bind, Except.bind]

/-- One pass keeps the numbers of the combinations its predicate does not exclude. -/
theorem excludePass_eq (host : Host) (hnames : (cols.map (·.name)).Nodup) (hvalues : ∀ d ∈ cols, d.values ≠ [])
    (pred : Text) (keep : List Bool) :
    (excludePass host cols pred keep).map (fun k => (keptNumbers k).map (combinationAt cols)) =
      (do
        let reads ← host.reads pred
        excludeBy host pred (reads.map (·.var)) ((keptNumbers keep).map (combinationAt cols))) := by
  cases hprog : host.program pred with
  | error x => simp [excludePass, Host.reads, hprog, Bind.bind, Except.bind, Except.map]
  | ok e =>
    have hpoint : ∀ c ∈ keptNumbers keep,
        pointOf (varyingColumns (e.reads.map (·.var)) cols) c <
          pointCount (varyingColumns (e.reads.map (·.var)) cols) :=
      fun c _ => pointOf_lt (fun d hd => hvalues d (List.mem_of_mem_filter hd)) c
    simp only [excludePass, reads_eq hprog, Bind.bind, Except.bind, excludeBy_eq hprog, evalBoolProduct,
      hprog, wantedPoints_eq hpoint, evalPoints_eq hnames hvalues fun _ _ => rfl]
    have herror := @evalEach_firsts_error _ _ _ (excludesAt host pred e (e.reads.map (·.var)) cols)
      (pointOf (varyingColumns (e.reads.map (·.var)) cols))
      (fun c c' => excludesAt_congr hnames hvalues) (keptNumbers keep) [] (fun a h => by cases h)
    cases hfirst : evalEach (excludesAt host pred e (e.reads.map (·.var)) cols)
        (firsts (pointOf (varyingColumns (e.reads.map (·.var)) cols)) [] (keptNumbers keep)) with
    | error x => simp [herror.mp hfirst, Except.map]
    | ok outs =>
      cases hall : evalEach (excludesAt host pred e (e.reads.map (·.var)) cols)
          (keptNumbers keep) with
      | error x =>
        rw [herror.mpr hall] at hfirst
        cases hfirst
      | ok bs =>
        simp only [Except.map, Except.ok.injEq]
        rw [keptNumbers_mapIdx]
        congr 1
        refine List.filter_congr fun c hc => ?_
        rw [answerTable_point hnames hvalues hfirst hc]
        simp [Except.toOption]

theorem excludePasses_eq (host : Host) (hnames : (cols.map (·.name)).Nodup)
    (hvalues : ∀ d ∈ cols, d.values ≠ []) (preds : List Text) (keep : List Bool) :
    (excludePasses host cols preds keep).map (fun k => (keptNumbers k).map (combinationAt cols)) =
      keptCombinations host preds ((keptNumbers keep).map (combinationAt cols)) := by
  induction preds generalizing keep with
  | nil => rfl
  | cons pred preds ih =>
    have hpass := excludePass_eq host hnames hvalues pred keep
    simp only [excludePasses, keptCombinations, Bind.bind, Except.bind] at hpass ⊢
    cases hk : excludePass host cols pred keep with
    | error x =>
      simp only [hk, Except.map] at hpass ⊢
      cases hreads : host.reads pred with
      | error y => simpa [hreads] using hpass
      | ok rs =>
        simp only [hreads] at hpass ⊢
        rw [← hpass]
    | ok keep' =>
      simp only [hk, Except.map] at hpass ⊢
      cases hreads : host.reads pred with
      | error y => simp [hreads] at hpass
      | ok rs =>
        simp only [hreads] at hpass ⊢
        rw [← hpass]
        exact ih keep'

end passes

theorem columns_names (dims : List (Text × List Text)) :
    (columns dims).map (·.name) = dims.map (·.1) := by
  induction dims with
  | nil => rfl
  | cons d ds ih => rw [columns_cons, List.map_cons, List.map_cons, ih]

theorem columns_values (dims : List (Text × List Text)) :
    (columns dims).map (·.values) = dims.map (·.2) := by
  induction dims with
  | nil => rfl
  | cons d ds ih => rw [columns_cons, List.map_cons, List.map_cons, ih]

/-- A matrix within the bounds a compile checks before it looks at a predicate. -/
structure Matrix.Counted (matrix : Matrix) (work : MatrixWork) : Prop where
  dimensions : matrix.dimensions.entries ≠ []
  values : ∀ d ∈ matrix.dimensions.entries, d.2 ≠ []
  combinations : (matrix.dimensions.entries.map (·.2.length)).prod ≤ maxMatrixCombinations
  inCompile : work.combinations + (matrix.dimensions.entries.map (·.2.length)).prod ≤
    maxMatrixCombinationsPerCompile
  excludes : matrix.exclude.length ≤ maxMatrixExcludes
  checks : work.checks + (matrix.dimensions.entries.map (·.2.length)).prod *
    matrix.exclude.length ≤ maxMatrixExcludeChecks

theorem countMatrix_ok_iff {matrix : Matrix} {work : MatrixWork} :
    (countMatrix matrix work).1 = .ok () ↔ matrix.Counted work := by
  have hvalues : (matrix.dimensions.entries.find? fun d => d.2 = []) = none ↔
      ∀ d ∈ matrix.dimensions.entries, d.2 ≠ [] := by simp
  simp only [countMatrix]
  constructor
  · intro h
    cases hfind : matrix.dimensions.entries.find? fun d => d.2 = [] with
    | some d =>
      simp only [hfind] at h
      split_ifs at h
    | none =>
      simp only [hfind] at h
      split_ifs at h with hdims h₁ h₂ h₃ h₄
      exact ⟨hdims, hvalues.mp hfind, by omega, by omega, by omega, by omega⟩
  · intro h
    have h₁ := h.combinations
    have h₂ := h.inCompile
    have h₃ := h.excludes
    have h₄ := h.checks
    rw [if_neg h.dimensions, hvalues.mpr h.values]
    dsimp only
    rw [if_neg (by omega), if_neg (by omega), if_neg (by omega), if_neg (by omega)]

theorem keptNumbers_replicate (n : ℕ) : keptNumbers (List.replicate n true) = List.range n := by
  rw [keptNumbers, List.length_replicate, List.filter_eq_self]
  intro c hc
  have hc : c < n := List.mem_range.mp hc
  simp [List.getD_eq_getElem?_getD, hc]

theorem numberedInstances_eq (tc : Toolchain) (step : StepSpec) {matrix : Matrix}
    (hvalues : ∀ d ∈ matrix.dimensions.entries, d.2 ≠ []) :
    numberedInstances tc step matrix = matrixInstances tc step matrix := by
  set dims := matrix.dimensions.entries with hdims
  have hnames : ((columns dims).map (·.name)).Nodup := by
    rw [columns_names]
    refine (List.pairwise_map.mpr matrix.dimensions.sorted).imp fun {a b} h => h.ne
  have hcols : ∀ d ∈ columns dims, d.values ≠ [] := by
    intro d hd
    have hmem : d.values ∈ dims.map (·.2) := columns_values dims ▸ List.mem_map_of_mem hd
    obtain ⟨x, hx, heq⟩ := List.mem_map.mp hmem
    exact heq ▸ hvalues x hx
  have hkept := excludePasses_eq tc.toHost hnames hcols matrix.exclude
    (List.replicate (dims.map (·.2.length)).prod true)
  rw [keptNumbers_replicate, map_combinationAt] at hkept
  simp only [numberedInstances, matrixInstances, ← hdims, ← hkept]
  cases excludePasses tc.toHost (columns dims) matrix.exclude
      (List.replicate (dims.map (·.2.length)).prod true) with
  | error x => rfl
  | ok keep => simp [Except.map, List.map_map, Function.comp_def]

/-- Numbering the combinations changes nothing: the instances, the work counted and the first
error are those of the product. -/
theorem expandStepNumbered_eq (tc : Toolchain) (step : StepSpec) (work : MatrixWork) :
    expandStepNumbered tc step work = expandStep tc step work := by
  unfold expandStepNumbered expandStep
  cases step.matrix with
  | none => rfl
  | some matrix =>
    dsimp only
    rcases hcount : countMatrix matrix work with ⟨_ | _, work'⟩
    · rfl
    · have hcounted := countMatrix_ok_iff.mp (congrArg Prod.fst hcount)
      rw [numberedInstances_eq tc step hcounted.values]

end Scarab.Pipeline
