import Scarab.MatrixExpansion

/-!
# What a file becomes when nothing is capped

Every invoke step is replaced by copies of its library, one for each combination its matrix
keeps, and then every matrix by its combinations. A library is unfolded once however many
copies it leaves, which is how the compiler counts its expansions.
-/
namespace Scarab.Pipeline

/-- A file's nodes, how many invoke steps were replaced to get them, and how many of them lie
above one node at most. -/
structure Unfolding where
  nodes : List Text
  invokes : ℕ
  depth : ℕ

/-- The copies of a library's nodes under an invoke step. -/
def copiesOf (tc : Toolchain) (step : StepSpec) (nodes : List Text) : List Text :=
  (suffixes tc step.matrix).flatMap fun x => nodes.map (ns (step.id ++ x))

/-- What steps under `under` libraries become. A file with an invoke cycle, or with libraries
nested past the depth cap, becomes nothing; nor does one with a matrix that keeps no
combination. -/
inductive Unfolds (tc : Toolchain) (libs : Libraries) : ℕ → List StepSpec → Unfolding → Prop
  | nil {under : ℕ} : Unfolds tc libs under [] ⟨[], 0, 0⟩
  | run {under : ℕ} {step : StepSpec} {rest : List StepSpec} {u : Unfolding}
      (hinvoke : step.invoke = none) (hkept : suffixes tc step.matrix ≠ [])
      (hrest : Unfolds tc libs under rest u) :
      Unfolds tc libs under (step :: rest) ⟨compiledIds tc step ++ u.nodes, u.invokes, u.depth⟩
  | gate {under : ℕ} {step : StepSpec} {rest : List StepSpec} {u : Unfolding} {raw name : Text}
      (hinvoke : step.invoke = some raw) (htarget : parseInvokeTarget raw = .ok (.plugin name))
      (hkept : suffixes tc step.matrix ≠ []) (hrest : Unfolds tc libs under rest u) :
      Unfolds tc libs under (step :: rest)
        ⟨compiledIds tc step ++ u.nodes, 1 + u.invokes, max 1 u.depth⟩
  | library {under : ℕ} {step : StepSpec} {rest : List StepSpec} {u inner : Unfolding} {raw : Text}
      {target : InvokeTarget} {source : LibrarySource} {lib : PipelineIr}
      (hinvoke : step.invoke = some raw) (htarget : parseInvokeTarget raw = .ok target)
      (hsource : librarySource libs target = .ok source)
      (hparse : tc.parseYaml source.src = .ok lib) (hsteps : lib.steps ≠ [])
      (hunder : under < maxInvokeDepth) (hkept : suffixes tc step.matrix ≠ [])
      (hinner : Unfolds tc libs (under + 1) lib.steps inner)
      (hrest : Unfolds tc libs under rest u) :
      Unfolds tc libs under (step :: rest)
        ⟨copiesOf tc step inner.nodes ++ u.nodes, inner.invokes + 1 + u.invokes,
          max (inner.depth + 1) u.depth⟩

section counting

variable {tc : Toolchain} {libs : Libraries} {under : ℕ} {steps : List StepSpec} {u : Unfolding}

theorem compiledIds_length (s : StepSpec) :
    (compiledIds tc s).length = (suffixes tc s.matrix).length := by
  simp [compiledIds]

theorem compiledIds_pos {s : StepSpec} (h : suffixes tc s.matrix ≠ []) :
    0 < (compiledIds tc s).length := by
  rw [compiledIds_length]
  exact List.length_pos_iff.mpr h

theorem copiesOf_length (step : StepSpec) (nodes : List Text) :
    (copiesOf tc step nodes).length = (suffixes tc step.matrix).length * nodes.length := by
  simp [copiesOf, List.length_flatMap]

/-- Every invoke step that keeps a combination leaves at least one whole copy. -/
theorem le_copiesOf_length {step : StepSpec} (h : suffixes tc step.matrix ≠ [])
    (nodes : List Text) : nodes.length ≤ (copiesOf tc step nodes).length := by
  have hpos : 0 < (suffixes tc step.matrix).length := List.length_pos_iff.mpr h
  rw [copiesOf_length]
  exact Nat.le_mul_of_pos_left _ hpos

theorem Unfolds.nodes_ne_nil (h : Unfolds tc libs under steps u) (hsteps : steps ≠ []) :
    u.nodes ≠ [] := by
  have hpos : 0 < u.nodes.length := by
    induction h with
    | nil => exact absurd rfl hsteps
    | run _ hkept => simpa using .inl (compiledIds_pos hkept)
    | gate _ _ hkept => simpa using .inl (compiledIds_pos hkept)
    | @library _ _ _ _ inner _ _ _ _ _ _ _ _ hlib _ hkept _ _ ihinner =>
      have hinner := ihinner hlib
      have hcopies := le_copiesOf_length hkept inner.nodes
      simp only [List.length_append]
      omega
  exact List.length_pos_iff.mp hpos

/-- The steps of a file unfold one by one. -/
theorem Unfolds.cons {step : StepSpec} {rest : List StepSpec}
    (h : Unfolds tc libs under (step :: rest) u) : ∃ first others,
      Unfolds tc libs under [step] first ∧ Unfolds tc libs under rest others ∧
      u.nodes = first.nodes ++ others.nodes ∧ u.invokes = first.invokes + others.invokes := by
  cases h with
  | run hinvoke hkept hrest => exact ⟨_, _, .run hinvoke hkept .nil, hrest, by simp, by simp⟩
  | gate hinvoke htarget hkept hrest =>
    exact ⟨_, _, .gate hinvoke htarget hkept .nil, hrest, by simp, by simp⟩
  | library hinvoke htarget hsource hparse hsteps hunder hkept hinner hrest =>
    exact ⟨_, _, .library hinvoke htarget hsource hparse hsteps hunder hkept hinner .nil, hrest,
      by simp, by simp⟩

/-- Each invoke step is above some node, and no node has more than `depth` of them. -/
theorem Unfolds.invokes_le (h : Unfolds tc libs under steps u) :
    u.invokes ≤ u.depth * u.nodes.length := by
  induction h with
  | nil => exact Nat.zero_le _
  | @run under step rest u hinvoke hkept hrest ih =>
    simp only [List.length_append]
    calc u.invokes ≤ u.depth * u.nodes.length := ih
      _ ≤ u.depth * ((compiledIds tc step).length + u.nodes.length) :=
        Nat.mul_le_mul_left _ (Nat.le_add_left _ _)
  | @gate under step rest u raw name hinvoke htarget hkept hrest ih =>
    have hpos := compiledIds_pos hkept
    have hown : 1 ≤ max 1 u.depth * (compiledIds tc step).length :=
      Nat.mul_pos (Nat.le_max_left 1 u.depth) hpos
    have hothers : u.invokes ≤ max 1 u.depth * u.nodes.length :=
      ih.trans (Nat.mul_le_mul_right _ (Nat.le_max_right _ _))
    simp only [List.length_append, Nat.mul_add]
    omega
  | @library under step rest u inner raw target source lib hinvoke htarget hsource hparse hsteps
      hunder hkept hinner hrest ihinner ih =>
    have hpos : 0 < inner.nodes.length := List.length_pos_iff.mpr (hinner.nodes_ne_nil hsteps)
    have hcopies := le_copiesOf_length hkept inner.nodes
    have hown : inner.invokes + 1 ≤
        max (inner.depth + 1) u.depth * (copiesOf tc step inner.nodes).length := by
      calc inner.invokes + 1 ≤ inner.depth * inner.nodes.length + inner.nodes.length := by omega
        _ = (inner.depth + 1) * inner.nodes.length := (Nat.succ_mul _ _).symm
        _ ≤ _ := Nat.mul_le_mul (Nat.le_max_left _ _) hcopies
    have hothers : u.invokes ≤ max (inner.depth + 1) u.depth * u.nodes.length :=
      ih.trans (Nat.mul_le_mul_right _ (Nat.le_max_right _ _))
    simp only [List.length_append, Nat.mul_add]
    omega

end counting

end Scarab.Pipeline
