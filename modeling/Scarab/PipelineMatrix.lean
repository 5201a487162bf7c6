import Scarab.PipelineFiles

/-!
# Matrix expansion

A step with a matrix becomes one instance for each combination of its dimensions that no
`exclude` predicate removes.
-/
namespace Scarab.Pipeline

def maxCompiledSteps : ℕ := 1024
def maxMatrixCombinations : ℕ := 65536
def maxMatrixExcludes : ℕ := 256
def maxMatrixExcludeChecks : ℕ := 2 ^ 18
def maxMatrixCombinationsPerCompile : ℕ := 2 ^ 20
def maxCompiledIrBytes : ℕ := 16 * 2 ^ 20

/-- The matrix work one compile has done. -/
structure MatrixWork where
  combinations : ℕ
  checks : ℕ
deriving DecidableEq

/-- One value for each dimension, in dimension order. -/
abbrev Combination := List (Text × Text)

/-- Every combination, the last dimension changing fastest. -/
def combinations : List (Text × List Text) → List Combination
  | [] => [[]]
  | d :: ds => d.2.flatMap fun v => (combinations ds).map ((d.1, v) :: ·)

/-- The context a predicate that reads `vars` is evaluated in. -/
def combinationCtx (vars : List Text) (c : Combination) : Ctx :=
  SortedMap.ofList ((c.filter fun d => d.1 ∈ vars).map fun d => (d.1, Json.string d.2))

/-- The combinations a predicate does not exclude. -/
def excludeBy (host : Host) (pred : Text) (vars : List Text) :
    List Combination → Except CelError (List Combination)
  | [] => .ok []
  | c :: cs => do
      let out ← host.evalBool pred (combinationCtx vars c)
      let rest ← excludeBy host pred vars cs
      .ok (if out then rest else c :: rest)

def keptCombinations (host : Host) :
    List Text → List Combination → Except CelError (List Combination)
  | [], cs => .ok cs
  | pred :: preds, cs => do
      let reads ← host.reads pred
      let rest ← excludeBy host pred (reads.map (·.var)) cs
      keptCombinations host preds rest

def combinationSuffix (c : Combination) : Text :=
  '[' :: [','].intercalate (c.map fun d => d.1 ++ '=' :: d.2) ++ [']']

/-- The bytes a combination adds to an instance each time it is written. -/
def combinationLen (c : Combination) : ℕ :=
  (c.map fun d => byteLen d.1 + byteLen d.2 + 8).sum

/-- The instance of a step for one combination. -/
def instanceOf (step : StepSpec) (c : Combination) : StepSpec :=
  { step with
    id := step.id ++ combinationSuffix c
    matrix := none
    matrixValues := step.matrixValues.insertAll c
    scope := step.scope.map (·.withMatrix (SortedMap.ofList c)) }

/-- The combinations of a matrix, with the work done so far after counting them. -/
def countMatrix (matrix : Matrix) (work : MatrixWork) : Except MatrixProblem Unit × MatrixWork :=
  let dims := matrix.dimensions.entries
  let n := (dims.map (·.2.length)).prod
  if dims = [] then (.error .noDimensions, work)
  else
    match dims.find? fun d => d.2 = [] with
    | some d => (.error (.noValues d.1), work)
    | none =>
        if n > maxMatrixCombinations then (.error .tooManyCombinations, work)
        else
          let counted := { work with combinations := work.combinations + n }
          if counted.combinations > maxMatrixCombinationsPerCompile then
            (.error .tooManyInCompile, counted)
          else if matrix.exclude.length > maxMatrixExcludes then (.error .tooManyExcludes, counted)
          else
            let checked := { counted with checks := counted.checks + n * matrix.exclude.length }
            if checked.checks > maxMatrixExcludeChecks then (.error .tooManyChecks, checked)
            else (.ok (), checked)

/-- The instances of a step whose matrix was counted. -/
def matrixInstances (tc : Toolchain) (step : StepSpec) (matrix : Matrix) :
    Except MatrixProblem (List StepSpec) :=
  match keptCombinations tc.toHost matrix.exclude (combinations matrix.dimensions.entries) with
  | .error e => .error (.exclude e)
  | .ok kept =>
      if kept.length > maxCompiledSteps then .error .tooManySteps
      else if (kept.map fun c => tc.jsonLen step + 3 * combinationLen c).sum > maxCompiledIrBytes then
        .error .tooLarge
      else .ok (kept.map (instanceOf step))

/-- Expand one authored step into its concrete instances. -/
def expandStep (tc : Toolchain) (step : StepSpec) (work : MatrixWork) :
    Except MatrixProblem (List StepSpec) × MatrixWork :=
  match step.matrix with
  | none => (.ok [step], work)
  | some matrix =>
      match countMatrix matrix work with
      | (.error p, work) => (.error p, work)
      | (.ok (), work) => (matrixInstances tc step matrix, work)

end Scarab.Pipeline
