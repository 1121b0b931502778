import GaussJordan.MatrixText
import GaussJordan.Solution

namespace GaussJordan

variable {α : Type} [Scalar α]

/-- More decimal places than this are refused. -/
def maxPlaces : Nat := 65535

def numberText (places : Nat) (x : α) : Except Fault String :=
  if places ≤ maxPlaces then .ok (Scalar.fixedText places x) else .error (.tooManyPlaces places)

/-- The numbers of a row, set apart by tabs. -/
def rowText (places : Nat) (row : List α) : Except Fault String := do
  let numbers ← row.mapM (numberText places)
  return "\t".intercalate numbers

def matrixLines (places : Nat) (m : DenseMatrix α) : Except Fault (List String) := do
  let rows ← m.rowSlices
  rows.mapM (rowText places)

/-- A step's description, its matrix and an empty line. -/
def stepLines (places : Nat) (step : Step α) : Except Fault (List String) := do
  let block ← matrixLines places step.snapshot
  return step.description :: block ++ [""]

/-- Every step of the reduction with its matrix, then the reduced matrix. -/
def reductionLines (config : Config α) (s : Solution α) : Except Fault (List String) := do
  let steps ← s.reductionTrace.steps.toList.mapM (stepLines config.stepPrecision)
  let final ← matrixLines config.stepPrecision s.reduced
  return "=== Step-by-Step RREF Solution ===" :: steps.flatten ++
    ["", "=== Final RREF Matrix ==="] ++ final ++ [""]

/-- The lines for the values of the variables, which are named from `x1` on. -/
def valueLines (places : Nat) (values : List α) : Except Fault (List String) := do
  let numbers ← values.mapM (numberText places)
  return numbers.zipIdx.map fun (number, i) => s!"x{i + 1} = {number}"

/-- How many solutions there are, and the values if there is just one. -/
def reportLines (config : Config α) (s : Solution α) : Except Fault (List String) :=
  match s.report with
  | .noSolution => .ok ["No solution.", "",
      "(Note: The system of equations is inconsistent, " ++
        "but Transpose/Inverse will still be attempted below.)"]
  | .infinite => .ok ["Infinite solutions."]
  | .unique values => do
    let lines ← valueLines config.valuePrecision values
    return "Unique solution found:" :: lines ++ [""]

/-- The given matrix, the steps of the transposition without their matrices, and the transpose. -/
def transposeLines (config : Config α) (s : Solution α) : Except Fault (List String) := do
  let given ← matrixLines config.valuePrecision s.given
  let transposed ← matrixLines config.valuePrecision s.transposed
  return ["", "=== TRANSPOSE (Step-by-step) ===", "Original Matrix:"] ++ given ++ [""] ++
    s.transposeTrace.steps.toList.map (·.description) ++
    ["", "Transpose Result:"] ++ transposed ++ [""]

/-- As `stepLines`, with an empty line before each scaling. -/
def inverseStepLines (places : Nat) (step : Step α) : Except Fault (List String) := do
  let lines ← stepLines places step
  match step.operation with
  | .scale .. => return "" :: lines
  | _ => return lines

def singularMessage : String := "Matrix is singular"

/-- Every step of the inversion with its matrix, then the inverse, or why there is none. -/
def inverseLines (config : Config α) (s : Solution α) : Except Fault (List String) :=
  match s.inverse with
  | .computed inverse trace => do
    let steps ← trace.steps.toList.mapM (inverseStepLines config.valuePrecision)
    let block ← matrixLines config.valuePrecision inverse
    return ["", "=== INVERSE (Step-by-step) ==="] ++ steps.flatten ++ "Inverse Matrix:" :: block ++
      [""]
  | .singular _ => .ok ["", "=== INVERSE (Step-by-step) ===", "",
      s!"Cannot compute inverse: {singularMessage}"]
  | .notSquare => .ok ["", "Matrix is not square → cannot compute inverse."]

/-- The report on a solution, line by line. -/
def Solution.lines (config : Config α) (s : Solution α) : Except Fault (List String) := do
  let reduction ← reductionLines config s
  let report ← reportLines config s
  let transpose ← transposeLines config s
  let inverse ← inverseLines config s
  return reduction ++ report ++ transpose ++ inverse

def unlines (lines : List String) : String := String.join (lines.map (· ++ "\n"))

def Solution.render (config : Config α) (s : Solution α) : Except Fault String := do
  let lines ← s.lines config
  return unlines lines

/-- Reads a matrix, solves it and renders the solution. -/
def solveText (config : Config Float) (text : String) :
    Except Fault (Except InputFormatError String) :=
  match DenseMatrix.ofText text with
  | .error e => .ok (.error e)
  | .ok m => do
    let (solution, _) ← m.solve config
    let report ← solution.render config
    return .ok report

end GaussJordan
