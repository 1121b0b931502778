import GaussJordan.Classification
import GaussJordan.Config
import GaussJordan.Inversion
import GaussJordan.Reduction
import GaussJordan.Transposition

namespace GaussJordan

/-- The inverse with its derivation, or why there is none. -/
inductive InverseOutcome (α : Type) where
  | computed (inverse : DenseMatrix α) (trace : TraceLog α)
  | singular (step : Nat)
  | notSquare
deriving BEq

structure Solution (α : Type) where
  given : DenseMatrix α
  reduced : DenseMatrix α
  reductionTrace : TraceLog α
  report : SolutionReport α
  transposed : DenseMatrix α
  transposeTrace : TraceLog α
  inverse : InverseOutcome α
deriving BEq

variable {α : Type} [Scalar α]

/-- The inverse if the matrix is square, and the events of looking for it. -/
def DenseMatrix.inverseOutcome (tolerance : α) (m : DenseMatrix α) :
    Except Fault (InverseOutcome α × Array (Event α)) := do
  if ¬m.IsSquare then return (.notSquare, #[.inverseSkipped m.rows m.cols])
  match ← m.invert tolerance with
  | .computed inverse sheet => return (.computed inverse sheet.log, sheet.journal)
  | .singular step sheet => return (.singular step, sheet.journal)

/-- Reduces, classifies, transposes and inverts a matrix; also returns the events of all that in
order. -/
def DenseMatrix.solve (config : Config α) (m : DenseMatrix α) :
    Except Fault (Solution α × Array (Event α)) := do
  let reduction ← m.reduce config.epsilon
  let (report, verdict) ← reduction.state.classify config.epsilon
  let transposition ← m.transposeBySteps
  let (inverse, inverseEvents) ← m.inverseOutcome config.epsilon
  let solution :=
    { given := m
      reduced := reduction.state
      reductionTrace := reduction.log
      report
      transposed := transposition.state
      transposeTrace := transposition.log
      inverse }
  return (solution,
    reduction.journal ++ #[verdict] ++ transposition.journal ++ inverseEvents)

end GaussJordan
