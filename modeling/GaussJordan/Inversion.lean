import GaussJordan.Worksheet

namespace GaussJordan

inductive Inversion (α : Type) where
  | computed (inverse : DenseMatrix α) (sheet : Worksheet α)
  /-- Stopped at a diagonal cell that counts as zero. -/
  | singular (step : Nat) (sheet : Worksheet α)

variable {α : Type} [Scalar α]

/-- Clears the `left` columns from `i` on with the diagonal cells as pivots. No rows are
exchanged: a diagonal cell that counts as zero stops the work, and its index is returned. -/
def Worksheet.clearDiagonal (tolerance : α) (i : Nat) (w : Worksheet α) :
    Nat → Except Fault (Option Nat × Worksheet α)
  | 0 => .ok (none, w)
  | left + 1 => do
    let pivot ← w.state.cell i i
    if isZero tolerance pivot then return (some i, w.announce (.zeroPivot i pivot))
    let w ← w.clearColumn i i
    w.clearDiagonal tolerance (i + 1) left

/-- Gauss-Jordan inversion of a square matrix beside an identity block. -/
def DenseMatrix.invert (tolerance : α) (m : DenseMatrix α) : Except Fault (Inversion α) := do
  if ¬m.IsSquare then throw (.notSquare m.rows m.cols)
  let n := m.rows
  let w ← (Worksheet.start .inversion m).perform .augment
  let (stopped, w) ← (w.announce (.inverting n)).clearDiagonal tolerance 0 n
  match stopped with
  | some step => return .singular step w
  | none =>
    let inverse ← w.state.columns n (2 * n)
    return .computed inverse (w.announce (.inverted n w.log.size))

end GaussJordan
