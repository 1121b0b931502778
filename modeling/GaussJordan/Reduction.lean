import GaussJordan.Pivot
import GaussJordan.Worksheet

namespace GaussJordan

variable {α : Type} [Scalar α]

/-- Brings a pivot up to its row and clears its column. -/
def Worksheet.takePivot (row found col : Nat) (w : Worksheet α) : Except Fault (Worksheet α) := do
  let w ← if found = row then .ok w else w.perform (.swap row found)
  w.clearColumn row col

/-- Takes the pivots of the `left` rows from `row` on, in columns from `lead` on, until none is
found. -/
def Worksheet.reduceRows (tolerance : α) (lead row : Nat) (w : Worksheet α) :
    Nat → Except Fault (Worksheet α)
  | 0 => .ok w
  | left + 1 => do
    match ← w.state.findPivot tolerance row lead with
    | none => return w
    | some (found, col) =>
      let w ← w.takePivot row found col
      w.reduceRows tolerance (col + 1) (row + 1) left

/-- Gauss-Jordan reduction to reduced row echelon form. -/
def DenseMatrix.reduce (tolerance : α) (m : DenseMatrix α) : Except Fault (Worksheet α) := do
  let w := (Worksheet.start .reduction m).announce (.reducing m.rows m.cols)
  let w ← w.reduceRows tolerance 0 0 m.rows
  return w.announce (.reduced w.log.size)

end GaussJordan
