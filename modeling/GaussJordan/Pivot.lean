import GaussJordan.DenseMatrix

namespace GaussJordan

namespace DenseMatrix

variable {α : Type} [Scalar α]

/-- The first of the `left` rows from `row` on whose cell in a column does not count as zero. -/
def pivotRow (tolerance : α) (m : DenseMatrix α) (col row : Nat) :
    Nat → Except Fault (Option Nat)
  | 0 => .ok none
  | left + 1 => do
    let x ← m.cell row col
    if isZero tolerance x then m.pivotRow tolerance col (row + 1) left else return some row

/-- The first of the `left` columns from `col` on with a pivot at or below `row`. -/
def pivotFrom (tolerance : α) (m : DenseMatrix α) (row col : Nat) :
    Nat → Except Fault (Option (Nat × Nat))
  | 0 => .ok none
  | left + 1 => do
    match ← m.pivotRow tolerance col row (m.rows - row) with
    | some found => return some (found, col)
    | none => m.pivotFrom tolerance row (col + 1) left

/-- The row and column of the next pivot: columns are tried from `lead` on, left to right, and in
each of them the rows from `row` down. -/
def findPivot (tolerance : α) (m : DenseMatrix α) (row lead : Nat) :
    Except Fault (Option (Nat × Nat)) :=
  m.pivotFrom tolerance row lead (m.cols - lead)

end DenseMatrix

end GaussJordan
