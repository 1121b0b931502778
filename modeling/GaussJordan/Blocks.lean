import GaussJordan.DenseMatrix

namespace GaussJordan

namespace DenseMatrix

variable {α : Type} [Scalar α]

/-- The matrix with an identity block of its height to the right. -/
def augmentIdentity (m : DenseMatrix α) : DenseMatrix α :=
  generate m.rows (m.cols + m.rows) fun r c =>
    if c < m.cols then m.entry r c else if c - m.cols = r then 1 else 0

/-- The columns from `first` up to, and without, `last`. The range is looked at row by row, so
with no row any range will do. -/
def columns (m : DenseMatrix α) (first last : Nat) : Except Fault (DenseMatrix α) :=
  if m.cols = 0 then .error .noColumns
  else if m.rows ≠ 0 ∧ (last < first ∨ m.cols < last) then .error (.columnRange first last)
  else .ok (generate m.rows (last - first) fun r c => m.entry r (first + c))

/-- The product's cells add up from left to right. A right operand without columns gives rows of
no width, which the product refuses. -/
def mul (m other : DenseMatrix α) : Except Fault (Except ShapeError (DenseMatrix α)) :=
  if m.cols ≠ other.rows then
    .ok (.error (.dimensionMismatch m.rows m.cols other.rows other.cols))
  else if other.cols = 0 then .error .noColumns
  else .ok (.ok (generate m.rows other.cols fun r c =>
    (List.range m.cols).foldl (fun sum q => sum + m.entry r q * other.entry q c)
      Scalar.emptySum))

end DenseMatrix

end GaussJordan
