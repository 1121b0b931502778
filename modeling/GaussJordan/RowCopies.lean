import GaussJordan.FlatCells

namespace GaussJordan

namespace DenseMatrix

variable {α : Type}

/-- Copies numbers over the beginning of a row, of which the given width is taken. -/
def copyOver (arith : IndexArithmetic) (m : DenseMatrix α) (r width : Nat) (xs : List α) :
    Except Fault (DenseMatrix α) := do
  let start ← arith.product r m.cols
  let stop ← arith.sum start width
  if start ≤ stop ∧ stop ≤ m.cells.size ∧ xs.length = stop - start then
    return m.overSlice start stop fun k x => xs.getD k x
  else throw (.noRow r)

/-- The part of a row from `first` up to, and without, `last`. -/
def cutRow (first last : Nat) (row : List α) : Except Fault (List α) :=
  if last < first ∨ row.length < last then .error (.columnRange first last)
  else .ok ((row.drop first).take (last - first))

/-- A block of columns as it is cut from one row slice after the other, the parts put end to end. -/
def columnsByCuts (m : DenseMatrix α) (first last : Nat) : Except Fault (DenseMatrix α) := do
  let slices ← m.rowSlices
  let parts ← slices.mapM (cutRow first last)
  return ⟨m.rows, last - first, parts.flatten.toArray⟩

variable [Scalar α]

/-- Copies a row to the beginning of that row of a wider matrix, and writes a one as far behind the
copy as the row is below the first. -/
def copyAugmented (arith : IndexArithmetic) (m wide : DenseMatrix α) (r : Nat) :
    Except Fault (DenseMatrix α) := do
  let row ← m.flatRow arith r
  let wide ← wide.copyOver arith r m.cols row
  wide.write arith r (m.cols + r) 1

/-- The matrix beside an identity block as it is copied row by row over zeros. -/
def flatAugmentIdentity (arith : IndexArithmetic) (m : DenseMatrix α) :
    Except Fault (DenseMatrix α) := do
  let width ← arith.sum m.cols m.rows
  let wide ← flatZeros arith m.rows width
  (List.range m.rows).foldlM (copyAugmented arith m) wide

def augmentByCopies (m : DenseMatrix α) : Except Fault (DenseMatrix α) :=
  m.flatAugmentIdentity .unbounded

end DenseMatrix

end GaussJordan
