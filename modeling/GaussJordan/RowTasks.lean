import GaussJordan.FlatCells

namespace GaussJordan

variable {α : Type} [Scalar α]

/-- The products of the cells of two rows that stand at the same place, added from left to right. -/
def dot (xs ys : List α) : α := (List.zipWith (· * ·) xs ys).foldl (· + ·) Scalar.emptySum

namespace DenseMatrix

/-- The cells of one row of a product; the rows of `turned` are the columns of the right operand.
Of what is in the row before, only the length matters. -/
def fillRow (arith : IndexArithmetic) (m turned : DenseMatrix α) (r : Nat) (row : List α) :
    Except Fault (List α) := do
  let left ← m.flatRow arith r
  (List.range row.length).mapM fun c => do
    let right ← turned.flatRow arith c
    return dot left right

/-- A task: fills the row of the result that has its index, and reads nothing else of the result. -/
def fillChunk (arith : IndexArithmetic) (m turned : DenseMatrix α) (chunks : List (List α))
    (r : Nat) : Except Fault (List (List α)) :=
  match chunks[r]? with
  | none => .error (.noRow r)
  | some row => do
    let row ← fillRow arith m turned r row
    return chunks.set r row

/-- A blank matrix, cut into its rows and filled by one task for each of them. The tasks are run in
the given order. -/
def fillByTasks (arith : IndexArithmetic) (order : List Nat) (m turned blank : DenseMatrix α) :
    Except Fault (DenseMatrix α) := do
  let chunks ← blank.rowSlices
  let chunks ← order.foldlM (fillChunk arith m turned) chunks
  return ⟨blank.rows, blank.cols, chunks.flatten.toArray⟩

/-- The product as it is computed by one task for each row. -/
def mulByTasks (order : List Nat) (m other : DenseMatrix α) :
    Except Fault (Except ShapeError (DenseMatrix α)) := do
  if m.cols ≠ other.rows then
    return .error (.dimensionMismatch m.rows m.cols other.rows other.cols)
  let p ← fillByTasks .unbounded order m other.transpose (zeros m.rows other.cols)
  return .ok p

/-- The product by tasks, with zeros and a transpose that are made for it. -/
def flatMul (arith : IndexArithmetic) (order : List Nat) (m other : DenseMatrix α) :
    Except Fault (Except ShapeError (DenseMatrix α)) := do
  if m.cols ≠ other.rows then
    return .error (.dimensionMismatch m.rows m.cols other.rows other.cols)
  let blank ← flatZeros arith m.rows other.cols
  let turned ← other.flatTranspose arith
  let p ← fillByTasks arith order m turned blank
  return .ok p

end DenseMatrix

end GaussJordan
