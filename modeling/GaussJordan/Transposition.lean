import GaussJordan.Worksheet

namespace GaussJordan

variable {α : Type} [Scalar α]

/-- Copies one cell of the matrix to its place in the transpose. -/
def Worksheet.copyAcross (m : DenseMatrix α) (w : Worksheet α) (place : Nat × Nat) :
    Except Fault (Worksheet α) := do
  let value ← m.cell place.2 place.1
  w.perform (.assign place.1 place.2 value)

/-- The transpose, written cell by cell in row-major order over a zero matrix. -/
def DenseMatrix.transposeBySteps (m : DenseMatrix α) : Except Fault (Worksheet α) :=
  let w := (Worksheet.start .transposition (.zeros m.cols m.rows)).announce
    (.transposing m.rows m.cols)
  let places := (List.range m.cols).flatMap fun i => (List.range m.rows).map fun j => (i, j)
  places.foldlM (Worksheet.copyAcross m) w

end GaussJordan
