import GaussJordan.DenseMatrix

namespace GaussJordan

namespace DenseMatrix

variable {α : Type}

/-- Works on the cells between two indices, of which the second is left out. -/
def overSlice (m : DenseMatrix α) (start stop : Nat) (f : Nat → α → α) : DenseMatrix α :=
  { m with cells := m.cells.mapIdx fun k x => if start ≤ k ∧ k < stop then f (k - start) x else x }

/-- The matrix with the given rows, its cells counted once more. -/
def flatOfRows (arith : IndexArithmetic) (lines : List (List α)) :
    Except Fault (Except ShapeError (DenseMatrix α)) :=
  match ofRows lines with
  | .error e => return .error e
  | .ok m => return .ok (← ofCells arith m.rows m.cols m.cells)

variable [Scalar α]

def flatZeros (arith : IndexArithmetic) (rows cols : Nat) : Except Fault (DenseMatrix α) := do
  let count ← arith.product rows cols
  ofCells arith rows cols (Array.replicate count 0)

def flatIdentity (arith : IndexArithmetic) (n : Nat) : Except Fault (DenseMatrix α) :=
  let cells := (List.range n).flatMap fun i => (List.range n).map fun j => if i = j then 1 else 0
  ofCells arith n n cells.toArray

def flatTranspose (arith : IndexArithmetic) (m : DenseMatrix α) : Except Fault (DenseMatrix α) := do
  let lines ← (List.range m.cols).mapM fun c => (List.range m.rows).mapM fun r => m.read arith r c
  ofCells arith m.cols m.rows lines.flatten.toArray

/-- Exchanges two cells of a column. -/
def swapCells (arith : IndexArithmetic) (a b : Nat) (m : DenseMatrix α) (col : Nat) :
    Except Fault (DenseMatrix α) := do
  let x ← m.read arith a col
  let y ← m.read arith b col
  let m ← m.write arith a col y
  m.write arith b col x

/-- Exchanges two rows, column by column. -/
def flatSwapRows (arith : IndexArithmetic) (m : DenseMatrix α) (a b : Nat) :
    Except Fault (DenseMatrix α) :=
  if a = b then .ok m else (List.range m.cols).foldlM (swapCells arith a b) m

def flatScaleRow (arith : IndexArithmetic) (m : DenseMatrix α) (target : Nat) (divisor : α) :
    Except Fault (DenseMatrix α) := do
  let (start, stop) ← m.rowBounds arith target
  return m.overSlice start stop fun _ x => x / divisor

def subtractScaledCell (arith : IndexArithmetic) (target source : Nat) (factor : α)
    (m : DenseMatrix α) (col : Nat) : Except Fault (DenseMatrix α) := do
  let y ← m.read arith source col
  let x ← m.read arith target col
  m.write arith target col (x - factor * y)

/-- Subtracts `factor` times the source row from the target row, column by column. -/
def flatSubtractScaledRow (arith : IndexArithmetic) (m : DenseMatrix α) (target source : Nat)
    (factor : α) : Except Fault (DenseMatrix α) :=
  (List.range m.cols).foldlM (subtractScaledCell arith target source factor) m

/-- A matrix of numbers drawn one after the other; `draw` gives the one with the given number,
from the lower bound up to, and without, the upper one. -/
def random (arith : IndexArithmetic) (rows cols : Nat) (draw : Float → Float → Nat → Float) :
    Except Fault (DenseMatrix Float) := do
  let count ← arith.product rows cols
  return ⟨rows, cols, Array.ofFn fun k : Fin count => draw (-10.0) 10.0 k⟩

end DenseMatrix

end GaussJordan
