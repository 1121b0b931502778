import GaussJordan.IndexArithmetic
import GaussJordan.Scalar

namespace GaussJordan

/-- A matrix with its cells in row-major order. -/
structure DenseMatrix (α : Type) where
  rows : Nat
  cols : Nat
  cells : Array α
deriving BEq, DecidableEq

namespace DenseMatrix

variable {α : Type}

/-- One cell for each row and column. Every operation that builds a matrix keeps this. -/
def WellFormed (m : DenseMatrix α) : Prop := m.cells.size = m.rows * m.cols

theorem ext_cells {m n : DenseMatrix α} (hr : m.rows = n.rows) (hc : m.cols = n.cols)
    (h : m.cells = n.cells) : m = n := by
  cases m
  cases n
  simp_all

def generate (rows cols : Nat) (f : Nat → Nat → α) : DenseMatrix α :=
  ⟨rows, cols, Array.ofFn fun k : Fin (rows * cols) => f (k / cols) (k % cols)⟩

@[simp] theorem generate_rows (rows cols : Nat) (f : Nat → Nat → α) :
    (generate rows cols f).rows = rows := rfl

@[simp] theorem generate_cols (rows cols : Nat) (f : Nat → Nat → α) :
    (generate rows cols f).cols = cols := rfl

theorem generate_wellFormed (rows cols : Nat) (f : Nat → Nat → α) :
    (generate rows cols f).WellFormed := by
  simp [WellFormed, generate]

theorem index_lt {rows cols row col : Nat} (hr : row < rows) (hc : col < cols) :
    row * cols + col < rows * cols := by
  have h := Nat.mul_le_mul_right cols hr
  rw [Nat.succ_mul] at h
  omega

/-- The matrix with the given cells, which must be as many as its shape has. -/
def ofCells (arith : IndexArithmetic) (rows cols : Nat) (cells : Array α) :
    Except Fault (DenseMatrix α) := do
  let count ← arith.product rows cols
  if cells.size = count then return ⟨rows, cols, cells⟩
  else throw (.cellCount rows cols cells.size)

/-- All rows must be as long as the first, which must not be empty. -/
def ofRows (lines : List (List α)) : Except ShapeError (DenseMatrix α) :=
  match lines with
  | [] => .error .empty
  | first :: _ =>
    let cols := first.length
    if cols = 0 then .error .empty
    else match lines.findIdx? (fun line => line.length != cols) with
      | some row => .error (.ragged row cols ((lines[row]?.getD []).length))
      | none => .ok ⟨lines.length, cols, lines.flatten.toArray⟩

/-- The cell at a position counted over all rows: past the end of a row the next one follows. -/
def read (arith : IndexArithmetic) (m : DenseMatrix α) (row col : Nat) : Except Fault α := do
  let start ← arith.product row m.cols
  let index ← arith.sum start col
  match m.cells[index]? with
  | some x => return x
  | none => throw (.noCell row col)

theorem read_unbounded (m : DenseMatrix α) (row col : Nat) : m.read .unbounded row col =
    match m.cells[row * m.cols + col]? with
    | some x => .ok x
    | none => .error (.noCell row col) := rfl

/-- Replaces the cell that `read` returns. -/
def write (arith : IndexArithmetic) (m : DenseMatrix α) (row col : Nat) (x : α) :
    Except Fault (DenseMatrix α) := do
  let start ← arith.product row m.cols
  let index ← arith.sum start col
  if index < m.cells.size then return { m with cells := m.cells.setIfInBounds index x }
  else throw (.noCell row col)

def InRange (m : DenseMatrix α) (row col : Nat) : Prop := row < m.rows ∧ col < m.cols

instance (m : DenseMatrix α) (row col : Nat) : Decidable (m.InRange row col) :=
  inferInstanceAs (Decidable (row < m.rows ∧ col < m.cols))

/-- The cell of a row and a column that both exist. -/
def cell (m : DenseMatrix α) (row col : Nat) : Except Fault α :=
  if m.InRange row col then m.read .unbounded row col else .error (.noCell row col)

/-- Replaces the cell of a row and a column that both exist. -/
def setCell (m : DenseMatrix α) (row col : Nat) (x : α) : Except Fault (DenseMatrix α) :=
  if m.InRange row col then m.write .unbounded row col x else .error (.noCell row col)

/-- Where a row begins among the cells, and where the next one does. -/
def rowBounds (arith : IndexArithmetic) (m : DenseMatrix α) (r : Nat) :
    Except Fault (Nat × Nat) := do
  let start ← arith.product r m.cols
  let next ← arith.sum r 1
  let stop ← arith.product next m.cols
  if start ≤ stop ∧ stop ≤ m.cells.size then return (start, stop) else throw (.noRow r)

def flatRow (arith : IndexArithmetic) (m : DenseMatrix α) (r : Nat) : Except Fault (List α) := do
  let (start, stop) ← m.rowBounds arith r
  return (m.cells.extract start stop).toList

def row (m : DenseMatrix α) (r : Nat) : Except Fault (List α) := m.flatRow .unbounded r

/-- The rows in order, cut from the cells one width at a time. Without columns there is no width
to cut. -/
def rowSlices (m : DenseMatrix α) : Except Fault (List (List α)) :=
  if m.cols = 0 then .error .noColumns
  else .ok ((List.range ((m.cells.size + m.cols - 1) / m.cols)).map fun r =>
    (m.cells.extract (r * m.cols) ((r + 1) * m.cols)).toList)

def IsSquare (m : DenseMatrix α) : Prop := m.rows = m.cols

instance (m : DenseMatrix α) : Decidable m.IsSquare :=
  inferInstanceAs (Decidable (m.rows = m.cols))

section Scalar

variable [Scalar α]

/-- The cell at a row and a column, zero where there is none. -/
def entry (m : DenseMatrix α) (row col : Nat) : α := m.cells.getD (row * m.cols + col) 0

theorem entry_generate {rows cols : Nat} (f : Nat → Nat → α) {row col : Nat} (hr : row < rows)
    (hc : col < cols) : (generate rows cols f).entry row col = f row col := by
  have h := index_lt hr hc
  have hq : (row * cols + col) / cols = row := by
    rw [Nat.mul_comm, Nat.mul_add_div (by omega), Nat.div_eq_of_lt hc, Nat.add_zero]
  have hm : (row * cols + col) % cols = col := by
    rw [Nat.mul_comm, Nat.mul_add_mod, Nat.mod_eq_of_lt hc]
  simp [entry, generate, Array.getD, h, hq, hm]

/-- A cell in range can be read, and holds the entry. -/
theorem cell_eq_entry {m : DenseMatrix α} (hm : m.WellFormed) {row col : Nat}
    (hr : row < m.rows) (hc : col < m.cols) : m.cell row col = .ok (m.entry row col) := by
  have h : row * m.cols + col < m.cells.size := by
    rw [hm]
    exact index_lt hr hc
  simp [cell, InRange, hr, hc, read_unbounded, entry, h]

theorem ext_entry {m n : DenseMatrix α} (hm : m.WellFormed) (hn : n.WellFormed)
    (hr : m.rows = n.rows) (hc : m.cols = n.cols)
    (h : ∀ row col, row < m.rows → col < m.cols → m.entry row col = n.entry row col) :
    m = n := by
  have hs : m.cells.size = n.cells.size := by rw [hm, hn, hr, hc]
  refine ext_cells hr hc (Array.ext hs ?_)
  intro k hk hk'
  have hb : k < m.rows * m.cols := by rwa [← hm]
  have hpos : 0 < m.cols := Nat.pos_of_lt_mul_left hb
  have he := h (k / m.cols) (k % m.cols) ((Nat.div_lt_iff_lt_mul hpos).mpr hb)
    (Nat.mod_lt k hpos)
  have hi : k / m.cols * m.cols + k % m.cols = k := by
    rw [Nat.mul_comm]
    exact Nat.div_add_mod k m.cols
  simpa [entry, ← hc, hi, hk, hk'] using he

def toRows (m : DenseMatrix α) : List (List α) :=
  (List.range m.rows).map fun r => (List.range m.cols).map fun c => m.entry r c

def zeros (rows cols : Nat) : DenseMatrix α := generate rows cols fun _ _ => 0

def identity (n : Nat) : DenseMatrix α := generate n n fun r c => if r = c then 1 else 0

def transpose (m : DenseMatrix α) : DenseMatrix α :=
  generate m.cols m.rows fun r c => m.entry c r

/-- The same shape, and no two cells further apart than the tolerance. -/
def approxEq (m other : DenseMatrix α) (tolerance : α) : Bool :=
  m.rows == other.rows && m.cols == other.cols &&
    (m.cells.toList.zip other.cells.toList).all fun (a, b) => isZero tolerance (a - b)

end Scalar

end DenseMatrix

end GaussJordan
