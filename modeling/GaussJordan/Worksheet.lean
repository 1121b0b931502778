import GaussJordan.Event
import GaussJordan.TraceLog

namespace GaussJordan

/-- A matrix being worked on, with the steps that led to it and the events reported so far. -/
structure Worksheet (α : Type) where
  state : DenseMatrix α
  log : TraceLog α
  journal : Array (Event α)

namespace Worksheet

variable {α : Type}

/-- A matrix with nothing done to it yet. -/
def start (style : TraceStyle) (m : DenseMatrix α) : Worksheet α := ⟨m, .empty style, #[]⟩

def announce (w : Worksheet α) (event : Event α) : Worksheet α :=
  { w with journal := w.journal.push event }

variable [Scalar α]

/-- Applies an operation to the matrix, records it with the outcome and reports it. -/
def perform (w : Worksheet α) (operation : Operation α) : Except Fault (Worksheet α) := do
  let next ← operation.apply w.state
  let event := .step w.log.style operation (operation.describe w.log.style)
  return { state := next, log := w.log.record operation next, journal := w.journal.push event }

/-- Makes the cell of a target row in a column zero by subtracting a multiple of another row. -/
def clearTarget (row col : Nat) (w : Worksheet α) (target : Nat) : Except Fault (Worksheet α) := do
  let factor ← w.state.cell target col
  w.perform (.eliminate target row factor)

/-- Makes the cell at a row and a column one by scaling its row, then the rest of the column zero,
target row by target row from top to bottom. -/
def clearColumn (row col : Nat) (w : Worksheet α) : Except Fault (Worksheet α) := do
  let pivot ← w.state.cell row col
  let w ← w.perform (.scale row pivot)
  let others := (List.range w.state.rows).filter (· ≠ row)
  others.foldlM (clearTarget row col) w

end Worksheet

end GaussJordan
