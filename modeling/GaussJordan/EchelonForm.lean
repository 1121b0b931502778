import GaussJordan.DenseMatrix

namespace GaussJordan

namespace DenseMatrix

variable {α : Type} [Scalar α]

/-- The column of the first significant cell of a row. -/
def leadColumn (tolerance : α) (m : DenseMatrix α) (row : Nat) : Option Nat :=
  (List.range m.cols).find? fun c => isSignificant tolerance (m.entry row c)

/-- Whether the cell at `lead` is one within the tolerance and the only significant cell of its
column. -/
def isPivot (tolerance : α) (m : DenseMatrix α) (row lead : Nat) : Bool :=
  !isSignificant tolerance (m.entry row lead - 1) &&
    (List.range m.rows).all fun r => r == row || !isSignificant tolerance (m.entry r lead)

/-- The `left` rows from `row` on each have a pivot to the right of the previous one, until a row
has no significant cell; after that no row has any. -/
def isReducedFrom (tolerance : α) (m : DenseMatrix α) (previous : Option Nat) (row : Nat) :
    Nat → Bool
  | 0 => true
  | left + 1 =>
    match m.leadColumn tolerance row with
    | none => (List.range left).all fun k => (m.leadColumn tolerance (row + 1 + k)).isNone
    | some lead =>
      previous.all (· < lead) && m.isPivot tolerance row lead &&
        m.isReducedFrom tolerance (some lead) (row + 1) left

/-- Leading cells are one and alone in their columns, they move right from row to row, and rows
without one come last. -/
def isReduced (tolerance : α) (m : DenseMatrix α) : Bool :=
  m.isReducedFrom tolerance none 0 m.rows

end DenseMatrix

end GaussJordan
