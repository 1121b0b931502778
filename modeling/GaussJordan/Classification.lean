import GaussJordan.Event

namespace GaussJordan

/-- How many solutions a system of equations has. -/
inductive SolutionReport (α : Type) where
  /-- One value for each variable. -/
  | unique (values : List α)
  | infinite
  | noSolution
deriving BEq

variable {α : Type} [Scalar α]

/-- A row whose coefficients count as zero and whose right-hand side does not. -/
def isInconsistent (tolerance : α) (unknowns : Nat) (row : List α) : Bool :=
  (row.take unknowns).all (isZero tolerance) && (row.drop unknowns).any (!isZero tolerance ·)

/-- The number of rows with an entry that does not count as zero, right-hand side included. -/
def rowRank (tolerance : α) (rows : List (List α)) : Nat :=
  rows.countP fun row => row.any (!isZero tolerance ·)

/-- Classifies a reduced augmented matrix, whose last column is the right-hand side. The value of
a variable is read off the row of the same number. -/
def DenseMatrix.classify (tolerance : α) (m : DenseMatrix α) :
    Except Fault (SolutionReport α × Event α) := do
  if m.cols = 0 then throw .noRightHandSide
  let unknowns := m.cols - 1
  let rows ← m.rowSlices
  if rows.any (isInconsistent tolerance unknowns) then
    return (.noSolution, .inconsistent unknowns)
  let rank := rowRank tolerance rows
  if rank < unknowns then return (.infinite, .underdetermined rank unknowns)
  let values ← (List.range unknowns).mapM fun i => m.cell i unknowns
  return (.unique values, .unique values)

end GaussJordan
