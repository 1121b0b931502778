namespace GaussJordan

/-- Uses that an operation has no answer for. An operation that can meet one returns
`Except Fault`; errors about the data themselves are part of its answer. -/
inductive Fault where
  | cellCount (rows cols found : Nat)
  | noCell (row col : Nat)
  | noRow (row : Nat)
  | noColumns
  | columnRange (first last : Nat)
  | notSquare (rows cols : Nat)
  | noRightHandSide
  | tooManyPlaces (places : Nat)
  | overflow (size : Nat)
deriving DecidableEq

@[simp] theorem bind_ok {β γ : Type} (b : β) (f : β → Except Fault γ) :
    ((.ok b : Except Fault β) >>= f) = f b := rfl

theorem exists_of_bind_ok {β γ : Type} {x : Except Fault β} {f : β → Except Fault γ} {c : γ}
    (h : (x >>= f) = .ok c) : ∃ b, x = .ok b ∧ f b = .ok c := by
  cases x with
  | error e => cases h
  | ok b => exact ⟨b, rfl, h⟩

/-- Data from which no matrix can be built. -/
inductive ShapeError where
  | empty
  | ragged (row expected found : Nat)
  | dimensionMismatch (leftRows leftCols rightRows rightCols : Nat)
deriving DecidableEq

/-- The wording of an error. Rows count from zero. -/
def ShapeError.message : ShapeError → String
  | .empty => "Matrix must have at least one row and one column"
  | .ragged row expected found => s!"Row {row} has {found} entries, expected {expected}"
  | .dimensionMismatch leftRows leftCols rightRows rightCols =>
    s!"Dimensions not compatible: ({leftRows}, {leftCols}) and ({rightRows}, {rightCols})"

end GaussJordan
