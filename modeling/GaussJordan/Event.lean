import GaussJordan.Operation

namespace GaussJordan

inductive Event (α : Type) where
  | reducing (rows cols : Nat)
  | reduced (steps : Nat)
  | step (style : TraceStyle) (operation : Operation α) (description : String)
  | inconsistent (unknowns : Nat)
  | underdetermined (rank unknowns : Nat)
  | unique (values : List α)
  | transposing (rows cols : Nat)
  | inverting (n : Nat)
  | inverted (n steps : Nat)
  | zeroPivot (step : Nat) (pivot : α)
  | inverseSkipped (rows cols : Nat)

/-- How much an event matters, from least to most. -/
inductive EventLevel where
  | trace
  | debug
  | info
  | warn
deriving DecidableEq

namespace Event

variable {α : Type}

/-- Steps matter least, outcomes more, and a pivot that stops an inversion most. -/
def level : Event α → EventLevel
  | .step .. => .trace
  | .reducing .. | .reduced .. | .transposing .. | .inverting .. => .debug
  | .inconsistent .. | .underdetermined .. | .unique .. | .inverted .. | .inverseSkipped .. => .info
  | .zeroPivot .. => .warn

/-- The text of an event; a step is reported with its description. -/
def message : Event α → String
  | .reducing .. => "reducing augmented matrix"
  | .reduced .. => "reduction finished"
  | .step _ _ description => description
  | .inconsistent .. => "inconsistent equation, no solution"
  | .underdetermined .. => "infinite solutions"
  | .unique .. => "unique solution"
  | .transposing .. => "transposing"
  | .inverting .. => "inverting"
  | .inverted .. => "inverse computed"
  | .zeroPivot .. => "zero diagonal pivot"
  | .inverseSkipped .. => "not square, inverse skipped"

end Event

end GaussJordan
