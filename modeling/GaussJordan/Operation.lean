import GaussJordan.Blocks
import GaussJordan.RowOperations

namespace GaussJordan

/-- One step of a derivation. Rows and columns count from zero. -/
inductive Operation (α : Type) where
  | augment
  | swap (first second : Nat)
  | scale (row : Nat) (factor : α)
  /-- Subtract the factor times the source row from the target row. -/
  | eliminate (target source : Nat) (factor : α)
  | assign (row col : Nat) (value : α)
deriving BEq

/-- What a derivation computes; it selects the wording of the steps. -/
inductive TraceStyle where
  | reduction
  | transposition
  | inversion
deriving DecidableEq

namespace Operation

variable {α : Type} [Scalar α]

def apply (m : DenseMatrix α) : Operation α → Except Fault (DenseMatrix α)
  | .augment => .ok m.augmentIdentity
  | .swap first second => m.swapRows first second
  | .scale row factor => m.scaleRow row factor
  | .eliminate target source factor => m.subtractScaledRow target source factor
  | .assign row col value => m.setCell row col value

/-- The line that explains a step. Rows are shown counting from one, except where a cell is shown
with its indices. -/
def describe (style : TraceStyle) : Operation α → String
  | .augment => "Creating augmented matrix [A | I]:"
  | .swap first second => s!"Swapped Row {first + 1} with Row {second + 1}:"
  | .scale row factor =>
    match style with
    | .inversion =>
      let pivot := Scalar.fixedText 4 factor
      s!"Normalize row {row + 1} by dividing with pivot {pivot}"
    | _ =>
      let pivot := Scalar.fixedText 2 factor
      s!"Normalized Row {row + 1} (divided by {pivot}):"
  | .eliminate target source factor =>
    match style with
    | .inversion =>
      let times := Scalar.fixedText 4 factor
      s!"Row {target + 1} = Row {target + 1} – {times} × Row {source + 1}"
    | _ =>
      let times := Scalar.fixedText 2 factor
      s!"Eliminated Row {target + 1} using Row {source + 1} (multiplied by {times}):"
  | .assign row col value =>
    let written := Scalar.fixedText 4 value
    s!"t[{row},{col}] = matrix[{col},{row}] → {written}"

end Operation

end GaussJordan
