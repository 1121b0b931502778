import GaussJordan.DenseMatrix
import GaussJordan.Numeral
import GaussJordan.Tokens

namespace GaussJordan

/-- Why a text is no matrix. Lines count from one, blank lines included. -/
inductive InputFormatError where
  | empty
  | invalidNumber (line : Nat) (token : String)
  | ragged (line expected found : Nat)
deriving DecidableEq

def InputFormatError.message : InputFormatError → String
  | .empty => "Invalid input format: no rows entered"
  | .invalidNumber line token => s!"Invalid input format: '{token}' on line {line} is not a number"
  | .ragged line expected found =>
    s!"Invalid input format: line {line} has {found} numbers, expected {expected}"

/-- The number that a token on the line with the given number stands for. -/
def readToken (number : Nat) (token : List Char) : Except InputFormatError Float :=
  match Numeral.read? token with
  | some numeral => .ok numeral.value
  | none => .error (.invalidNumber number (String.ofList token))

def readRow (number : Nat) (line : List Char) : Except InputFormatError (List Float) :=
  (tokens line).mapM (readToken number)

/-- The rows of the lines from `number` on. Blank lines are passed over; the first other line sets
the width for all after it. -/
def readLines (width : Option Nat) (number : Nat) :
    List (List Char) → Except InputFormatError (List (List Float))
  | [] => .ok []
  | line :: rest =>
    if tokens line = [] then readLines width (number + 1) rest
    else do
      let row ← readRow number line
      let expected := width.getD row.length
      if row.length ≠ expected then throw (.ragged number expected row.length)
      let rows ← readLines (some expected) (number + 1) rest
      return row :: rows

/-- Reads a matrix: a row on each line that is not blank, its numbers set apart by blanks. -/
def DenseMatrix.ofText (text : String) : Except InputFormatError (DenseMatrix Float) := do
  let rows ← readLines none 1 (lines text.toList)
  match DenseMatrix.ofRows rows with
  | .ok m => return m
  | .error _ => throw .empty

end GaussJordan
