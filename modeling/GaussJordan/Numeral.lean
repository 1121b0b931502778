import GaussJordan.Binary64

namespace GaussJordan

/-- A written number without its sign. -/
inductive Magnitude where
  | nan
  | infinity
  | decimal (coefficient : Nat) (exponent : Int)
deriving DecidableEq

structure Numeral where
  negative : Bool
  magnitude : Magnitude
deriving DecidableEq

namespace Numeral

/-- An optional sign, and what follows it. -/
def signed : List Char → Bool × List Char
  | '-' :: rest => (true, rest)
  | '+' :: rest => (false, rest)
  | rest => (false, rest)

/-- An exponent part: nothing, or the letter e and a signed row of digits. -/
def exponent? : List Char → Option Int
  | [] => some 0
  | letter :: rest =>
    let (negative, digits) := signed rest
    if (letter = 'e' ∨ letter = 'E') ∧ digits ≠ [] ∧ digits.all Char.isDigit then
      let size := Nat.ofDigitChars 10 digits 0
      some (if negative then -size else size)
    else none

/-- Digits after a point, and what follows them. -/
def fraction : List Char → List Char × List Char
  | '.' :: rest => (rest.takeWhile Char.isDigit, rest.dropWhile Char.isDigit)
  | rest => ([], rest)

/-- Digits with an optional point among, before or after them, then an exponent part. -/
def decimal? (text : List Char) : Option Magnitude :=
  let whole := text.takeWhile Char.isDigit
  let (decimals, rest) := fraction (text.dropWhile Char.isDigit)
  if whole = [] ∧ decimals = [] then none
  else (exponent? rest).map fun e =>
    .decimal (Nat.ofDigitChars 10 (whole ++ decimals) 0) (e - decimals.length)

/-- The words for what is no number or no finite one, in any case; else a decimal. -/
def magnitude? (text : List Char) : Option Magnitude :=
  let word := text.map Char.toLower
  if word = ['n', 'a', 'n'] then some .nan
  else if word = ['i', 'n', 'f'] ∨ word = ['i', 'n', 'f', 'i', 'n', 'i', 't', 'y'] then
    some .infinity
  else decimal? text

/-- Reads a whole token. -/
def read? (token : List Char) : Option Numeral :=
  let (negative, rest) := signed token
  (magnitude? rest).map fun m => ⟨negative, m⟩

def value (n : Numeral) : Float :=
  match n.magnitude with
  | .nan => 0.0 / 0.0
  | .infinity => Binary64.assemble n.negative Binary64.infinityPattern
  | .decimal coefficient exponent => Binary64.ofDecimal n.negative coefficient exponent

end Numeral

end GaussJordan
