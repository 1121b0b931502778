import GaussJordan.FixedPoint

namespace GaussJordan

namespace Binary64

/-- The bit patterns of two neighbouring powers of two differ by this much. -/
def binade : Nat := 0x10000000000000

/-- The bit pattern of positive infinity; the finite magnitudes lie below it in order. -/
def infinityPattern : Nat := 0x7ff0000000000000

/-- The bit that makes a pattern negative. -/
def signBit : Nat := 0x8000000000000000

/-- The least positive double is one unit, and so many units make one. -/
def unitsInOne : Nat := 1 <<< 1074

/-- The magnitude of a finite pattern, in units. -/
def units (pattern : Nat) : Nat :=
  let exponent := pattern / binade
  let fraction := pattern % binade
  if exponent = 0 then fraction else (binade + fraction) <<< (exponent - 1)

/-- The pattern of the double nearest to `num / den`. A pattern has 53 significant bits, so the
spacing of doubles around `n` units is two to the number of further bits in `n`; rounding up to
the next power of two carries into the exponent, and past the largest double into infinity. -/
def nearestPattern (num den : Nat) : Nat :=
  let scaled := num * unitsInOne
  let further := (scaled / den).log2 - 52
  let pattern := further * binade + roundHalfEven scaled (den <<< further)
  if pattern < infinityPattern then pattern else infinityPattern

def assemble (negative : Bool) (pattern : Nat) : Float :=
  Float.ofBits (UInt64.ofNat (if negative then signBit + pattern else pattern))

def nearest (negative : Bool) (num den : Nat) : Float :=
  assemble negative (nearestPattern num den)

inductive Datum where
  | nan
  | infinity (negative : Bool)
  | finite (negative : Bool) (units : Nat)
deriving DecidableEq

/-- Patterns above that of infinity stand for no number. -/
def datum (x : Float) : Datum :=
  let bits := x.toBits.toNat
  let negative := decide (signBit ≤ bits)
  let pattern := bits % signBit
  if infinityPattern < pattern then .nan
  else if pattern = infinityPattern then .infinity negative
  else .finite negative (units pattern)

/-- The exact value of a double rounded to `places` decimal places. -/
def fixedText (places : Nat) (x : Float) : String :=
  match datum x with
  | .nan => "NaN"
  | .infinity negative => if negative then "-inf" else "inf"
  | .finite negative n => fixedFraction places negative n unitsInOne

/-- The double nearest to `coefficient * 10 ^ exponent`. From `10 ^ 310` on every number rounds to
infinity, and below `2 ^ -1080` to zero; neither power of ten is computed then. -/
def ofDecimal (negative : Bool) (coefficient : Nat) (exponent : Int) : Float :=
  match exponent with
  | .ofNat e =>
    if coefficient = 0 then assemble negative 0
    else if 310 ≤ e then assemble negative infinityPattern
    else nearest negative (coefficient * Nat.pow 10 e) 1
  | .negSucc e =>
    if coefficient.log2 + 1081 < 3 * (e + 1) then assemble negative 0
    else nearest negative coefficient (Nat.pow 10 (e + 1))

end Binary64

end GaussJordan
