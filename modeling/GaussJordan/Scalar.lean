import GaussJordan.Binary64

namespace GaussJordan

/-- The arithmetic of matrix cells. Nothing is assumed of the operations; elimination runs on
rounded and on exact numbers alike. -/
class Scalar (α : Type) extends Zero α, One α, Add α, Sub α, Mul α, Div α where
  le : α → α → Bool
  lt : α → α → Bool
  magnitude : α → α
  /-- The start of every sum of products. -/
  emptySum : α
  /-- The text of a number with a fixed count of decimal places. -/
  fixedText : Nat → α → String

/-- Doubles. Sums start at negative zero, which leaves every double it is added to unchanged. -/
instance : Scalar Float where
  zero := 0.0
  one := 1.0
  le := Float.le
  lt := Float.lt
  magnitude := Float.abs
  emptySum := -0.0
  fixedText := Binary64.fixedText

instance : Scalar Rat where
  zero := 0
  one := 1
  le a b := decide (a ≤ b)
  lt a b := decide (a < b)
  magnitude := Rat.abs
  emptySum := 0
  fixedText places x := fixedFraction places (decide (x.num < 0)) x.num.natAbs x.den

/-- A number counts as zero when its magnitude does not exceed the tolerance. -/
def isZero {α : Type} [Scalar α] (tolerance x : α) : Bool :=
  Scalar.le (Scalar.magnitude x) tolerance

/-- A number is significant when its magnitude exceeds the tolerance. An unordered number neither
counts as zero nor is significant. -/
def isSignificant {α : Type} [Scalar α] (tolerance x : α) : Bool :=
  Scalar.lt tolerance (Scalar.magnitude x)

end GaussJordan
