import GaussJordan.RoundHalfEven

namespace GaussJordan

/-- The digits of `scaled / 10 ^ places`: the whole part, then a point and exactly `places`
digits. No point is written for no places. -/
def fixedDigits (places scaled : Nat) : List Char :=
  let unit := Nat.pow 10 places
  let whole := Nat.toDigits 10 (scaled / unit)
  if places = 0 then whole
  else whole ++ '.' :: (Nat.toDigits 10 (scaled % unit)).leftpad places '0'

/-- The text of the fraction `num / den` rounded to `places` decimal places. The sign is written
whenever `negative` holds, also before a zero. -/
def fixedFraction (places : Nat) (negative : Bool) (num den : Nat) : String :=
  let digits := fixedDigits places (roundHalfEven (num * Nat.pow 10 places) den)
  String.ofList (if negative then '-' :: digits else digits)

end GaussJordan
