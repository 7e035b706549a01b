import TimedInput.Number.Rounding
import TimedInput.Text.Numeral

/-!
# Numbers with two decimal places

The report of a measured time has two places after the point. The exact value is
rounded once, and an exact half goes to the even neighbour.
-/

namespace TimedInput

/-- A number that is zero or positive, with two places. -/
def twoPlaces (q : Rat) : Bytes :=
  let hundredths := (Rounding.halfEven (q * 100)).toNat
  let places := Numeral.ofNat (hundredths % 100)
  Numeral.ofNat (hundredths / 100) ++ [46] ++ List.replicate (2 - places.length) 48 ++ places

end TimedInput
