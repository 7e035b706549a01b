/-!
# Rounding of exact quotients

Positions, offsets and elapsed times go through binary floating point numbers. Such a
number is taken here as the rational that it denotes, so an operation of that
arithmetic is the exact operation followed by `toSignificant`, which keeps a number of
significant bits. The magnitudes that occur are far from overflow and underflow, and
exponents are therefore unbounded.

The module also has the two ways to a whole number: ties to the even neighbour, and
ties away from zero.
-/

namespace TimedInput.Rounding

/-- Two to the power `k`. -/
def pow2 : Int → Rat
  | .ofNat n => (Nat.pow 2 n : Nat)
  | .negSucc n => 1 / (Nat.pow 2 (n + 1) : Nat)

/-- The nearest integer; a half goes to the even one. -/
def halfEven (q : Rat) : Int :=
  let below := q.floor
  let part := q - below
  if part < 1 / 2 then below
  else if 1 / 2 < part then below + 1
  else if below % 2 = 0 then below
  else below + 1

/-- The nearest integer; a half goes away from zero. -/
def halfAway (q : Rat) : Int :=
  if 0 ≤ q then (q + 1 / 2).floor else -(1 / 2 - q).floor

/-- The exponent of the largest power of two that is at most `q`, for positive `q`. -/
def exponent (q : Rat) : Int :=
  let e : Int := (q.num.natAbs.log2 : Int) - (q.den.log2 : Int)
  if pow2 e ≤ q then e else e - 1

/-- The nearest number with `p` significant bits, for positive `q`; ties to even. -/
def toSignificantPos (p : Nat) (q : Rat) : Rat :=
  let unit := exponent q + 1 - p
  halfEven (q / pow2 unit) * pow2 unit

/-- The nearest number with `p` significant bits, ties to even, on both sides of zero. -/
def toSignificant (p : Nat) (q : Rat) : Rat :=
  if 0 < q then toSignificantPos p q
  else if q < 0 then -toSignificantPos p (-q)
  else 0

/-- Double precision keeps 53 bits. -/
def binary64 (q : Rat) : Rat :=
  toSignificant 53 q

/-- Single precision keeps 24 bits. -/
def binary32 (q : Rat) : Rat :=
  toSignificant 24 q

/-- The interchange word of a single precision number that is zero or positive and normal. -/
def word32 (q : Rat) : UInt32 :=
  if q = 0 then 0
  else
    let e := exponent q
    let significand := (q / pow2 (e - 23)).floor.toNat
    ((e + 127).toNat * 8388608 + (significand - 8388608)).toUInt32

end TimedInput.Rounding
