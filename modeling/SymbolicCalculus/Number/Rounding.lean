import SymbolicCalculus.Number.Binary64

/-! # Rounding to the nearest number

A ratio of integers becomes the nearest binary64 number, and a tie goes to the
even encoding. The computation is exact: it counts the ratio in units of
`2 ^ -1074` and rounds once.
-/

namespace SymbolicCalculus

/-- The integer nearest to `numerator / denominator`, the even one of two. -/
def roundHalfEven (numerator denominator : Nat) : Nat :=
  let below := numerator / denominator
  match compare (2 * (numerator % denominator)) denominator with
  | .lt => below
  | .gt => below + 1
  | .eq => below + below % 2

namespace Binary64

/-- The code nearest to `numerator / denominator`. Results beyond the largest
number are infinite. -/
def nearestCode (numerator denominator : Nat) : Nat :=
  let units := numerator * Nat.pow 2 1074
  let shift := (units / denominator).log2 - 52
  min infinityCode (shift * fractionCount + roundHalfEven units (denominator * Nat.pow 2 shift))

/-- The number nearest to an integer. -/
def ofInt (value : Int) : Binary64 :=
  ofCode (decide (value < 0)) (nearestCode value.natAbs 1)

/-- The number nearest to `significand * 10 ^ exponent`, with the given sign;
zero keeps it too. Exponents that leave the range whatever the digits say are
answered without computing the power. -/
def ofDecimal (negative : Bool) (significand : Nat) (exponent : Int) : Binary64 :=
  let digits := (Nat.toDigits 10 significand).length
  ofCode negative <|
    if significand = 0 ∨ exponent + digits < -330 then 0
    else if 310 < exponent then infinityCode
    else if 0 ≤ exponent then nearestCode (significand * Nat.pow 10 exponent.toNat) 1
    else nearestCode significand (Nat.pow 10 (-exponent).toNat)

end Binary64

end SymbolicCalculus
