import SymbolicCalculus.Number.Digits
import SymbolicCalculus.Number.Shortest

/-! # Number texts

Both texts of a number hold the digits of its shortest decimal. They differ in
where an exponent is written and in whether an integer shows a fraction.
-/

namespace SymbolicCalculus

namespace Decimal

def digits (d : Decimal) : List Char := Nat.toDigits 10 d.significand

/-- The exponent of the leading digit. -/
def leadingExponent (d : Decimal) : Int := d.exponent + d.digits.length - 1

/-- Digits with a point where the units end, padded by zeros on either side. -/
def positional (d : Decimal) : List Char :=
  if 0 ≤ d.exponent then
    Nat.toDigits 10 (d.significand * Nat.pow 10 d.exponent.toNat)
  else
    let places := (-d.exponent).toNat
    Nat.toDigits 10 (d.significand / Nat.pow 10 places) ++
      '.' :: paddedDigits 10 places (d.significand % Nat.pow 10 places)

/-- One digit, the others after a point, and the exponent of the first. -/
def scientific (d : Decimal) : List Char :=
  let mantissa :=
    match d.digits with
    | first :: second :: rest => first :: '.' :: second :: rest
    | single => single
  mantissa ++ 'e' :: (toString d.leadingExponent).toList

end Decimal

/-- Which shortest decimals a text writes positionally, by the exponent of the
leading digit, and whether integers keep a fraction of zero. -/
structure NumberLayout where
  isPositional : Int → Bool
  keepsFraction : Bool

namespace NumberLayout

/-- The text of a number inside an expression: never an exponent. -/
def plain : NumberLayout := ⟨fun _ => true, false⟩

/-- The text of a number inside constructor text: positional from `1e-4` up to
`1e16`, and always recognisable as a binary64 number. -/
def explicit : NumberLayout := ⟨fun exponent => -4 ≤ exponent && exponent < 16, true⟩

/-- The text of the positive decimal `d`. -/
def decimal (layout : NumberLayout) (d : Decimal) : List Char :=
  if layout.isPositional d.leadingExponent then
    d.positional ++ (if layout.keepsFraction ∧ 0 ≤ d.exponent then ['.', '0'] else [])
  else
    d.scientific

/-- The text of the magnitude of a number that is not a NaN. -/
def magnitude (layout : NumberLayout) (b : Binary64) : List Char :=
  if b.isFinite then
    if b.isZero then (if layout.keepsFraction then ['0', '.', '0'] else ['0'])
    else layout.decimal (Binary64.shortest b.code)
  else ['i', 'n', 'f']

/-- The text of a number. A sign bit is a leading minus, except that a NaN
shows neither its sign nor its payload. -/
def number (layout : NumberLayout) (b : Binary64) : List Char :=
  if b.isNaN then ['N', 'a', 'N']
  else if b.negative then '-' :: layout.magnitude b
  else layout.magnitude b

end NumberLayout

end SymbolicCalculus
