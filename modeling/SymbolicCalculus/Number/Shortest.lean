import SymbolicCalculus.Number.Binary64

/-! # Shortest decimals

The decimal of a positive number is taken from the coarsest grid of multiples
of a power of ten that has a point which reads back as that number, and it is
the nearest such point. Of two equally near points the greater one is chosen.

All magnitudes are counted in units of `10 ^ -1074`. Every binary64 magnitude
is a whole number of these units, so the finest grid always has a point and
the comparisons are exact.
-/

namespace SymbolicCalculus

/-- The value `significand * 10 ^ exponent`. -/
structure Decimal where
  significand : Nat
  exponent : Int
deriving DecidableEq

namespace Binary64

/-- The factor between units of `2 ^ -1074` and units of `10 ^ -1074`. -/
def decimalUnits : Nat := Nat.pow 5 1074

/-- Whether a point, in units of `10 ^ -1074`, reads back as the number with
this code: it lies between the midpoints to both neighbours. A midpoint itself
reads back as the even neighbour. -/
def readsBack (code point : Nat) : Bool :=
  let below := (unitsOfCode (code - 1) + unitsOfCode code) * decimalUnits
  let above := (unitsOfCode code + unitsOfCode (code + 1)) * decimalUnits
  if code % 2 = 0 then below ≤ 2 * point && 2 * point ≤ above
  else below < 2 * point && 2 * point < above

/-- The multiple of `10 ^ (grid - 1074)` that is nearest to the number with
this code among those that read back as it, if there is one. -/
def pointOnGrid? (code grid : Nat) : Option Nat :=
  let value := unitsOfCode code * decimalUnits
  let step := Nat.pow 10 grid
  let below := value / step
  let above := below + 1
  match readsBack code (below * step), readsBack code (above * step) with
  | false, false => none
  | true, false => some below
  | false, true => some above
  | true, true => if value - below * step < above * step - value then some below else some above

/-- The point of the coarsest grid, counting down from `grid`, that reads back.
The finest grid holds the number itself. -/
def searchGrids (code : Nat) : Nat → Decimal
  | 0 => ⟨unitsOfCode code * decimalUnits, -1074⟩
  | grid + 1 =>
      match pointOnGrid? code (grid + 1) with
      | some point => ⟨point, (grid + 1 : Int) - 1074⟩
      | none => searchGrids code grid

/-- A grid whose step is at least the magnitude with this code, by the estimate
`1233 / 4096` of the decimal logarithm of two. -/
def coarsestGrid (code : Nat) : Nat :=
  let bits : Int := (unitsOfCode code).log2 + 1
  ((bits - 1074) * 1233 / 4096 + 1 + 1074).toNat

/-- The shortest decimal of the finite positive magnitude with this code. -/
def shortest (code : Nat) : Decimal := searchGrids code (coarsestGrid code)

end Binary64

end SymbolicCalculus
