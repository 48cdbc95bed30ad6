/-! # Binary64 numbers

A number is the three fields of its IEEE 754 binary64 encoding, so both zeros
and every NaN are values of their own. Nothing here computes with numbers:
expressions only store, compare and write them.
-/

namespace SymbolicCalculus

/-- The sign bit, biased exponent and fraction of a binary64 encoding. -/
structure Binary64 where
  negative : Bool
  exponent : Fin 2048
  fraction : Fin 4503599627370496
deriving DecidableEq, Inhabited

namespace Binary64

/-- The number of fractions that share one exponent. -/
abbrev fractionCount : Nat := 4503599627370496

/-- The encoding read as an integer without its sign bit. Larger magnitudes
have larger codes, and neighbours have neighbouring codes. -/
def code (b : Binary64) : Nat := b.exponent.val * fractionCount + b.fraction.val

/-- The code of infinity; greater codes are NaNs. -/
def infinityCode : Nat := 2047 * fractionCount

/-- The number of the given sign and code. -/
def ofCode (negative : Bool) (code : Nat) : Binary64 :=
  ⟨negative, Fin.ofNat 2048 (code / fractionCount), Fin.ofNat fractionCount code⟩

theorem code_lt (b : Binary64) : b.code < 2048 * fractionCount := by
  have hexponent := b.exponent.isLt
  have hfraction := b.fraction.isLt
  simp only [code, fractionCount]
  omega

theorem ofCode_code (b : Binary64) : ofCode b.negative b.code = b := by
  obtain ⟨negative, ⟨exponent, hexponent⟩, ⟨fraction, hfraction⟩⟩ := b
  simp only [ofCode, code, fractionCount, Fin.ofNat, mk.injEq, Fin.mk.injEq, true_and]
  omega

/-- The encoding as one 64-bit integer. -/
def toBits (b : Binary64) : Nat := b.negative.toNat * 9223372036854775808 + b.code

/-- Read a 64-bit integer as an encoding. -/
def ofBits (bits : Nat) : Binary64 :=
  ofCode (bits / 9223372036854775808 % 2 == 1) (bits % 9223372036854775808)

theorem ofBits_toBits (b : Binary64) : ofBits b.toBits = b := by
  have hcode := b.code_lt
  have hsign : (b.toBits / 9223372036854775808 % 2 == 1) = b.negative := by
    cases h : b.negative <;> simp only [toBits, h, fractionCount, Bool.toNat_false,
      Bool.toNat_true, beq_iff_eq, beq_eq_false_iff_ne] at * <;> omega
  have hrest : b.toBits % 9223372036854775808 = b.code := by
    simp only [toBits, fractionCount] at *
    omega
  rw [ofBits, hsign, hrest, ofCode_code]

def zero : Binary64 := ⟨false, 0, 0⟩
def one : Binary64 := ⟨false, 1023, 0⟩
def two : Binary64 := ⟨false, 1024, 0⟩

def isNaN (b : Binary64) : Bool := b.exponent.val == 2047 && b.fraction.val != 0

/-- Neither an infinity nor a NaN. -/
def isFinite (b : Binary64) : Bool := b.exponent.val != 2047

def isZero (b : Binary64) : Bool := b.code == 0

/-- The same number with its sign bit cleared. -/
def abs (b : Binary64) : Binary64 := { b with negative := false }

/-- Comparison as numbers: a NaN equals nothing, and the two zeros are equal. -/
def equals (a b : Binary64) : Bool :=
  !a.isNaN && !b.isNaN && (decide (a = b) || (a.isZero && b.isZero))

/-- The magnitude with the given code as a multiple of the least positive
number, `2 ^ -1074`. It continues past the largest number, so infinity stands
for `2 ^ 1024`. -/
def unitsOfCode (code : Nat) : Nat :=
  if code < fractionCount then code
  else (fractionCount + code % fractionCount) * Nat.pow 2 (code / fractionCount - 1)

end Binary64

end SymbolicCalculus
