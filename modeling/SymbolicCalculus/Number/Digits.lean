/-! # Digits

Rows of decimal and hexadecimal digits, read and written with a fixed width.
-/

namespace SymbolicCalculus

/-- The value of a row of decimal digits. -/
def decimalValue (digits : List Char) : Nat :=
  digits.foldl (fun value c => value * 10 + (c.toNat - '0'.toNat)) 0

/-- The value of a hexadecimal digit in either case. -/
def hexDigit? (c : Char) : Option Nat :=
  if '0' ≤ c ∧ c ≤ '9' then some (c.toNat - '0'.toNat)
  else if 'a' ≤ c ∧ c ≤ 'f' then some (c.toNat - 'a'.toNat + 10)
  else if 'A' ≤ c ∧ c ≤ 'F' then some (c.toNat - 'A'.toNat + 10)
  else none

/-- The value of a row of hexadecimal digits, if it holds nothing else. -/
def hexValue? (digits : List Char) : Option Nat :=
  digits.foldlM (fun value c => (hexDigit? c).map (value * 16 + ·)) 0

/-- The digits of a number in the given base, filled up with zeros on the left. -/
def paddedDigits (base width value : Nat) : List Char :=
  let digits := Nat.toDigits base value
  List.replicate (width - digits.length) '0' ++ digits

end SymbolicCalculus
