import SymbolicCalculus.Json.Basic
import SymbolicCalculus.Number.Digits

/-! # Reading JSON

The JSON value that a text denotes. Of members with equal names the last one
counts. An integer `-0` is the negative zero, which no integer is; a number
beyond the largest one is refused.
-/

namespace SymbolicCalculus.Json

namespace Reader

/-- The text after leading white space. -/
def skipBlanks (cs : List Char) : List Char :=
  cs.dropWhile fun c => c == ' ' || c == '\t' || c == '\n' || c == '\r'

/-- A unit of UTF-16 in four hexadecimal digits. -/
def unit? (a b c d : Char) : Option Nat := hexValue? [a, b, c, d]

/-- The character that a one-letter escape stands for. -/
def escape? : Char → Option Char
  | '"' => some '"'
  | '\\' => some '\\'
  | '/' => some '/'
  | 'b' => some '\x08'
  | 'f' => some '\x0c'
  | 'n' => some '\n'
  | 'r' => some '\r'
  | 't' => some '\t'
  | _ => none

/-- The character of a code unit that is no surrogate. -/
def character? (unit : Nat) : Option Char :=
  if 0xD800 ≤ unit ∧ unit < 0xE000 then none else some (Char.ofNat unit)

/-- The character of a pair of surrogates. -/
def surrogates? (high low : Nat) : Option Char :=
  if 0xD800 ≤ high ∧ high < 0xDC00 ∧ 0xDC00 ≤ low ∧ low < 0xE000 then
    some (Char.ofNat (0x10000 + (high - 0xD800) * 0x400 + (low - 0xDC00)))
  else none

/-- The rest of a string whose opening quote has been read, and what follows
its closing quote. -/
def stringTail (read : List Char) : List Char → Option (String × List Char)
  | '"' :: rest => some (String.ofList read.reverse, rest)
  | '\\' :: 'u' :: a :: b :: c :: d :: rest =>
      match (unit? a b c d).bind character?, rest with
      | some char, rest => stringTail (char :: read) rest
      | none, '\\' :: 'u' :: e :: f :: g :: h :: rest => do
          let char ← surrogates? (← unit? a b c d) (← unit? e f g h)
          stringTail (char :: read) rest
      | none, _ => none
  | '\\' :: c :: rest => do stringTail ((← escape? c) :: read) rest
  | c :: rest => if c.toNat < 0x20 then none else stringTail (c :: read) rest
  | [] => none

/-- The digits at the head of a text, of which there must be at least one. -/
def digits? (cs : List Char) : Option (List Char × List Char) :=
  let digits := cs.takeWhile Char.isDigit
  if digits.isEmpty then none else some (digits, cs.dropWhile Char.isDigit)

/-- The digits of an integer, which has no leading zeros. -/
def integerDigits? (cs : List Char) : Option (List Char × List Char) := do
  let (digits, rest) ← digits? cs
  if digits.head? = some '0' ∧ digits.length ≠ 1 then none else some (digits, rest)

/-- The digits after a point, if there is one. -/
def fraction? : List Char → Option (Option (List Char) × List Char)
  | '.' :: rest => (digits? rest).map fun (digits, rest) => (some digits, rest)
  | rest => some (none, rest)

/-- The exponent after a letter `e`, if there is one. -/
def exponent? : List Char → Option (Option Int × List Char)
  | c :: rest =>
      if c == 'e' || c == 'E' then
        match rest with
        | '-' :: rest => (digits? rest).map fun (digits, rest) =>
            (some (-(decimalValue digits : Int)), rest)
        | '+' :: rest => (digits? rest).map fun (digits, rest) =>
            (some (decimalValue digits : Int), rest)
        | rest => (digits? rest).map fun (digits, rest) =>
            (some (decimalValue digits : Int), rest)
      else some (none, c :: rest)
  | [] => some (none, [])

/-- A number, after its sign. -/
def number? (negative : Bool) (cs : List Char) : Option (Json × List Char) := do
  let (whole, rest) ← integerDigits? cs
  let (fraction, rest) ← fraction? rest
  let (exponent, rest) ← exponent? rest
  if fraction.isNone ∧ exponent.isNone ∧ ¬(negative ∧ decimalValue whole = 0) then
    let magnitude : Int := decimalValue whole
    let value := if negative then -magnitude else magnitude
    if (Binary64.ofInt value).isFinite then return (.integer value, rest) else none
  let places := fraction.getD []
  let value := Binary64.ofDecimal negative (decimalValue (whole ++ places))
    (exponent.getD 0 - places.length)
  if value.isFinite then some (.number value, rest) else none

/-- The text after a given word. -/
def word? (word : String) (cs : List Char) : Option (List Char) :=
  if word.toList.isPrefixOf cs then some (cs.drop word.length) else none

/-- Put a member into an object, in place of one with the same name. -/
def put (name : String) (value : Json) (members : List (String × Json)) :
    List (String × Json) :=
  if members.any (·.1 == name) then
    members.map fun member => if member.1 == name then (name, value) else member
  else members ++ [(name, value)]

mutual

/-- The value at the head of a text, nested at most `depth` deep. -/
def value? : Nat → List Char → Option (Json × List Char)
  | 0, _ => none
  | depth + 1, cs =>
      match skipBlanks cs with
      | '"' :: rest => (stringTail [] rest).map fun (text, rest) => (.string text, rest)
      | '[' :: rest =>
          match skipBlanks rest with
          | ']' :: rest => some (.array [], rest)
          | rest => elements? depth [] rest
      | '\x7b' :: rest =>
          match skipBlanks rest with
          | '\x7d' :: rest => some (.object [], rest)
          | rest => members? depth [] rest
      | 'n' :: rest => (word? "ull" rest).map (Json.null, ·)
      | 't' :: rest => (word? "rue" rest).map (Json.bool true, ·)
      | 'f' :: rest => (word? "alse" rest).map (Json.bool false, ·)
      | '-' :: rest => number? true rest
      | rest => number? false rest

/-- The elements of an array up to its closing bracket. -/
def elements? : Nat → List Json → List Char → Option (Json × List Char)
  | 0, _, _ => none
  | fuel + 1, read, cs => do
      let (value, rest) ← value? fuel cs
      match skipBlanks rest with
      | ',' :: rest => elements? fuel (value :: read) rest
      | ']' :: rest => some (.array (value :: read).reverse, rest)
      | _ => none

/-- The members of an object up to its closing brace. -/
def members? : Nat → List (String × Json) → List Char → Option (Json × List Char)
  | 0, _, _ => none
  | fuel + 1, read, cs =>
      match skipBlanks cs with
      | '"' :: rest => do
          let (name, rest) ← stringTail [] rest
          match skipBlanks rest with
          | ':' :: rest => do
              let (value, rest) ← value? fuel rest
              match skipBlanks rest with
              | ',' :: rest => members? fuel (put name value read) rest
              | '\x7d' :: rest => some (.object (put name value read), rest)
              | _ => none
          | _ => none
      | _ => none

end

end Reader

/-- The JSON value that a text denotes. Every value and every separator takes a
character, so the length of the text bounds the recursion. -/
def read? (text : String) : Option Json :=
  let cs := text.toList
  match Reader.value? (2 * cs.length + 1) cs with
  | some (value, rest) => if (Reader.skipBlanks rest).isEmpty then some value else none
  | none => none

end SymbolicCalculus.Json
