import SymbolicCalculus.Expr.Basic
import SymbolicCalculus.Number.Digits

/-! # Reverse Polish notation

Expressions as words on a stack machine: each word takes its operands off the
stack and puts one expression back. Constants are decimal integers, or `#` and
the sixteen hexadecimal digits of an encoding.
-/

namespace SymbolicCalculus

/-- A word that builds an expression from those on top of the stack. -/
inductive Builder where
  | var
  | negate
  | apply (function : NamedFunction)
  | binary (operator : Operator)
deriving DecidableEq

namespace Builder

/-- The words that build expressions. The four operators of arithmetic and the
minus sign have a second spelling each. -/
def vocabulary : List (String × Builder) :=
  [("x", var), ("neg", negate), ("op_neg", negate),
    ("sin", apply .sin), ("cos", apply .cos), ("tan", apply .tan),
    ("exp", apply .exp), ("ln", apply .ln), ("sqrt", apply .sqrt),
    ("add", binary .add), ("sub", binary .subtract), ("mul", binary .multiply),
    ("div", binary .divide), ("pow", binary .power),
    ("op_add", binary .add), ("op_sub", binary .subtract),
    ("op_mul", binary .multiply), ("op_div", binary .divide)]

def ofWord? (word : String) : Option Builder := vocabulary.lookup word

/-- Build from the operands on a stack, whose head is its top. The top is the
right operand. -/
def run? : Builder → List Expr → Option (List Expr)
  | var, stack => some (.var :: stack)
  | negate, f :: stack => some (.negate f :: stack)
  | apply function, f :: stack => some (.apply function f :: stack)
  | binary operator, g :: f :: stack => some (.binary operator f g :: stack)
  | _, _ => none

end Builder

/-- Why words do not denote an expression. -/
inductive ReadingError where
  | stackUnderflow
  | unknownToken (token : String)
  | notOneExpression
deriving DecidableEq

def ReadingError.message : ReadingError → String
  | stackUnderflow => "stack underflow"
  | unknownToken token => "unknown token `" ++ token ++ "`"
  | notOneExpression => "not exactly one expression"

namespace Binary64

/-- The integer of a row of digits up to `limit`, negated if asked. -/
def ofDigits? (negative : Bool) (limit : Nat) (digits : List Char) : Option Binary64 :=
  let magnitude : Int := decimalValue digits
  if digits ≠ [] ∧ digits.all Char.isDigit ∧ magnitude ≤ limit then
    some (ofInt (if negative then -magnitude else magnitude))
  else none

/-- The number that a word denotes: the nearest to an integer of the signed
64-bit range, or the one with the given encoding. -/
def ofWord? (word : String) : Option Binary64 :=
  match word.toList with
  | '#' :: digits => if digits.length = 16 then (hexValue? digits).map ofBits else none
  | '-' :: digits => ofDigits? true 9223372036854775808 digits
  | '+' :: digits => ofDigits? false 9223372036854775807 digits
  | digits => ofDigits? false 9223372036854775807 digits

/-- The encoding as a word that reads back as this number. -/
def toWord (b : Binary64) : String := String.ofList ('#' :: paddedDigits 16 16 b.toBits)

end Binary64

/-- The blanks between words. -/
def isBlank (c : Char) : Bool :=
  c == ' ' || c == '\t' || c == '\n' || c == '\r' || c == '\x0c'

/-- The words of a text. -/
def wordsOf (text : String) : List String :=
  let (word, words) := text.toList.foldr
    (fun c (word, words) =>
      if isBlank c then ([], if word.isEmpty then words else String.ofList word :: words)
      else (c :: word, words))
    ([], [])
  if word.isEmpty then words else String.ofList word :: words

namespace Expr

/-- Run one word on a stack of expressions. -/
def runWord (stack : List Expr) (word : String) : Except ReadingError (List Expr) :=
  match Builder.ofWord? word with
  | some builder =>
      match builder.run? stack with
      | some stack => .ok stack
      | none => .error .stackUnderflow
  | none =>
      match Binary64.ofWord? word with
      | some value => .ok (.constant value :: stack)
      | none => .error (.unknownToken word)

/-- The expression that a text denotes. The first faulty word is reported
before the number of expressions is looked at. -/
def ofReversePolish (text : String) : Except ReadingError Expr := do
  match ← (wordsOf text).foldlM runWord [] with
  | [e] => .ok e
  | _ => .error .notOneExpression

/-- The words of an expression, in front of `rest`. -/
def words : Expr → List String → List String
  | constant value, rest => value.toWord :: rest
  | var, rest => variableWord :: rest
  | negate f, rest => f.words ("neg" :: rest)
  | apply function f, rest => f.words (function.symbol :: rest)
  | binary operator f g, rest => f.words (g.words (operatorWord operator :: rest))
where
  variableWord : String := "x"
  operatorWord : Operator → String
    | .add => "add"
    | .subtract => "sub"
    | .multiply => "mul"
    | .divide => "div"
    | .power => "pow"

/-- The expression in reverse Polish notation, every constant by its encoding. -/
def reversePolish (e : Expr) : String := " ".intercalate (e.words [])

end Expr

end SymbolicCalculus
