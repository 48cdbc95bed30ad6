import SymbolicCalculus.Expr.Basic
import SymbolicCalculus.Number.Layout

/-! # Infix text

An expression is written with parentheses only where the tree would otherwise
be lost, so `x - (x - 1)` and `x - x - 1` differ. One walk over the tree writes
the text and finds the range of a marked node in it. Every character written is
ASCII, so ranges count characters and bytes alike.
-/

namespace SymbolicCalculus

/-- The characters of a text from `start` up to, but not including, `stop`. -/
structure Span where
  start : Nat
  stop : Nat
deriving DecidableEq

/-- The length of a span. -/
def Span.length (span : Span) : Nat := span.stop - span.start

/-- The text inside a span. -/
def Span.slice (span : Span) (text : String) : String :=
  String.ofList ((text.toList.drop span.start).take (span.stop - span.start))

/-- How an expression binds when it is written, from loosest to tightest. -/
inductive Binding where
  | sum
  | product
  | signed
  | power
  | primary
deriving DecidableEq

def Binding.strength : Binding → Nat
  | sum => 0
  | product => 1
  | signed => 2
  | power => 3
  | primary => 4

/-- The binding of an operator's applications. -/
def Operator.binding : Operator → Binding
  | add | subtract => .sum
  | multiply | divide => .product
  | power => .power

/-- Powers group to the right, all other operators to the left. -/
def Operator.groupsRight : Operator → Bool
  | power => true
  | _ => false

/-- The binding of an expression. A constant with a sign bit is written with a
minus, or is a NaN, and binds as a negation in either case. -/
def Expr.binding : Expr → Binding
  | constant value => if value.negative then .signed else .primary
  | var => .primary
  | negate _ => .signed
  | apply _ _ => .primary
  | binary operator _ _ => operator.binding

/-- Whether an operand needs parentheses: it binds looser than its parent, or
as tight while standing on the side where ties are not grouped. -/
def Binding.needsParentheses (parent operand : Binding) (onTie : Bool) : Bool :=
  operand.strength < parent.strength || (operand.strength == parent.strength && onTie)

/-- The text written so far, its length, and the span of the marked node once
that has been written. -/
structure Canvas where
  text : String := ""
  length : Nat := 0
  span : Option Span := none

namespace Canvas

def write (canvas : Canvas) (text : String) : Canvas :=
  { canvas with text := canvas.text ++ text, length := canvas.length + text.length }

/-- Let `body` write, between parentheses if they are needed. -/
def parenthesize (needed : Bool) (body : Canvas → Canvas) (canvas : Canvas) : Canvas :=
  if needed then (body (canvas.write "(")).write ")" else body canvas

/-- Mark what was written since `start`. -/
def mark (canvas : Canvas) (start : Nat) : Canvas :=
  { canvas with span := some ⟨start, canvas.length⟩ }

end Canvas

/-- What is left of a target path below the child at `index`. Without a target,
or with one elsewhere, nothing below is marked. -/
def targetBelow (index : Nat) : Option Path → Option Path
  | some (first :: path) => if first = index then some path else none
  | _ => none

namespace Expr

/-- The name of the single variable. -/
def variableName : String := "x"

/-- Write an expression onto a canvas, marking the node at the target. -/
def draw (target : Option Path) (e : Expr) (canvas : Canvas) : Canvas :=
  let start := canvas.length
  let drawn :=
    match e with
    | constant value => canvas.write (String.ofList (NumberLayout.plain.number value))
    | var => canvas.write variableName
    | negate f =>
        (canvas.write "-").parenthesize (Binding.signed.needsParentheses f.binding true)
          (f.draw (targetBelow 0 target))
    | apply function f =>
        ((f.draw (targetBelow 0 target) (canvas.write (function.symbol ++ "("))).write ")")
    | binary operator f g =>
        let binding := operator.binding
        let left := canvas.parenthesize
          (binding.needsParentheses f.binding operator.groupsRight)
          (f.draw (targetBelow 0 target))
        (left.write operator.symbol).parenthesize
          (binding.needsParentheses g.binding (!operator.groupsRight))
          (g.draw (targetBelow 1 target))
  if target = some [] then drawn.mark start else drawn

/-- The infix text of an expression. -/
def text (e : Expr) : String := (e.draw none {}).text

/-- The infix text, together with the span of the node at `path` if the path
leads to one. Parentheses around the node belong to its parent. -/
def textWithSpan (e : Expr) (path : Path) : String × Option Span :=
  let canvas := e.draw (some path) {}
  (canvas.text, canvas.span)

end Expr

end SymbolicCalculus
