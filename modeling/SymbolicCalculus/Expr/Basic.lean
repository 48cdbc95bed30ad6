import SymbolicCalculus.Expr.Tag
import SymbolicCalculus.Number.Rounding

/-! # Expressions

Expression trees over one variable `x`. The order of children matters and
nothing is simplified: two expressions are equal when they are the same tree.
-/

namespace SymbolicCalculus

/-- An expression over the single variable `x`. -/
inductive Expr where
  | constant (value : Binary64)
  | var
  | negate (operand : Expr)
  | apply (function : NamedFunction) (argument : Expr)
  | binary (operator : Operator) (left right : Expr)
deriving DecidableEq, Inhabited

/-- The child indices that lead from a node down to one of its descendants. -/
abbrev Path := List Nat

namespace Expr

def add (left right : Expr) : Expr := .binary .add left right
def subtract (left right : Expr) : Expr := .binary .subtract left right
def multiply (left right : Expr) : Expr := .binary .multiply left right
def divide (left right : Expr) : Expr := .binary .divide left right
def power (left right : Expr) : Expr := .binary .power left right

def zero : Expr := .constant .zero
def one : Expr := .constant .one
def two : Expr := .constant .two

/-- The constant nearest to an integer. -/
def integer (value : Int) : Expr := .constant (.ofInt value)

def tag : Expr → Tag
  | constant _ => .constant
  | var => .var
  | negate _ => .negate
  | apply f _ => .function f
  | binary o _ _ => .operator o

/-- The number of children of the root. -/
def arity (e : Expr) : Nat := e.tag.arity

/-- The child at `index`, counted from zero. -/
def child? : Expr → Nat → Option Expr
  | negate f, 0 => some f
  | apply _ f, 0 => some f
  | binary _ f _, 0 => some f
  | binary _ _ g, 1 => some g
  | _, _ => none

/-- The children of the root, left to right. -/
def children (e : Expr) : List Expr := (List.range e.arity).filterMap e.child?

/-- The node at the end of a path. The empty path leads to the root. -/
def get? : Expr → Path → Option Expr
  | e, [] => some e
  | e, index :: path => (e.child? index).bind (·.get? path)

def isVariable : Expr → Bool
  | var => true
  | _ => false

/-- The number of a constant. -/
def constant? : Expr → Option Binary64
  | constant value => some value
  | _ => none

/-- Whether two expressions have the same shape and equal numbers at the same
places. This is not the identity of trees: the zeros agree, and no NaN agrees
with itself. -/
def equals : Expr → Expr → Bool
  | constant a, constant b => a.equals b
  | var, var => true
  | negate f, negate f' => f.equals f'
  | apply function f, apply function' f' => decide (function = function') && f.equals f'
  | binary operator f g, binary operator' f' g' =>
      decide (operator = operator') && f.equals f' && g.equals g'
  | _, _ => false

end Expr

end SymbolicCalculus
