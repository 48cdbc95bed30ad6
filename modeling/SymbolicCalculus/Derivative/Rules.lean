import SymbolicCalculus.Derivative.Step
import SymbolicCalculus.Expr.Rendering
import SymbolicCalculus.Expr.ConstructorText

/-! # Derivatives and the rules for single nodes

A rule takes the operands of a node and their derivatives to the derivative of
the node, and names itself. Terms whose derivative is exactly zero are left
out; nothing else is simplified.

Two rules are not those of analysis. A constant exponent drops the derivative
of the base, so the result is exact only where that derivative is one. The rule
for other exponents takes the logarithm of the exponent rather than the base,
so it is exact only in special cases, such as equal base and exponent.
-/

namespace SymbolicCalculus

/-- The derivative of an expression: exactly zero, or an expression. -/
inductive Derivative where
  | zero
  | expr (e : Expr)
deriving DecidableEq

namespace Derivative

/-- The tag of the root, `null` for a zero derivative. -/
def tag : Derivative → Tag
  | zero => .null
  | expr e => e.tag

def isZero : Derivative → Bool
  | zero => true
  | expr _ => false

/-- The derivative as an expression, in which zero is the constant `0`. -/
def toExpr : Derivative → Expr
  | zero => .zero
  | expr e => e

/-- Whether both are zero, or both expressions with equal shape and numbers. -/
def equals : Derivative → Derivative → Bool
  | zero, zero => true
  | expr e, expr e' => e.equals e'
  | _, _ => false

/-- The derivative in messages. -/
def text : Derivative → String
  | zero => "0"
  | expr e => e.text

def constructorText : Derivative → String
  | zero => "Zero"
  | expr e => "Expr(" ++ e.constructorText ++ ")"

end Derivative

namespace Rules

open SymbolicCalculus.Expr

/-- The rule for `-f`, given `f'`. -/
def negate : Derivative → Step × Derivative
  | .zero => (.zeroDerivative, .zero)
  | .expr df => (.negate, .expr (.negate df))

/-- The rule for `f + g`, given `f'` and `g'`. -/
def sum : Derivative → Derivative → Step × Derivative
  | .zero, .zero => (.zeroDerivative, .zero)
  | .zero, .expr dg => (.sumConstantLeft, .expr dg)
  | .expr df, .zero => (.sumConstantRight, .expr df)
  | .expr df, .expr dg => (.sum, .expr (add df dg))

/-- The rule for `f - g`, given `f'` and `g'`. -/
def difference : Derivative → Derivative → Step × Derivative
  | .zero, .zero => (.zeroDerivative, .zero)
  | .zero, .expr dg => (.differenceConstantLeft, .expr (.negate dg))
  | .expr df, .zero => (.differenceConstantRight, .expr df)
  | .expr df, .expr dg => (.difference, .expr (subtract df dg))

/-- The rule for `f * g`. -/
def product (f g : Expr) : Derivative → Derivative → Step × Derivative
  | .zero, .zero => (.zeroDerivative, .zero)
  | .zero, .expr dg => (.constantFactorLeft, .expr (multiply f dg))
  | .expr df, .zero => (.constantFactorRight, .expr (multiply df g))
  | .expr df, .expr dg => (.product, .expr (add (multiply df g) (multiply f dg)))

/-- The rule for `f / g`. -/
def quotient (f g : Expr) : Derivative → Derivative → Step × Derivative
  | .zero, .zero => (.zeroDerivative, .zero)
  | .zero, .expr dg =>
      (.reciprocal, .expr (multiply f (divide (.negate dg) (power g two))))
  | .expr df, .zero => (.constantDivisor, .expr (multiply (divide one g) df))
  | .expr df, .expr dg =>
      (.quotient,
        .expr (divide (subtract (multiply df g) (multiply f dg)) (power g two)))

/-- The rule for `f ^ g`. A zero derivative of the base appears as a literal
`0` where the exponent has a derivative. -/
def power (f g : Expr) : Derivative → Derivative → Step × Derivative
  | .zero, .zero => (.zeroDerivative, .zero)
  | .expr _, .zero =>
      (.powerRule, .expr (multiply g (Expr.power f (subtract g one))))
  | df, .expr dg =>
      (.generalPower,
        .expr (multiply (Expr.power f g)
          (add (multiply df.toExpr (.apply .ln g)) (multiply f (divide dg g)))))

/-- The rule for an operator applied to `f` and `g`. -/
def operator : Operator → Expr → Expr → Derivative → Derivative → Step × Derivative
  | .add, _, _ => sum
  | .subtract, _, _ => difference
  | .multiply, f, g => product f g
  | .divide, f, g => quotient f g
  | .power, f, g => power f g

/-- The chain rule of a function, for an argument `f` whose derivative `df` is
not zero. The sine, the cosine and the exponential leave out the factor `x'`
of a bare variable. There is no rule for the logarithm. -/
def chain? : NamedFunction → Option (Expr → Expr → Step × Expr)
  | .sin => some fun f df =>
      if f.isVariable then (.sin, .apply .cos f)
      else (.sinChain, multiply df (.apply .cos f))
  | .cos => some fun f df =>
      if f.isVariable then (.cos, .negate (.apply .sin f))
      else (.cosChain, .negate (multiply df (.apply .sin f)))
  | .tan => some fun f df => (.tan, divide df (Expr.power (.apply .cos f) two))
  | .exp => some fun f df =>
      if f.isVariable then (.exp, .apply .exp f)
      else (.expChain, multiply df (.apply .exp f))
  | .sqrt => some fun f df => (.sqrt, divide df (multiply two (.apply .sqrt f)))
  | .ln => none

/-- A function's rule: its chain rule where the argument has a derivative. -/
def function (chain : Expr → Expr → Step × Expr) (f : Expr) : Derivative → Step × Derivative
  | .zero => (.zeroDerivative, .zero)
  | .expr df =>
      let (step, derivative) := chain f df
      (step, .expr derivative)

end Rules

end SymbolicCalculus
