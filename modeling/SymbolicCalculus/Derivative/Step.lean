/-! # Rule names

Each node of a differentiated expression is settled by one rule. In the
equations below `c` has a derivative that is exactly zero, `f` and `g` do not,
and `n` is an exponent that has one.
-/

namespace SymbolicCalculus

/-- The rule that settled a node. -/
inductive Step where
  /-- The equation `c' = 0` for a constant. -/
  | constant
  /-- The equation `x' = 1`. -/
  | var
  /-- All operands of an inner node have zero derivatives, so it has one too. -/
  | zeroDerivative
  /-- The equation `(-f)' = -f'`. -/
  | negate
  /-- The equation `(f + g)' = f' + g'`. -/
  | sum
  /-- The equation `(c + g)' = g'`. -/
  | sumConstantLeft
  /-- The equation `(f + c)' = f'`. -/
  | sumConstantRight
  /-- The equation `(f - g)' = f' - g'`. -/
  | difference
  /-- The equation `(c - g)' = -g'`. -/
  | differenceConstantLeft
  /-- The equation `(f - c)' = f'`. -/
  | differenceConstantRight
  /-- The equation `(f * g)' = f' * g + f * g'`. -/
  | product
  /-- The equation `(c * g)' = c * g'`. -/
  | constantFactorLeft
  /-- The equation `(f * c)' = f' * c`. -/
  | constantFactorRight
  /-- The equation `(f / g)' = (f' * g - f * g') / g^2`. -/
  | quotient
  /-- The equation `(c / g)' = c * (-g' / g^2)`. -/
  | reciprocal
  /-- The equation `(f / c)' = (1 / c) * f'`. -/
  | constantDivisor
  /-- The equation `(f^n)' = n * f^(n - 1)`, without the factor `f'`. -/
  | powerRule
  /-- The equation `(f^g)' = f^g * (f' * ln(g) + f * (g' / g))`. -/
  | generalPower
  /-- The equation `sin(x)' = cos(x)`. -/
  | sin
  /-- The equation `sin(f)' = f' * cos(f)`. -/
  | sinChain
  /-- The equation `cos(x)' = -sin(x)`. -/
  | cos
  /-- The equation `cos(f)' = -(f' * sin(f))`. -/
  | cosChain
  /-- The equation `tan(f)' = f' / cos(f)^2`. -/
  | tan
  /-- The equation `exp(x)' = exp(x)`. -/
  | exp
  /-- The equation `exp(f)' = f' * exp(f)`. -/
  | expChain
  /-- The equation `sqrt(f)' = f' / (2 * sqrt(f))`. -/
  | sqrt
deriving DecidableEq

namespace Step

/-- All rules. -/
def all : List Step :=
  [constant, var, zeroDerivative, negate, sum, sumConstantLeft, sumConstantRight, difference,
    differenceConstantLeft, differenceConstantRight, product, constantFactorLeft,
    constantFactorRight, quotient, reciprocal, constantDivisor, powerRule, generalPower, sin,
    sinChain, cos, cosChain, tan, exp, expChain, sqrt]

theorem mem_all (step : Step) : step ∈ all := by cases step <;> decide

/-- The name of the rule in data and messages. -/
def name : Step → String
  | constant => "Constant"
  | var => "Variable"
  | zeroDerivative => "ZeroDerivative"
  | negate => "Negate"
  | sum => "Sum"
  | sumConstantLeft => "SumConstantLeft"
  | sumConstantRight => "SumConstantRight"
  | difference => "Difference"
  | differenceConstantLeft => "DifferenceConstantLeft"
  | differenceConstantRight => "DifferenceConstantRight"
  | product => "Product"
  | constantFactorLeft => "ConstantFactorLeft"
  | constantFactorRight => "ConstantFactorRight"
  | quotient => "Quotient"
  | reciprocal => "Reciprocal"
  | constantDivisor => "ConstantDivisor"
  | powerRule => "PowerRule"
  | generalPower => "GeneralPower"
  | sin => "Sin"
  | sinChain => "SinChain"
  | cos => "Cos"
  | cosChain => "CosChain"
  | tan => "Tan"
  | exp => "Exp"
  | expChain => "ExpChain"
  | sqrt => "Sqrt"

/-- The rule with the given name. -/
def ofName? (name : String) : Option Step := all.find? (·.name == name)

end Step

end SymbolicCalculus
