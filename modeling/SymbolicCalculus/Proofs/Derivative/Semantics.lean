import Mathlib.RingTheory.Derivation.Basic
import Mathlib.Tactic.FieldSimp
import Mathlib.Tactic.Ring
import SymbolicCalculus.Proofs.Derivative.Outcome

/-! # Values in a differential field

Expressions take values in any field with a derivation whose functions obey the
equations of calculus. Division is total, and so are the functions: nothing is
assumed of them besides their derivatives. Each rule is shown to give the value
of its equation, whichever terms it leaves out.
-/

namespace SymbolicCalculus

/-- A reading of expressions in a differential field. -/
structure DifferentialSemantics (K : Type*) [Field K] where
  derivation : Derivation ℤ K K
  x : K
  derivation_x : derivation x = 1
  constant : Binary64 → K
  derivation_constant : ∀ value, derivation (constant value) = 0
  constant_zero : constant .zero = 0
  constant_one : constant .one = 1
  constant_two : constant .two = 2
  function : NamedFunction → K → K
  derivation_sin : ∀ u, derivation (function .sin u) = derivation u * function .cos u
  derivation_cos : ∀ u, derivation (function .cos u) = -(derivation u * function .sin u)
  derivation_tan : ∀ u, derivation (function .tan u) =
    derivation u / (function .cos u * function .cos u)
  derivation_exp : ∀ u, derivation (function .exp u) = derivation u * function .exp u
  derivation_sqrt : ∀ u, derivation (function .sqrt u) = derivation u / (2 * function .sqrt u)
  power : K → K → K
  power_two : ∀ u, power u 2 = u * u
  derivation_power : ∀ u v, derivation (power u v) =
    power u v * (derivation v * function .ln u + v * (derivation u / u))
  derivation_power_of_constant : ∀ u v, derivation v = 0 →
    derivation (power u v) = v * power u (v - 1) * derivation u

namespace DifferentialSemantics

variable {K : Type*} [Field K] (S : DifferentialSemantics K)

def operation : Operator → K → K → K
  | .add, u, v => u + v
  | .subtract, u, v => u - v
  | .multiply, u, v => u * v
  | .divide, u, v => u / v
  | .power, u, v => S.power u v

def value : Expr → K
  | .constant value => S.constant value
  | .var => S.x
  | .negate f => -value f
  | .apply function f => S.function function (value f)
  | .binary operator f g => S.operation operator (value f) (value g)

@[simp] theorem value_zero : S.value .zero = 0 := S.constant_zero

@[simp] theorem value_one : S.value .one = 1 := S.constant_one

@[simp] theorem value_two : S.value .two = 2 := S.constant_two

@[simp] theorem value_negate (f : Expr) : S.value (.negate f) = -S.value f := rfl

@[simp] theorem value_apply (function : NamedFunction) (f : Expr) :
    S.value (.apply function f) = S.function function (S.value f) := rfl

@[simp] theorem value_add (f g : Expr) : S.value (.add f g) = S.value f + S.value g := rfl

@[simp] theorem value_subtract (f g : Expr) :
    S.value (.subtract f g) = S.value f - S.value g := rfl

@[simp] theorem value_multiply (f g : Expr) :
    S.value (.multiply f g) = S.value f * S.value g := rfl

@[simp] theorem value_divide (f g : Expr) : S.value (.divide f g) = S.value f / S.value g := rfl

@[simp] theorem value_power (f g : Expr) :
    S.value (.power f g) = S.power (S.value f) (S.value g) := rfl

def slope (d : Derivative) : K := S.value d.toExpr

@[simp] theorem slope_zero : S.slope .zero = 0 := S.value_zero

@[simp] theorem slope_expr (e : Expr) : S.slope (.expr e) = S.value e := rfl

section Rules

variable (f g : Expr) (df dg : Derivative)

theorem slope_negate : S.slope (Rules.negate df).2 = -S.slope df := by
  cases df <;> simp [Rules.negate]

theorem slope_sum : S.slope (Rules.sum df dg).2 = S.slope df + S.slope dg := by
  cases df <;> cases dg <;> simp [Rules.sum]

theorem slope_difference : S.slope (Rules.difference df dg).2 = S.slope df - S.slope dg := by
  cases df <;> cases dg <;> simp [Rules.difference]

theorem slope_product :
    S.slope (Rules.product f g df dg).2 = S.slope df * S.value g + S.value f * S.slope dg := by
  cases df <;> cases dg <;> simp [Rules.product]

/-- Where the divisor is zero, both sides are. -/
theorem slope_quotient :
    S.slope (Rules.quotient f g df dg).2 =
      (S.slope df * S.value g - S.value f * S.slope dg) / (S.value g * S.value g) := by
  cases df with
  | zero =>
      cases dg with
      | zero => simp [Rules.quotient]
      | expr dg =>
          simp only [Rules.quotient, slope_zero, slope_expr, value_multiply, value_divide,
            value_negate, value_power, value_two, S.power_two]
          ring
  | expr df =>
      cases dg with
      | zero =>
          simp only [Rules.quotient, slope_zero, slope_expr, value_multiply, value_divide,
            value_one]
          by_cases hg : S.value g = 0
          · simp [hg]
          · field_simp
            ring
      | expr dg => simp [Rules.quotient, S.power_two]

end Rules

/-- The power `f ^ g` has one of the shapes for which the rules are exact: no
variable at all, a base with slope one under an exponent without the variable,
or the same tree twice. -/
def ExactPower (f g : Expr) : Prop :=
  (¬ f.HasVariable ∧ ¬ g.HasVariable) ∨
    (¬ g.HasVariable ∧ S.derivation (S.value f) = 1) ∨ f = g

/-- Every power in the expression has an exact shape. -/
def ExactPowers (e : Expr) : Prop :=
  e.ForallNodes fun node => ∀ f g, node = .power f g → S.ExactPower f g

@[simp] theorem exactPowers_constant (value : Binary64) : S.ExactPowers (.constant value) := by
  simp [ExactPowers, Expr.forallNodes_constant, Expr.power]

@[simp] theorem exactPowers_var : S.ExactPowers .var := by
  simp [ExactPowers, Expr.forallNodes_var, Expr.power]

@[simp] theorem exactPowers_negate {f : Expr} : S.ExactPowers (.negate f) ↔ S.ExactPowers f := by
  simp [ExactPowers, Expr.forallNodes_negate, Expr.power]

@[simp] theorem exactPowers_apply {function : NamedFunction} {f : Expr} :
    S.ExactPowers (.apply function f) ↔ S.ExactPowers f := by
  simp [ExactPowers, Expr.forallNodes_apply, Expr.power]

@[simp] theorem exactPowers_binary {operator : Operator} {f g : Expr} :
    S.ExactPowers (.binary operator f g) ↔
      (operator = .power → S.ExactPower f g) ∧ S.ExactPowers f ∧ S.ExactPowers g := by
  simp [ExactPowers, Expr.forallNodes_binary, Expr.power]

end DifferentialSemantics

end SymbolicCalculus
