import Mathlib.Tactic.Ring
import SymbolicCalculus.Proofs.Derivative.Outcome
import SymbolicCalculus.Proofs.Expr.Traversal

/-! # Growth of derivatives

A rule copies the operands of a node next to their derivatives. It adds a bounded
number of copies and of levels, so the derivative has at most quadratically many
nodes, and its height is at most four times as large.
-/

namespace SymbolicCalculus.Expr

/-- The number of nodes on a longest way down from the root. -/
def height : Expr → Nat
  | constant _ => 1
  | var => 1
  | negate f => f.height + 1
  | apply _ f => f.height + 1
  | binary _ f g => max f.height g.height + 1

theorem height_pos (e : Expr) : 0 < e.height := by
  cases e <;> simp [height]

variable {function : NamedFunction} {chain : Expr → Expr → Step × Expr} {e : Expr}

section Size

theorem size_negate_le (df : Derivative) :
    (Rules.negate df).2.toExpr.size ≤ df.toExpr.size + 1 := by
  cases df <;> simp [Rules.negate, Derivative.toExpr, size]

/-- The rule for variable exponents copies most: the base twice and the exponent
three times. -/
theorem size_operator_le (operator : Operator) (f g : Expr) (df dg : Derivative) :
    (Rules.operator operator f g df dg).2.toExpr.size ≤
      df.toExpr.size + dg.toExpr.size + 2 * f.size + 3 * g.size + 7 := by
  cases operator <;> cases df <;> cases dg <;>
    simp only [Rules.operator, Rules.sum, Rules.difference, Rules.product, Rules.quotient,
      Rules.power, Derivative.toExpr, add, subtract, multiply, divide, power, zero, one, two,
      size] <;>
    omega

theorem size_function_le (hchain : Rules.chain? function = some chain) (f : Expr)
    (df : Derivative) :
    (Rules.function chain f df).2.toExpr.size ≤ df.toExpr.size + f.size + 4 := by
  cases df with
  | zero => simp [Rules.function, Derivative.toExpr, zero, size]
  | expr df =>
      change (chain f df).2.size ≤ df.size + f.size + 4
      cases function with
      | sin | cos | exp =>
          obtain rfl := Option.some.inj hchain
          by_cases hvariable : f.isVariable = true <;>
            simp only [hvariable, Bool.false_eq_true, if_true, if_false, multiply, size] <;>
            omega
      | tan | sqrt =>
          obtain rfl := Option.some.inj hchain
          simp only [divide, multiply, power, two, size]
          omega
      | ln => cases hchain

/-- The square of a sum leaves room for the copies of both operands. -/
theorem two_mul_sq_add_le {m n : Nat} (hm : 0 < m) (hn : 0 < n) :
    2 * m ^ 2 + 2 * n ^ 2 + 2 * m + 3 * n + 7 ≤ 2 * (m + n + 1) ^ 2 := by
  have hsquare : (m + n + 1) ^ 2 = m ^ 2 + n ^ 2 + 2 * (m * n) + 2 * m + 2 * n + 1 := by ring
  have hproduct : 0 < m * n := Nat.mul_pos hm hn
  omega

theorem size_derived_le (hlog : ¬ e.HasLog) : e.derived.toExpr.size ≤ 2 * e.size ^ 2 := by
  induction e, hlog using induction_of_not_hasLog with
  | constant value => simp [derived_constant, Derivative.toExpr, zero, size]
  | var => decide
  | negate f _ _ ih =>
      have hrule := size_negate_le f.derived
      have hsquare : (f.size + 1) ^ 2 = f.size ^ 2 + 2 * f.size + 1 := by ring
      rw [derived_negate, size]
      omega
  | apply function chain f _ _ hchain ih =>
      have hrule := size_function_le hchain f f.derived
      have hsquare : (f.size + 1) ^ 2 = f.size ^ 2 + 2 * f.size + 1 := by ring
      have hpos := f.size_pos
      rw [derived_apply hchain, size]
      omega
  | binary operator f g _ _ _ ihf ihg =>
      rw [derived_binary, size]
      calc
        _ ≤ f.derived.toExpr.size + g.derived.toExpr.size + 2 * f.size + 3 * g.size + 7 :=
          size_operator_le operator f g f.derived g.derived
        _ ≤ 2 * f.size ^ 2 + 2 * g.size ^ 2 + 2 * f.size + 3 * g.size + 7 := by
          omega
        _ ≤ 2 * (f.size + g.size + 1) ^ 2 := two_mul_sq_add_le f.size_pos g.size_pos

end Size

section Height

theorem height_negate_le (df : Derivative) :
    (Rules.negate df).2.toExpr.height ≤ df.toExpr.height + 1 := by
  cases df <;> simp [Rules.negate, Derivative.toExpr, height]

/-- A rule puts at most four levels above the operands and their derivatives. -/
theorem height_operator_le (operator : Operator) (f g : Expr) (df dg : Derivative) :
    (Rules.operator operator f g df dg).2.toExpr.height ≤
      max (max f.height g.height) (max df.toExpr.height dg.toExpr.height) + 4 := by
  cases operator <;> cases df <;> cases dg <;>
    simp only [Rules.operator, Rules.sum, Rules.difference, Rules.product, Rules.quotient,
      Rules.power, Derivative.toExpr, add, subtract, multiply, divide, power, zero, one, two,
      height] <;>
    omega

theorem height_function_le (hchain : Rules.chain? function = some chain) (f : Expr)
    (df : Derivative) :
    (Rules.function chain f df).2.toExpr.height ≤ max f.height df.toExpr.height + 4 := by
  cases df with
  | zero => simp [Rules.function, Derivative.toExpr, zero, height]
  | expr df =>
      change (chain f df).2.height ≤ max f.height df.height + 4
      cases function with
      | sin | cos | exp =>
          obtain rfl := Option.some.inj hchain
          by_cases hvariable : f.isVariable = true <;>
            simp only [hvariable, Bool.false_eq_true, if_true, if_false, multiply, height] <;>
            omega
      | tan | sqrt =>
          obtain rfl := Option.some.inj hchain
          simp only [divide, multiply, power, two, height]
          omega
      | ln => cases hchain

theorem height_derived_le (hlog : ¬ e.HasLog) : e.derived.toExpr.height + 3 ≤ 4 * e.height := by
  induction e, hlog using induction_of_not_hasLog with
  | constant value => simp [derived_constant, Derivative.toExpr, zero, height]
  | var => decide
  | negate f _ _ ih =>
      have hrule := height_negate_le f.derived
      rw [derived_negate, height]
      omega
  | apply function chain f _ _ hchain ih =>
      have hrule := height_function_le hchain f f.derived
      have hpos := f.height_pos
      rw [derived_apply hchain, height]
      omega
  | binary operator f g _ _ _ ihf ihg =>
      have hrule := height_operator_le operator f g f.derived g.derived
      have hpos := f.height_pos
      rw [derived_binary, height]
      omega

end Height

/-- A derivative, written as an expression, has at most twice the square of the number
of nodes, and is less than four times as high. -/
theorem complexity_le_and_height_le_of_derivative {e : Expr} {d : Derivative}
    (h : e.derivative = .ok d) :
    d.toExpr.complexity ≤ 2 * e.complexity ^ 2 ∧ d.toExpr.height ≤ 4 * e.height - 3 := by
  obtain ⟨hlog, rfl⟩ := derivative_eq_ok_iff.mp h
  rw [complexity_eq_size, complexity_eq_size]
  have hheight := height_derived_le hlog
  exact ⟨size_derived_le hlog, by omega⟩

/-- The power `x^x` has three nodes, and its derivative reaches the bound on the
height. -/
theorem complexity_le_and_height_le_of_derivative_power :
    ∃ d, (power var var).derivative = .ok d ∧ d.toExpr.complexity ≤ 18 ∧
      d.toExpr.height = 4 * (power var var).height - 3 := by
  have hderivative : (power var var).derivative = .ok (power var var).derived :=
    derivative_of_not_hasLog (by decide)
  obtain ⟨hsize, -⟩ := complexity_le_and_height_le_of_derivative hderivative
  rw [complexity_eq_size (power var var)] at hsize
  exact ⟨_, hderivative, hsize, rfl⟩

end SymbolicCalculus.Expr
