import SymbolicCalculus.Proofs.Derivative.RationalFunctions

/-! # Soundness of the rules

In every differential field the derivative of an expression has the derivative
of its value. Powers are the exception: the rules for them are exact only for
some shapes, which every power of the expression must have.
-/

namespace SymbolicCalculus.DifferentialSemantics

variable {K : Type*} [Field K] (S : DifferentialSemantics K)

theorem derivation_function_of_constant {function : NamedFunction} (hfunction : function ≠ .ln)
    {u : K} (hu : S.derivation u = 0) : S.derivation (S.function function u) = 0 := by
  cases function with
  | sin => rw [S.derivation_sin, hu, zero_mul]
  | cos => rw [S.derivation_cos, hu, zero_mul, neg_zero]
  | tan => rw [S.derivation_tan, hu, zero_div]
  | exp => rw [S.derivation_exp, hu, zero_mul]
  | sqrt => rw [S.derivation_sqrt, hu, zero_div]
  | ln => exact absurd rfl hfunction

/-- The chain rule as the rules apply it, also where they leave out the factor
of a bare variable. -/
theorem value_chain {function : NamedFunction} {chain : Expr → Expr → Step × Expr}
    (hchain : Rules.chain? function = some chain) (f df : Expr)
    (hdf : S.value df = S.derivation (S.value f)) :
    S.value (chain f df).2 = S.derivation (S.function function (S.value f)) := by
  have hbare : f.isVariable = true → S.derivation (S.value f) = 1 := by
    intro hvariable
    cases f <;> first | exact S.derivation_x | cases hvariable
  cases function with
  | sin =>
      obtain rfl := Option.some.inj hchain
      rw [S.derivation_sin]
      by_cases hvariable : f.isVariable = true
      · simp [hvariable, hbare hvariable]
      · simp [hvariable, hdf]
  | cos =>
      obtain rfl := Option.some.inj hchain
      rw [S.derivation_cos]
      by_cases hvariable : f.isVariable = true
      · simp [hvariable, hbare hvariable]
      · simp [hvariable, hdf]
  | tan =>
      obtain rfl := Option.some.inj hchain
      simp [S.derivation_tan, S.power_two, hdf]
  | exp =>
      obtain rfl := Option.some.inj hchain
      rw [S.derivation_exp]
      by_cases hvariable : f.isVariable = true
      · simp [hvariable, hbare hvariable]
      · simp [hvariable, hdf]
  | sqrt =>
      obtain rfl := Option.some.inj hchain
      simp [S.derivation_sqrt, hdf]
  | ln => cases hchain

theorem slope_function {function : NamedFunction} {chain : Expr → Expr → Step × Expr}
    (hchain : Rules.chain? function = some chain) (f : Expr) (df : Derivative)
    (hdf : S.slope df = S.derivation (S.value f)) :
    S.slope (Rules.function chain f df).2 = S.derivation (S.function function (S.value f)) := by
  cases df with
  | zero =>
      rw [slope_zero] at hdf
      have hfunction := Rules.ne_ln_of_chain hchain
      rw [S.derivation_function_of_constant hfunction hdf.symm, Rules.function, slope_zero]
  | expr df => exact S.value_chain hchain f df hdf

theorem slope_power {f g : Expr} (hexact : S.ExactPower f g)
    (hlogf : ¬ f.HasLog) (hlogg : ¬ g.HasLog)
    (hdf : S.slope f.derived = S.derivation (S.value f))
    (hdg : S.slope g.derived = S.derivation (S.value g)) :
    S.slope (Rules.power f g f.derived g.derived).2 =
      S.derivation (S.power (S.value f) (S.value g)) := by
  have hvarf := Expr.derived_eq_zero_iff hlogf
  have hvarg := Expr.derived_eq_zero_iff hlogg
  rcases hexact with ⟨hf, hg⟩ | ⟨hg, hone⟩ | rfl
  · -- both operands are constants
    rw [hvarf.mpr hf, slope_zero] at hdf
    rw [hvarg.mpr hg, slope_zero] at hdg
    simp [hvarf.mpr hf, hvarg.mpr hg, Rules.power, S.derivation_power, ← hdf, ← hdg]
  · -- the base cannot be a constant, because its derivative is one
    rw [hvarg.mpr hg, slope_zero] at hdg
    rw [S.derivation_power_of_constant _ _ hdg.symm, hone, hvarg.mpr hg]
    cases hderived : f.derived with
    | zero => simp [hderived, hone] at hdf
    | expr df => simp [Rules.power]
  · rw [S.derivation_power, ← hdf]
    cases f.derived with
    | zero => simp [Rules.power]
    | expr df => simp [Rules.power, slope, Derivative.toExpr]

theorem slope_operator {operator : Operator} {f g : Expr}
    (hexact : operator = .power → S.ExactPower f g)
    (hlogf : ¬ f.HasLog) (hlogg : ¬ g.HasLog)
    (hdf : S.slope f.derived = S.derivation (S.value f))
    (hdg : S.slope g.derived = S.derivation (S.value g)) :
    S.slope (Rules.operator operator f g f.derived g.derived).2 =
      S.derivation (S.operation operator (S.value f) (S.value g)) := by
  cases operator with
  | add => rw [Rules.operator, slope_sum, hdf, hdg, operation, map_add]
  | subtract => rw [Rules.operator, slope_difference, hdf, hdg, operation, map_sub]
  | multiply =>
      rw [Rules.operator, slope_product, hdf, hdg, operation, Derivation.leibniz, smul_eq_mul,
        smul_eq_mul]
      ring
  | divide =>
      rw [Rules.operator, slope_quotient, hdf, hdg, operation, Derivation.leibniz_div,
        smul_eq_mul, smul_eq_mul, smul_eq_mul]
      ring
  | power => exact S.slope_power (hexact rfl) hlogf hlogg hdf hdg

/-- The derivative by the rules has the derivative of the value. -/
theorem slope_derived (e : Expr) (hlog : ¬ e.HasLog) (hexact : S.ExactPowers e) :
    S.slope e.derived = S.derivation (S.value e) := by
  induction e, hlog using Expr.induction_of_not_hasLog with
  | constant value =>
      rw [Expr.derived_constant, slope_zero]
      exact (S.derivation_constant value).symm
  | var =>
      rw [Expr.derived_var, slope_expr, value_one]
      exact S.derivation_x.symm
  | negate f _ _ ih =>
      rw [exactPowers_negate] at hexact
      rw [Expr.derived_negate, slope_negate, ih hexact]
      exact (map_neg S.derivation _).symm
  | apply function chain f _ _ hchain ih =>
      rw [exactPowers_apply] at hexact
      rw [Expr.derived_apply hchain]
      exact S.slope_function hchain f f.derived (ih hexact)
  | binary operator f g hf hg _ ihf ihg =>
      obtain ⟨hroot, hleft, hright⟩ := S.exactPowers_binary.mp hexact
      rw [Expr.derived_binary]
      exact S.slope_operator hroot hf hg (ihf hleft) (ihg hright)

/-- Differentiation of an expression without logarithms whose powers have exact
shapes succeeds, and its result has the derivative of the expression's value.
In particular a derivative is zero only where that is zero. -/
theorem value_derivative (e : Expr) (hlog : ¬ e.HasLog) (hexact : S.ExactPowers e) :
    ∃ d, e.derivative = .ok d ∧ S.value d.toExpr = S.derivation (S.value e) ∧
      (d = .zero → S.derivation (S.value e) = 0) := by
  have hslope := S.slope_derived e hlog hexact
  refine ⟨e.derived, Expr.derivative_of_not_hasLog hlog, hslope, ?_⟩
  intro hzero
  rw [← hslope, hzero, slope_zero]

theorem derivation_var_add_constant (value : Binary64) :
    S.derivation (S.value (.add .var (.constant value))) = 1 := by
  rw [value_add, map_add]
  exact (congrArg₂ (· + ·) S.derivation_x (S.derivation_constant value)).trans (add_zero 1)

/-- The derivative of `(x + 1)^2 / (2^2 - x)`, read as a rational function. -/
theorem value_derivative_rational :
    let e := Expr.divide (.power (.add .var .one) .two) (.subtract (.power .two .two) .var)
    ¬ e.HasLog ∧ RationalFunctions.rational.ExactPowers e ∧
      ∃ d, e.derivative = .ok d ∧
        RationalFunctions.rational.value d.toExpr =
          RationalFunctions.rational.derivation (RationalFunctions.rational.value e) ∧
        (d = .zero →
          RationalFunctions.rational.derivation (RationalFunctions.rational.value e) = 0) := by
  intro e
  have hlog : ¬ e.HasLog := by decide
  have hbase : RationalFunctions.rational.ExactPower (.add .var .one) .two :=
    .inr (.inl ⟨by decide, derivation_var_add_constant _ .one⟩)
  have hsame : RationalFunctions.rational.ExactPower .two .two := .inr (.inr rfl)
  have hexact : RationalFunctions.rational.ExactPowers e := by
    simp only [e, Expr.divide, Expr.power, Expr.add, Expr.subtract, Expr.one, Expr.two,
      exactPowers_binary, exactPowers_var, exactPowers_constant, reduceCtorEq, false_implies,
      true_implies, and_true, true_and]
    exact ⟨hbase, hsame⟩
  exact ⟨hlog, hexact, RationalFunctions.rational.value_derivative e hlog hexact⟩

end SymbolicCalculus.DifferentialSemantics
