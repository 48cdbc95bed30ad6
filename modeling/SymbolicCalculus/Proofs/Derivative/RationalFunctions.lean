import Mathlib.Algebra.DualNumber
import Mathlib.FieldTheory.RatFunc.AsPolynomial
import SymbolicCalculus.Proofs.Derivative.Semantics

/-! # Rational functions as values

In a differential field of characteristic zero numbers and integer powers can
mean what they mean anywhere. The transcendental functions, which have no place
in such a field, vanish there. The rational functions over the rationals are
one example.
-/

noncomputable section

namespace SymbolicCalculus.RationalFunctions

open Polynomial

/-- The rational number that is the value of a finite binary64 number. -/
def ofBinary64 (b : Binary64) : ℚ :=
  if b.isFinite then
    (if b.negative then -1 else 1) * (Binary64.unitsOfCode b.code / 2 ^ 1074)
  else 0

theorem ofBinary64_zero : ofBinary64 .zero = 0 := by
  have hunits : Binary64.unitsOfCode Binary64.zero.code = 0 := by decide
  rw [ofBinary64, hunits, Nat.cast_zero, zero_div, mul_zero, ite_self]

theorem ofBinary64_one : ofBinary64 .one = 1 := by
  have hunits : Binary64.unitsOfCode Binary64.one.code = 2 ^ 1074 := by decide +kernel
  rw [ofBinary64, if_pos (by decide), if_neg (by decide), hunits, Nat.cast_pow, Nat.cast_two,
    one_mul]
  exact div_self (by positivity)

theorem ofBinary64_two : ofBinary64 .two = 2 := by
  have hunits : Binary64.unitsOfCode Binary64.two.code = 2 * 2 ^ 1074 := by decide +kernel
  rw [ofBinary64, if_pos (by decide), if_neg (by decide), hunits, Nat.cast_mul, Nat.cast_pow,
    Nat.cast_two, one_mul]
  exact mul_div_cancel_right₀ 2 (by positivity)

section CharZero

variable {K : Type*} [Field K] [CharZero K] (D : Derivation ℤ K K)

omit [CharZero K] in
theorem derivation_ratCast (q : ℚ) : D (q : K) = 0 := by
  have hint : ∀ n : ℤ, D (n : K) = 0 := fun n => D.map_algebraMap n
  have hden : D (q.den : K) = 0 := D.map_natCast q.den
  rw [Rat.cast_def, Derivation.leibniz_div, hint, hden]
  simp

open Classical in
/-- Powers with integer exponents. -/
def power (u v : K) : K :=
  if h : ∃ n : ℤ, v = n then u ^ h.choose else 0

theorem power_intCast (u : K) (n : ℤ) : power u (n : K) = u ^ n := by
  have h : ∃ m : ℤ, (n : K) = m := ⟨n, rfl⟩
  rw [power, dif_pos h, ← Int.cast_injective h.choose_spec]

omit [CharZero K] in
theorem power_of_not_int {v : K} (hv : ¬ ∃ n : ℤ, v = n) (u : K) : power u v = 0 := dif_neg hv

theorem derivation_power (u v : K) :
    D (power u v) = power u v * (D v * 0 + v * (D u / u)) := by
  by_cases hv : ∃ n : ℤ, v = n
  · obtain ⟨n, rfl⟩ := hv
    rw [power_intCast, Derivation.leibniz_zpow]
    rcases eq_or_ne u 0 with rfl | hu
    · simp
    · rw [zpow_sub_one₀ hu]
      simp only [smul_eq_mul, zsmul_eq_mul, mul_zero, zero_add]
      ring
  · simp [power_of_not_int hv]

theorem derivation_power_of_constant (u v : K) :
    D (power u v) = v * power u (v - 1) * D u := by
  by_cases hv : ∃ n : ℤ, v = n
  · obtain ⟨n, rfl⟩ := hv
    have hpred : (n : K) - 1 = ((n - 1 : ℤ) : K) := by
      push_cast
      rfl
    rw [hpred, power_intCast, power_intCast, Derivation.leibniz_zpow, smul_eq_mul,
      zsmul_eq_mul, mul_assoc]
  · have hpred : ¬ ∃ n : ℤ, v - 1 = n := by
      rintro ⟨n, hn⟩
      refine hv ⟨n + 1, ?_⟩
      push_cast
      rw [← hn, sub_add_cancel]
    simp [power_of_not_int hv, power_of_not_int hpred]

/-- The reading of expressions in a differential field of characteristic zero. -/
def semantics (x : K) (hx : D x = 1) : DifferentialSemantics K where
  derivation := D
  x := x
  derivation_x := hx
  constant b := ofBinary64 b
  derivation_constant _ := derivation_ratCast D _
  constant_zero := by rw [ofBinary64_zero, Rat.cast_zero]
  constant_one := by rw [ofBinary64_one, Rat.cast_one]
  constant_two := by rw [ofBinary64_two, Rat.cast_ofNat]
  function _ _ := 0
  derivation_sin _ := by simp
  derivation_cos _ := by simp
  derivation_tan _ := by simp
  derivation_exp _ := by simp
  derivation_sqrt _ := by simp
  power := power
  power_two u := by
    have h := power_intCast u 2
    rw [← pow_two]
    exact_mod_cast h
  derivation_power := derivation_power D
  derivation_power_of_constant u v _ := derivation_power_of_constant D u v

end CharZero

/-- A polynomial, expanded to first order at the variable. -/
def expandPolynomial : ℚ[X] →+* DualNumber (RatFunc ℚ) :=
  (aeval (TrivSqZeroExt.inl RatFunc.X + DualNumber.eps : DualNumber (RatFunc ℚ))).toRingHom

theorem fst_expandPolynomial (p : ℚ[X]) :
    (expandPolynomial p).fst = algebraMap ℚ[X] (RatFunc ℚ) p := by
  have h : ((TrivSqZeroExt.fstHom ℚ (RatFunc ℚ) (RatFunc ℚ)).toRingHom).comp expandPolynomial =
      algebraMap ℚ[X] (RatFunc ℚ) := by
    apply Polynomial.ringHom_ext
    · intro q
      simp [expandPolynomial]
    · simp [expandPolynomial]
  exact DFunLike.congr_fun h p

theorem isUnit_expandPolynomial (p : nonZeroDivisors ℚ[X]) : IsUnit (expandPolynomial p) := by
  rw [TrivSqZeroExt.isUnit_iff_isUnit_fst, fst_expandPolynomial]
  exact IsLocalization.map_units (RatFunc ℚ) p

/-- A rational function, expanded to first order at the variable. -/
def expand : RatFunc ℚ →+* DualNumber (RatFunc ℚ) :=
  IsLocalization.lift isUnit_expandPolynomial

theorem fst_expand (u : RatFunc ℚ) : (expand u).fst = u := by
  have h : ((TrivSqZeroExt.fstHom ℚ (RatFunc ℚ) (RatFunc ℚ)).toRingHom).comp expand =
      RingHom.id (RatFunc ℚ) := by
    apply IsLocalization.ringHom_ext (nonZeroDivisors ℚ[X])
    apply RingHom.ext
    intro p
    change (expand (algebraMap ℚ[X] (RatFunc ℚ) p)).fst = _
    rw [expand, IsLocalization.lift_eq, fst_expandPolynomial]
    rfl
  exact DFunLike.congr_fun h u

/-- An additive map with the product rule is a derivation. -/
def derivationOfLeibniz {K : Type*} [Field K] (D : K → K) (hadd : ∀ u v, D (u + v) = D u + D v)
    (hmul : ∀ u v, D (u * v) = u * D v + v * D u) : Derivation ℤ K K :=
  Derivation.mk' (AddMonoidHom.mk' D hadd).toIntLinearMap hmul

/-- The expressions read as rational functions of the variable, whose
derivation takes the coefficient of first order. -/
def rational : DifferentialSemantics (RatFunc ℚ) :=
  semantics
    (derivationOfLeibniz (fun u : RatFunc ℚ => (expand u).snd) (by simp)
      (by simp [fst_expand, mul_comm]))
    RatFunc.X
    (by
      change (expand RatFunc.X).snd = 1
      rw [← RatFunc.algebraMap_X, expand, IsLocalization.lift_eq]
      simp [expandPolynomial])

end SymbolicCalculus.RationalFunctions

end
