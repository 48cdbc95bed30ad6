import SymbolicCalculus.Proofs.Derivative.Parametricity
import SymbolicCalculus.Proofs.Derivative.Retained
import SymbolicCalculus.Proofs.Derivative.Zeros

/-! # What differentiation introduces

Rules copy operands and derivatives. The numbers that they write themselves are
zero, one and two, and only the rule for variable exponents writes logarithms and
zeros: one logarithm each time, and a zero where the base is free of the variable.
It is applied to the powers whose derivative is not dropped on the way up.
-/

namespace SymbolicCalculus

namespace Expr

variable {p : Binary64 → Prop} {e : Expr}

section Constants

/-- An expression is related to itself exactly if the relation holds of each of its
numbers with itself. -/
theorem related_self_iff :
    e.Related (fun value _ => p value) e ↔ e.ForallConstants p := by
  induction e with
  | constant value =>
      rw [forallConstants_constant]
      exact ⟨fun h => by cases h; assumption, fun h => .constant h⟩
  | var => exact ⟨fun _ => forallConstants_var, fun _ => .var⟩
  | negate f ih =>
      rw [forallConstants_negate, ← ih]
      exact ⟨fun h => by cases h; assumption, fun h => .negate h⟩
  | apply function f ih =>
      rw [forallConstants_apply, ← ih]
      exact ⟨fun h => by cases h; assumption, fun h => .apply function h⟩
  | binary operator f g ihf ihg =>
      rw [forallConstants_binary, ← ihf, ← ihg]
      exact ⟨fun h => by cases h; constructor <;> assumption, fun h => .binary operator h.1 h.2⟩

/-- What holds of the numbers of an expression and of those that rules write holds
of the numbers of the derivative. -/
theorem ForallConstants.derived (hzero : p .zero) (hone : p .one) (htwo : p .two)
    (h : e.ForallConstants p) : e.derived.toExpr.ForallConstants p := by
  have hR : RelatesRuleNumbers fun value _ => p value := ⟨hzero, hone, htwo⟩
  have hderived := ((related_self_iff.mpr h).settled hR).derivative
  exact related_self_iff.mp (hderived.toExpr hR)

theorem ForallConstants.nthDerivative (hzero : p .zero) (hone : p .one) (htwo : p .two)
    (h : e.ForallConstants p) {order : Nat} {d : Expr} (hd : e.nthDerivative order = .ok d) :
    d.ForallConstants p := by
  induction order generalizing e with
  | zero =>
      cases hd
      exact h
  | succ order ih =>
      obtain ⟨d', hderivative, hd⟩ := nthDerivative_succ_eq_ok_iff.mp hd
      obtain ⟨-, rfl⟩ := derivative_eq_ok_iff.mp hderivative
      exact ih (h.derived hzero hone htwo) hd

theorem forallConstants_iff_get? :
    e.ForallConstants p ↔ ∀ path value, e.get? path = some (constant value) → p value := by
  constructor
  · intro h path value hnode
    exact h path _ hnode value rfl
  · rintro h path _ hnode value rfl
    exact h path value hnode

end Constants

/-- A kind of nodes of which the rules write none but logarithms and zeros. -/
structure IsIntroduced (m : Expr → Prop) : Prop where
  not_one : ¬ m one
  not_two : ¬ m two
  not_negate : ∀ f, ¬ m (negate f)
  not_apply : ∀ function f, function ≠ .ln → ¬ m (apply function f)
  not_binary : ∀ operator f g, ¬ m (binary operator f g)

/-- The number of nodes of a kind. -/
noncomputable def countNodes (m : Expr → Prop) (e : Expr) : Nat := e.count fun _ => m

end Expr

/-- The number of nodes of a kind in a derivative. A zero derivative has no nodes. -/
noncomputable def Derivative.countNodes (m : Expr → Prop) : Derivative → Nat
  | zero => 0
  | expr e => e.countNodes m

namespace Expr

section Rules

variable {m : Expr → Prop} {f g : Expr} {df dg : Derivative} {operator : Operator}
variable {function : NamedFunction} {chain : Expr → Expr → Step × Expr}

open Classical in
theorem countNodes_constant {value : Binary64} :
    (constant value).countNodes m = if m (constant value) then 1 else 0 := by
  unfold countNodes
  rw [count_constant]

variable (hm : IsIntroduced m)
include hm

theorem countNodes_one : one.countNodes m = 0 := by
  exact countNodes_constant.trans (if_neg hm.not_one)

theorem countNodes_two : two.countNodes m = 0 := by
  exact countNodes_constant.trans (if_neg hm.not_two)

theorem countNodes_negate : (negate f).countNodes m = f.countNodes m := by
  unfold countNodes
  rw [count_negate, if_neg (hm.not_negate f), Nat.add_zero]

theorem countNodes_apply (hfunction : function ≠ .ln) :
    (apply function f).countNodes m = f.countNodes m := by
  unfold countNodes
  rw [count_apply, if_neg (hm.not_apply function f hfunction), Nat.add_zero]

theorem countNodes_binary :
    (binary operator f g).countNodes m = f.countNodes m + g.countNodes m := by
  unfold countNodes
  rw [count_binary, if_neg (hm.not_binary operator f g), Nat.add_zero]

theorem countNodes_negateRule : (Rules.negate df).2.countNodes m = df.countNodes m := by
  cases df with
  | zero => rfl
  | expr df => exact countNodes_negate hm

section Copies

variable (hf : f.countNodes m = 0) (hg : g.countNodes m = 0)
include hf hg

/-- The rules for the operators of arithmetic keep the derivative of each operand
once. -/
theorem countNodes_operator (hoperator : operator ≠ .power) :
    (Rules.operator operator f g df dg).2.countNodes m = df.countNodes m + dg.countNodes m := by
  cases operator with
  | power => exact absurd rfl hoperator
  | _ =>
      cases df <;> cases dg <;>
        simp [Rules.operator, Rules.sum, Rules.difference, Rules.product, Rules.quotient,
          Derivative.countNodes, add, subtract, multiply, divide, power, hf, hg,
          countNodes_negate hm, countNodes_binary hm, countNodes_one hm, countNodes_two hm]

/-- The rule for constant exponents drops the derivative of the base. -/
theorem countNodes_powerRule : (Rules.power f g df .zero).2.countNodes m = 0 := by
  cases df with
  | zero => rfl
  | expr df =>
      simp [Rules.power, Derivative.countNodes, multiply, power, subtract, hf, hg,
        countNodes_binary hm, countNodes_one hm]

open Classical in
/-- The rule for variable exponents writes a logarithm, and it writes a zero where
the base has no derivative. -/
theorem countNodes_generalPower (dg : Expr) :
    (Rules.power f g df (.expr dg)).2.countNodes m =
      df.toExpr.countNodes m + dg.countNodes m + if m (apply .ln g) then 1 else 0 := by
  have hlog : (apply .ln g).countNodes m = if m (apply .ln g) then 1 else 0 := by
    unfold countNodes at hg ⊢
    rw [count_apply, hg, Nat.zero_add]
  cases df <;>
    simp only [Rules.power, Derivative.countNodes, multiply, power, add, divide, hf, hg, hlog,
      countNodes_binary hm] <;>
    omega

end Copies

/-- The chain rules keep the derivative of the argument, but not that of a bare
variable. -/
theorem countNodes_function (hchain : Rules.chain? function = some chain)
    (hf : f.countNodes m = 0) (hvariable : f.isVariable = true → df.countNodes m = 0) :
    (Rules.function chain f df).2.countNodes m = df.countNodes m := by
  cases df with
  | zero => rfl
  | expr df =>
      unfold Derivative.countNodes at hvariable
      change (chain f df).2.countNodes m = df.countNodes m
      cases function with
      | sin | cos | exp =>
          obtain rfl := Option.some.inj hchain
          by_cases hbare : f.isVariable = true <;>
            simp [hbare, hvariable, multiply, hf, countNodes_negate hm, countNodes_binary hm,
              countNodes_apply hm]
      | tan | sqrt =>
          obtain rfl := Option.some.inj hchain
          simp [divide, multiply, power, hf, countNodes_binary hm, countNodes_apply hm,
            countNodes_two hm]
      | ln => cases hchain

end Rules

section Derived

variable {m : Expr → Prop} {e : Expr}

open Classical in
theorem countNodes_toExpr (m : Expr → Prop) (d : Derivative) :
    d.toExpr.countNodes m = d.countNodes m + if d = .zero ∧ m zero then 1 else 0 := by
  cases d with
  | zero =>
      unfold Derivative.countNodes
      simp only [Derivative.toExpr, true_and, Nat.zero_add]
      exact countNodes_constant
  | expr e => simp [Derivative.toExpr, Derivative.countNodes]

/-- What a power introduces into the derivative: a logarithm if its exponent has the
variable, and then also a zero if its base has not. -/
def Introduces (m : Expr → Prop) (f g : Expr) : Prop :=
  g.HasVariable ∧ (m (apply .ln g) ∨ ¬ f.HasVariable ∧ m zero)

open Classical in
/-- The derivative of a power has what its operands introduce, as far as they are
retained, and what the power introduces itself. -/
theorem countNodes_derived_power (hm : IsIntroduced m)
    (hexclusive : ∀ g, m (apply .ln g) → ¬ m zero) {f g : Expr} (hlogf : ¬ f.HasLog)
    (hlogg : ¬ g.HasLog) (hf : f.countNodes m = 0) (hg : g.countNodes m = 0)
    (ihf : f.derived.countNodes m = f.retainedPowers (Introduces m))
    (ihg : g.derived.countNodes m = g.retainedPowers (Introduces m)) :
    (Rules.power f g f.derived g.derived).2.countNodes m =
      (binary .power f g).retainedPowers (Introduces m) := by
  rw [retainedPowers_power]
  by_cases hvariable : g.HasVariable
  · have hintroduces :
        Introduces m f g ↔ m (apply .ln g) ∨ f.derived = .zero ∧ m zero := by
      simp only [Introduces, hvariable, true_and, derived_eq_zero_iff hlogf]
    cases hdg : g.derived with
    | zero => exact absurd hvariable ((derived_eq_zero_iff hlogg).mp hdg)
    | expr dg =>
        rw [countNodes_generalPower hm hf hg, countNodes_toExpr, ihf, if_pos hvariable, ← ihg, hdg,
          Derivative.countNodes]
        simp only [hintroduces]
        by_cases hlogarithm : m (apply .ln g)
        · simp [hlogarithm, hexclusive g hlogarithm]
        · simp only [hlogarithm, false_or, if_false]
          omega
  · have hnone : ¬ Introduces m f g := fun h => hvariable h.1
    rw [(derived_eq_zero_iff hlogg).mpr hvariable, countNodes_powerRule hm hf hg,
      if_neg hvariable, retainedPowers_of_not_hasVariable (fun _ _ h => h.1) hvariable,
      if_neg hnone]

/-- Nodes of a kind that the expression does not have come into the derivative only
from powers that are retained, one from each that introduces the kind. -/
theorem countNodes_derived (hm : IsIntroduced m) (hexclusive : ∀ g, m (apply .ln g) → ¬ m zero)
    (hlog : ¬ e.HasLog) (he : e.countNodes m = 0) :
    e.derived.countNodes m = e.retainedPowers (Introduces m) := by
  induction e, hlog using induction_of_not_hasLog with
  | constant value =>
      rw [retainedPowers_constant]
      rfl
  | var =>
      rw [retainedPowers_var]
      exact countNodes_one hm
  | negate f _ _ ih =>
      rw [countNodes_negate hm] at he
      rw [derived_negate, countNodes_negateRule hm, ih he, retainedPowers_negate]
  | apply function chain f _ _ hchain ih =>
      rw [countNodes_apply hm (Rules.ne_ln_of_chain hchain)] at he
      rw [derived_apply hchain, retainedPowers_apply, ← ih he]
      apply countNodes_function hm hchain he
      intro hbare
      cases f with
      | var => exact countNodes_one hm
      | _ => cases hbare
  | binary operator f g hlogf hlogg _ ihf ihg =>
      rw [countNodes_binary hm] at he
      obtain ⟨hf, hg⟩ := Nat.add_eq_zero_iff.mp he
      rw [derived_binary]
      by_cases hoperator : operator = .power
      · subst hoperator
        exact countNodes_derived_power hm hexclusive hlogf hlogg hf hg (ihf hf) (ihg hg)
      · rw [countNodes_operator hm hf hg hoperator, ihf hf, ihg hg,
          retainedPowers_binary hoperator]

end Derived

section Introduced

variable {e r : Expr}

def IsLog (e : Expr) : Prop := ∃ f, e = apply .ln f

def IsZero (e : Expr) : Prop := ∃ value, e = constant value ∧ value.isZero = true

theorem isIntroduced_isLog : IsIntroduced IsLog where
  not_one := by rintro ⟨f, ⟨⟩⟩
  not_two := by rintro ⟨f, ⟨⟩⟩
  not_negate := by rintro f ⟨g, ⟨⟩⟩
  not_apply := by
    rintro function f hfunction ⟨g, ⟨⟩⟩
    exact hfunction rfl
  not_binary := by rintro operator f g ⟨h, ⟨⟩⟩

theorem isIntroduced_isZero : IsIntroduced IsZero where
  not_one := by
    rintro ⟨value, heq, hzero⟩
    obtain rfl := Expr.constant.inj heq
    exact absurd hzero (by decide)
  not_two := by
    rintro ⟨value, heq, hzero⟩
    obtain rfl := Expr.constant.inj heq
    exact absurd hzero (by decide)
  not_negate := by rintro f ⟨value, ⟨⟩, -⟩
  not_apply := by rintro function f - ⟨value, ⟨⟩, -⟩
  not_binary := by rintro operator f g ⟨value, ⟨⟩, -⟩

theorem introduces_isLog (f g : Expr) : Introduces IsLog f g ↔ g.HasVariable := by
  have hlog : IsLog (apply .ln g) := ⟨g, rfl⟩
  simp [Introduces, hlog]

theorem introduces_isZero (f g : Expr) :
    Introduces IsZero f g ↔ ¬ f.HasVariable ∧ g.HasVariable := by
  have hlog : ¬ IsZero (apply .ln g) := by rintro ⟨value, ⟨⟩, -⟩
  have hzero : IsZero zero := ⟨.zero, rfl, by decide⟩
  simp [Introduces, hlog, hzero, and_comm]

theorem encard_logs (e : Expr) :
    {path | ∃ f, e.get? path = some (apply .ln f)}.encard = e.countNodes IsLog := by
  unfold countNodes
  rw [← encard_eq_count]
  congr 1
  ext path
  constructor
  · rintro ⟨f, hnode⟩
    exact ⟨_, hnode, f, rfl⟩
  · rintro ⟨_, hnode, f, rfl⟩
    exact ⟨f, hnode⟩

theorem encard_zeros (e : Expr) :
    {path | ∃ value, e.get? path = some (constant value) ∧ value.isZero = true}.encard =
      e.countNodes IsZero := by
  unfold countNodes
  rw [← encard_eq_count]
  congr 1
  ext path
  constructor
  · rintro ⟨value, hnode, hzero⟩
    exact ⟨_, hnode, value, rfl, hzero⟩
  · rintro ⟨_, hnode, value, rfl, hzero⟩
    exact ⟨value, hnode, hzero⟩

theorem countNodes_isLog_eq_zero (hlog : ¬ e.HasLog) : e.countNodes IsLog = 0 := by
  unfold countNodes
  rw [count_eq_zero_iff]
  rintro path _ hnode ⟨f, rfl⟩
  exact hlog ((mentions_iff_get? e).mpr ⟨path, _, hnode, rfl⟩)

theorem countNodes_isZero_eq_zero (h : e.ForallConstants fun value => value.isZero = false) :
    e.countNodes IsZero = 0 := by
  unfold countNodes
  rw [count_eq_zero_iff]
  rintro path _ hnode ⟨value, rfl, hzero⟩
  exact absurd hzero (Bool.eq_false_iff.mp (forallConstants_iff_get?.mp h path value hnode))

/-- Every retained power with the variable in its exponent introduces one logarithm. -/
theorem countNodes_isLog_of_derivative (hr : e.derivative = .ok (.expr r)) :
    r.countNodes IsLog = e.retainedPowers fun _ g => g.HasVariable := by
  obtain ⟨hlog, hderived⟩ := derivative_eq_ok_iff.mp hr
  have hexclusive : ∀ g, IsLog (apply .ln g) → ¬ IsLog zero := by rintro g - ⟨f, ⟨⟩⟩
  have hcount := countNodes_derived isIntroduced_isLog hexclusive hlog
    (countNodes_isLog_eq_zero hlog)
  have hintroduces : Introduces IsLog = fun _ g => g.HasVariable := by
    funext f g
    exact propext (introduces_isLog f g)
  rwa [hderived, hintroduces] at hcount

theorem countNodes_isZero_of_derivative (hr : e.derivative = .ok (.expr r))
    (h : e.ForallConstants fun value => value.isZero = false) :
    r.countNodes IsZero = e.retainedPowers fun f g => ¬ f.HasVariable ∧ g.HasVariable := by
  obtain ⟨hlog, hderived⟩ := derivative_eq_ok_iff.mp hr
  have hexclusive : ∀ g, IsZero (apply .ln g) → ¬ IsZero zero := by rintro g ⟨value, ⟨⟩, -⟩
  have hcount := countNodes_derived isIntroduced_isZero hexclusive hlog
    (countNodes_isZero_eq_zero h)
  have hintroduces : Introduces IsZero = fun f g => ¬ f.HasVariable ∧ g.HasVariable := by
    funext f g
    exact propext (introduces_isZero f g)
  rwa [hderived, hintroduces] at hcount

/-- The numbers in a repeated derivative are those of the expression, and zero, one
and two. A derivative has one logarithm for each retained power with the variable in
its exponent. Unless the expression has a zero, the derivative has one zero for each
such power with a constant base, and each of these zeros is a factor of a logarithm;
so no sum and no other product has a zero in it. -/
theorem introduced_by_differentiation (e : Expr) :
    (∀ order d, e.nthDerivative order = .ok d →
        ∀ path value, d.get? path = some (constant value) →
          (∃ path', e.get? path' = some (constant value)) ∨
            value = .zero ∨ value = .one ∨ value = .two) ∧
      ∀ r, e.derivative = .ok (.expr r) →
        (∃ logs : Nat, {path | ∃ f, r.get? path = some (apply .ln f)}.encard = logs ∧
          {path | e.RetainsPower (fun _ g => g.HasVariable) path}.encard = logs) ∧
        ((∀ path value, e.get? path = some (constant value) → value.isZero = false) →
          (∃ zeros : Nat,
            {path | ∃ value, r.get? path = some (constant value) ∧ value.isZero = true}.encard =
                zeros ∧
              {path | e.RetainsPower (fun f g => ¬ f.HasVariable ∧ g.HasVariable) path}.encard =
                zeros) ∧
          ∀ path value, r.get? path = some (constant value) → value.isZero = true →
            r.IsFactorOfLog path) := by
  refine ⟨?constants, ?counts⟩
  case constants =>
    intro order d hd
    have hself : e.ForallConstants fun value =>
        (∃ path', e.get? path' = some (constant value)) ∨
          value = .zero ∨ value = .one ∨ value = .two :=
      forallConstants_iff_get?.mpr fun path _ hnode => .inl ⟨path, hnode⟩
    have hderivative := hself.nthDerivative (.inr (.inl rfl)) (.inr (.inr (.inl rfl)))
      (.inr (.inr (.inr rfl))) hd
    exact forallConstants_iff_get?.mp hderivative
  case counts =>
    intro r hr
    refine ⟨⟨_, encard_logs r, ?_⟩, ?_⟩
    · rw [encard_retainsPower, countNodes_isLog_of_derivative hr]
    · intro hzeros
      have hconstants := forallConstants_iff_get?.mpr hzeros
      refine ⟨⟨_, encard_zeros r, ?_⟩, ?_⟩
      · rw [encard_retainsPower, countNodes_isZero_of_derivative hr hconstants]
      · obtain ⟨hlog, hderived⟩ := derivative_eq_ok_iff.mp hr
        have hbeside := zerosBesideLogs_derived hlog hconstants
        rw [hderived] at hbeside
        intro path value
        exact hbeside.isFactorOfLog

/-- The derivative of `2^x * (x^x)^2` has its logarithms and zeros from `2^x`. The power
`x^x` is in a base with a constant exponent and introduces nothing. -/
theorem introduced_by_differentiation_product :
    ∃ r, (multiply (power two var) (power (power var var) two)).derivative = .ok (.expr r) ∧
      (∀ path value, r.get? path = some (constant value) →
        (∃ path', (multiply (power two var) (power (power var var) two)).get? path' =
            some (constant value)) ∨
          value = .zero ∨ value = .one ∨ value = .two) ∧
      (∃ logs : Nat, {path | ∃ f, r.get? path = some (apply .ln f)}.encard = logs ∧
        {path | (multiply (power two var) (power (power var var) two)).RetainsPower
          (fun _ g => g.HasVariable) path}.encard = logs) ∧
      (∃ zeros : Nat,
        {path | ∃ value, r.get? path = some (constant value) ∧ value.isZero = true}.encard =
            zeros ∧
          {path | (multiply (power two var) (power (power var var) two)).RetainsPower
            (fun f g => ¬ f.HasVariable ∧ g.HasVariable) path}.encard = zeros) ∧
      r.get? [0, 0, 1, 0, 0] = some zero ∧ r.IsFactorOfLog [0, 0, 1, 0, 0] := by
  have htwo : two.ForallConstants fun value => value.isZero = false :=
    forallConstants_constant.mpr (by decide)
  have hconstants : (multiply (power two var) (power (power var var) two)).ForallConstants
      fun value => value.isZero = false := by
    simp [multiply, power, forallConstants_binary, forallConstants_var, htwo]
  obtain ⟨hnumbers, hcounts⟩ :=
    introduced_by_differentiation (multiply (power two var) (power (power var var) two))
  obtain ⟨hlogs, hzeros⟩ := hcounts _ (derivative_of_not_hasLog (by decide))
  obtain ⟨hzeros, hfactor⟩ := hzeros (forallConstants_iff_get?.mp hconstants)
  refine ⟨_, derivative_of_not_hasLog (by decide), hnumbers 1 _ ?_, hlogs, hzeros, rfl,
    hfactor [0, 0, 1, 0, 0] .zero rfl (by decide)⟩
  exact nthDerivative_succ_eq_ok_iff.mpr ⟨_, derivative_of_not_hasLog (by decide), rfl⟩

end Introduced

end Expr

end SymbolicCalculus
