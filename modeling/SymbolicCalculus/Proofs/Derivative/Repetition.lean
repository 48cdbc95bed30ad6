import Mathlib.Tactic.TFAE
import SymbolicCalculus.Proofs.Derivative.Outcome

/-! # Repeated differentiation

The rule for powers with a variable exponent writes a logarithm, which the next
round cannot differentiate. The rule for other powers drops the derivative of
the base, and with it such powers inside the base. So two rounds succeed only
where every power with a variable exponent is dropped, and all later rounds
keep it that way.
-/

namespace SymbolicCalculus.Expr

variable {operator : Operator} {function : NamedFunction} {e f g child node : Expr}
variable {index : Nat} {path : Path} {tag : Tag}

/-- The derivative of the given order, each round taking up the expression of
the last derivative. -/
def nthDerivative : Nat → Expr → Except Diagnostic Expr
  | 0, e => .ok e
  | order + 1, e => e.derivative.bind fun d => nthDerivative order d.toExpr

/-- The node at `path` lies inside the base of a power whose exponent is free
of the variable, so its derivative does not appear in that of the whole. -/
def Dropped (e : Expr) (path : Path) : Prop :=
  ∃ outer inner f g, path = outer ++ 0 :: inner ∧ e.get? outer = some (.power f g) ∧
    ¬ g.HasVariable

theorem not_dropped_nil : ¬ e.Dropped [] := by
  rintro ⟨outer, inner, f, g, hpath, -⟩
  simp at hpath

theorem dropped_cons_iff (hchild : e.child? index = some child) :
    e.Dropped (index :: path) ↔
      (index = 0 ∧ ∃ f g, e = .power f g ∧ ¬ g.HasVariable) ∨ child.Dropped path := by
  constructor
  · rintro ⟨outer, inner, f, g, hpath, hpower, hg⟩
    cases outer with
    | nil =>
        obtain ⟨rfl, rfl⟩ := List.cons.inj hpath
        rw [get?_nil, Option.some.injEq] at hpower
        exact .inl ⟨rfl, f, g, hpower, hg⟩
    | cons first outer =>
        obtain ⟨rfl, rfl⟩ := List.cons.inj hpath
        rw [get?_cons, hchild, Option.bind_some] at hpower
        exact .inr ⟨outer, inner, f, g, rfl, hpower, hg⟩
  · rintro (⟨rfl, f, g, rfl, hg⟩ | ⟨outer, inner, f, g, rfl, hpower, hg⟩)
    · exact ⟨[], path, f, g, rfl, get?_nil _, hg⟩
    · refine ⟨index :: outer, inner, f, g, rfl, ?_, hg⟩
      rw [get?_cons, hchild, Option.bind_some, hpower]

def VariablePowersDropped (e : Expr) : Prop :=
  ∀ path f g, e.get? path = some (.power f g) → g.HasVariable → e.Dropped path

theorem variablePowersDropped_iff :
    e.VariablePowersDropped ↔
      (∀ f g, e = .power f g → ¬ g.HasVariable) ∧
        ∀ index child, e.child? index = some child →
          (index = 0 ∧ ∃ f g, e = .power f g) ∨ child.VariablePowersDropped := by
  constructor
  · intro h
    refine ⟨?_, ?_⟩
    · rintro f g rfl hg
      exact not_dropped_nil (h [] f g (get?_nil _) hg)
    · intro index child hchild
      by_cases hbase : index = 0 ∧ ∃ f g, e = .power f g
      · exact .inl hbase
      · right
        intro path f g hpower hg
        have hdropped := h (index :: path) f g
          (by rw [get?_cons, hchild, Option.bind_some, hpower]) hg
        rcases (dropped_cons_iff hchild).mp hdropped with ⟨hindex, f', g', he, -⟩ | hdropped
        · exact absurd ⟨hindex, f', g', he⟩ hbase
        · exact hdropped
  · rintro ⟨hroot, hchildren⟩ path f g hpower hg
    rcases get?_eq_some_iff.mp hpower with ⟨-, he⟩ | ⟨index, rest, child, rfl, hchild, hnode⟩
    · exact absurd hg (hroot f g he.symm)
    · rw [dropped_cons_iff hchild]
      rcases hchildren index child hchild with ⟨hindex, f', g', he⟩ | hdropped
      · exact .inl ⟨hindex, f', g', he, hroot f' g' he⟩
      · exact .inr (hdropped rest f g hnode hg)

theorem variablePowersDropped_of_not_hasVariable (hvariable : ¬ e.HasVariable) :
    e.VariablePowersDropped := by
  induction e using induction_children with
  | step e ih =>
      rw [variablePowersDropped_iff]
      constructor
      · rintro f g rfl hg
        exact hvariable (.inr (.inr hg))
      · intro index child hchild
        right
        apply ih index child hchild
        intro h
        exact hvariable (mentions_iff.mpr (.inr ⟨index, child, hchild, h⟩))

/-- Differentiation can be repeated without end: there is no logarithm, and no
power from which a rule makes one. -/
def Repeatable : Expr → Prop
  | constant _ => True
  | var => True
  | negate f => f.Repeatable
  | apply function f => function ≠ .ln ∧ f.Repeatable
  | binary .power f g => ¬ f.HasLog ∧ ¬ g.HasLog ∧ ¬ g.HasVariable
  | binary _ f g => f.Repeatable ∧ g.Repeatable

theorem repeatable_binary (hoperator : operator ≠ .power) :
    (binary operator f g).Repeatable ↔ f.Repeatable ∧ g.Repeatable := by
  cases operator <;> first | rfl | exact absurd rfl hoperator

@[simp] theorem repeatable_constant (value : Binary64) : (constant value).Repeatable := trivial

@[simp] theorem repeatable_var : var.Repeatable := trivial

@[simp] theorem repeatable_negate : (negate f).Repeatable ↔ f.Repeatable := Iff.rfl

@[simp] theorem repeatable_apply :
    (apply function f).Repeatable ↔ function ≠ .ln ∧ f.Repeatable := Iff.rfl

@[simp] theorem repeatable_add : (add f g).Repeatable ↔ f.Repeatable ∧ g.Repeatable := Iff.rfl

@[simp] theorem repeatable_subtract :
    (subtract f g).Repeatable ↔ f.Repeatable ∧ g.Repeatable := Iff.rfl

@[simp] theorem repeatable_multiply :
    (multiply f g).Repeatable ↔ f.Repeatable ∧ g.Repeatable := Iff.rfl

@[simp] theorem repeatable_divide :
    (divide f g).Repeatable ↔ f.Repeatable ∧ g.Repeatable := Iff.rfl

@[simp] theorem repeatable_power :
    (power f g).Repeatable ↔ ¬ f.HasLog ∧ ¬ g.HasLog ∧ ¬ g.HasVariable := Iff.rfl

theorem variablePowersDropped_binary (hoperator : operator ≠ .power) :
    (binary operator f g).VariablePowersDropped ↔
      f.VariablePowersDropped ∧ g.VariablePowersDropped := by
  rw [variablePowersDropped_iff]
  simp [power, hoperator, or_imp, forall_and]

theorem variablePowersDropped_power :
    (binary .power f g).VariablePowersDropped ↔ ¬ g.HasVariable := by
  rw [variablePowersDropped_iff]
  constructor
  · exact fun h => h.1 f g rfl
  · intro hg
    refine ⟨?_, ?_⟩
    · rintro _ _ ⟨⟩
      exact hg
    · intro index child hchild
      rcases child?_binary_eq_some_iff.mp hchild with ⟨hindex, rfl⟩ | ⟨-, rfl⟩
      · exact .inl ⟨hindex, f, g, rfl⟩
      · exact .inr (variablePowersDropped_of_not_hasVariable hg)

theorem repeatable_iff : e.Repeatable ↔ ¬ e.HasLog ∧ e.VariablePowersDropped := by
  induction e with
  | constant value =>
      rw [variablePowersDropped_iff]
      simp [Repeatable, Mentions, power]
  | var =>
      rw [variablePowersDropped_iff]
      simp [Repeatable, Mentions, power]
  | negate f ih =>
      rw [variablePowersDropped_iff]
      simp [Repeatable, Mentions, power, ih]
  | apply function f ih =>
      rw [variablePowersDropped_iff]
      simp [Repeatable, Mentions, power, ih, and_assoc, @eq_comm _ NamedFunction.ln]
  | binary operator f g ihf ihg =>
      by_cases hoperator : operator = .power
      · subst hoperator
        rw [variablePowersDropped_power]
        simp [Repeatable, Mentions, and_assoc]
      · rw [repeatable_binary hoperator, variablePowersDropped_binary hoperator, ihf, ihg]
        simp only [Mentions, reduceCtorEq, false_or, not_or]
        exact and_and_and_comm

theorem Repeatable.not_hasLog (h : e.Repeatable) : ¬ e.HasLog := (repeatable_iff.mp h).1

theorem repeatable_of_not_hasVariable (hlog : ¬ e.HasLog) (hvariable : ¬ e.HasVariable) :
    e.Repeatable :=
  repeatable_iff.mpr ⟨hlog, variablePowersDropped_of_not_hasVariable hvariable⟩

section Rules

variable {df dg : Derivative} {chain : Expr → Expr → Step × Expr}

/-- The rules for the operators of arithmetic keep all derivatives of operands. The
powers that they make have constant exponents and bases without logarithms. -/
theorem repeatable_operator (hoperator : operator ≠ .power) (hf : f.Repeatable)
    (hg : g.Repeatable) (hdf : df.toExpr.Repeatable) (hdg : dg.toExpr.Repeatable) :
    (Rules.operator operator f g df dg).2.toExpr.Repeatable := by
  cases operator with
  | add => cases df <;> cases dg <;> simp_all [Rules.operator, Rules.sum, Derivative.toExpr]
  | subtract =>
      cases df <;> cases dg <;> simp_all [Rules.operator, Rules.difference, Derivative.toExpr]
  | multiply =>
      cases df <;> cases dg <;> simp_all [Rules.operator, Rules.product, Derivative.toExpr]
  | divide =>
      have hlog := hg.not_hasLog
      cases df <;> cases dg <;>
        simp_all [Rules.operator, Rules.quotient, Derivative.toExpr, Mentions, one, two]
  | power => exact absurd rfl hoperator

/-- The rule for a constant exponent drops the derivative of the base, so
nothing is asked of that. -/
theorem repeatable_powerRule (h : (power f g).Repeatable) (df : Derivative) :
    (Rules.power f g df .zero).2.toExpr.Repeatable := by
  obtain ⟨hf, hg, hvariable⟩ := repeatable_power.mp h
  have hexponent := repeatable_of_not_hasVariable hg hvariable
  cases df with
  | zero => exact repeatable_constant _
  | expr df => simp [Rules.power, Derivative.toExpr, hf, hg, hvariable, hexponent, Mentions,
      subtract, one]

theorem repeatable_function (hchain : Rules.chain? function = some chain)
    (hf : f.Repeatable) (hdf : df.toExpr.Repeatable) :
    (Rules.function chain f df).2.toExpr.Repeatable := by
  have hlog := hf.not_hasLog
  cases df with
  | zero => exact hdf
  | expr df =>
      replace hdf : df.Repeatable := hdf
      change (chain f df).2.Repeatable
      cases function with
      | sin | cos | exp =>
          obtain rfl := Option.some.inj hchain
          by_cases hvariable : f.isVariable = true <;> simp [hvariable, hf, hdf]
      | tan | sqrt =>
          -- The argument becomes the base of a square, where only logarithms count.
          obtain rfl := Option.some.inj hchain
          simp [hf, hdf, hlog, Mentions, two]
      | ln => cases hchain

/-- One round keeps what makes differentiation repeatable. -/
theorem Repeatable.derived (h : e.Repeatable) : e.derived.toExpr.Repeatable := by
  induction e with
  | constant value => exact repeatable_constant _
  | var => exact repeatable_constant _
  | negate f ih =>
      have hdf := ih h
      rw [derived_negate]
      cases hderived : f.derived <;> simp_all [Rules.negate, Derivative.toExpr]
  | apply function f ih =>
      obtain ⟨hfunction, hf⟩ := h
      obtain ⟨chain, hchain⟩ := Rules.exists_chain hfunction
      rw [derived_apply hchain]
      exact repeatable_function hchain hf (ih hf)
  | binary operator f g ihf ihg =>
      rw [derived_binary]
      by_cases hoperator : operator = .power
      · -- The exponent is free of the variable, so the rule makes no logarithm.
        subst hoperator
        obtain ⟨-, hg, hvariable⟩ := repeatable_power.mp h
        rw [(derived_eq_zero_iff hg).mpr hvariable]
        exact repeatable_powerRule h f.derived
      · obtain ⟨hf, hg⟩ := (repeatable_binary hoperator).mp h
        exact repeatable_operator hoperator hf hg (ihf hf) (ihg hg)

theorem hasLog_operator (hoperator : operator ≠ .power)
    (h : ¬ (Rules.operator operator f g df dg).2.toExpr.HasLog) :
    ¬ df.toExpr.HasLog ∧ ¬ dg.toExpr.HasLog := by
  cases operator with
  | power => exact absurd rfl hoperator
  | _ =>
      cases df <;> cases dg <;>
        simp_all [Rules.operator, Rules.sum, Rules.difference, Rules.product, Rules.quotient,
          Derivative.toExpr, Mentions, add, subtract, multiply, divide, power, zero, one, two]

theorem hasLog_negate (h : ¬ (Rules.negate df).2.toExpr.HasLog) : ¬ df.toExpr.HasLog := by
  cases df <;> simp_all [Rules.negate, Derivative.toExpr, Mentions]

/-- Only the derivative of a bare variable is left out of a chain rule. -/
theorem hasLog_function (hchain : Rules.chain? function = some chain)
    (h : ¬ (Rules.function chain f df).2.toExpr.HasLog) :
    f.isVariable = true ∨ ¬ df.toExpr.HasLog := by
  cases df with
  | zero => exact .inr (by simp [Derivative.toExpr, zero, Mentions])
  | expr df =>
      replace h : ¬ (chain f df).2.HasLog := h
      cases function with
      | sin | cos | exp =>
          obtain rfl := Option.some.inj hchain
          by_cases hvariable : f.isVariable = true
          · exact .inl hvariable
          · simp only [hvariable, Bool.false_eq_true, if_false, multiply, Mentions, not_or] at h
            simp_all [Derivative.toExpr]
      | tan | sqrt =>
          obtain rfl := Option.some.inj hchain
          simp only [divide, Mentions, not_or] at h
          exact .inr h.2.1
      | ln => cases hchain

theorem hasLog_power (dg : Expr) : (Rules.power f g df (.expr dg)).2.toExpr.HasLog := by
  cases df <;> simp [Rules.power, Derivative.toExpr, Mentions, multiply, add]

/-- Without a logarithm before and after one round, rounds can be repeated. -/
theorem repeatable_of_derived (hlog : ¬ e.HasLog) (hderived : ¬ e.derived.toExpr.HasLog) :
    e.Repeatable := by
  induction e, hlog using induction_of_not_hasLog with
  | constant value => exact repeatable_constant value
  | var => exact repeatable_var
  | negate f _ _ ih =>
      rw [derived_negate] at hderived
      exact ih (hasLog_negate hderived)
  | apply function chain f _ _ hchain ih =>
      rw [derived_apply hchain] at hderived
      refine ⟨Rules.ne_ln_of_chain hchain, ?_⟩
      rcases hasLog_function hchain hderived with hvariable | hdf
      · cases f <;> first | exact repeatable_var | cases hvariable
      · exact ih hdf
  | binary operator f g hf hg _ ihf ihg =>
      rw [derived_binary] at hderived
      by_cases hoperator : operator = .power
      · -- Nothing is known of the base here: its derivative may have been dropped.
        subst hoperator
        refine repeatable_power.mpr ⟨hf, hg, ?_⟩
        rw [← derived_eq_zero_iff hg]
        cases hdg : g.derived with
        | zero => rfl
        | expr dg =>
            rw [hdg] at hderived
            exact absurd (hasLog_power dg) hderived
      · obtain ⟨hdf, hdg⟩ := hasLog_operator hoperator hderived
        exact (repeatable_binary hoperator).mpr ⟨ihf hdf, ihg hdg⟩

end Rules

theorem Repeatable.nthDerivative (h : e.Repeatable) (order : Nat) :
    ∃ d, e.nthDerivative order = .ok d := by
  induction order generalizing e with
  | zero => exact ⟨e, rfl⟩
  | succ order ih =>
      obtain ⟨d, hd⟩ := ih h.derived
      refine ⟨d, ?_⟩
      rw [Expr.nthDerivative, derivative_of_not_hasLog h.not_hasLog]
      exact hd

theorem nthDerivative_succ_eq_ok_iff {order : Nat} {d' : Expr} :
    e.nthDerivative (order + 1) = .ok d' ↔
      ∃ d, e.derivative = .ok d ∧ d.toExpr.nthDerivative order = .ok d' := by
  rw [Expr.nthDerivative]
  cases e.derivative with
  | error diagnostic => simp [Except.bind]
  | ok d => simp [Except.bind]

/-- Every order up to `order` exists exactly if no round of repeated
differentiation fails. -/
theorem exists_nthDerivative_iff {order : Nat} :
    (∃ d, e.nthDerivative order = .ok d) ↔
      ∀ round ∈ e.repeatedDerivatives order, ∃ d, round.1 = .ok d := by
  induction order generalizing e with
  | zero => simp [Expr.nthDerivative, Expr.repeatedDerivatives]
  | succ order ih =>
      simp only [nthDerivative_succ_eq_ok_iff]
      rw [← derivativeAndSteps_fst, Expr.repeatedDerivatives]
      split
      next d steps heq =>
        simp only [heq, Except.ok.injEq, List.forall_mem_cons, exists_eq', true_and, ← ih]
        constructor
        · rintro ⟨d', _, rfl, hd'⟩
          exact ⟨d', hd'⟩
        · rintro ⟨d', hd'⟩
          exact ⟨d', d, rfl, hd'⟩
      next diagnostic steps heq => simp [heq]

/-- The second derivative exists exactly if all derivatives do, which is if no
round of repeated differentiation fails, and if there is no logarithm and every
power with the variable in its exponent is dropped. -/
theorem nthDerivative_tfae (e : Expr) :
    List.TFAE [
      ∃ d d', e.derivative = .ok d ∧ d.toExpr.derivative = .ok d',
      ∀ order, ∃ d, e.nthDerivative order = .ok d,
      ∀ times, ∀ round ∈ e.repeatedDerivatives times, ∃ d, round.1 = .ok d,
      ¬ e.HasLog ∧ e.VariablePowersDropped] := by
  -- The first round makes a logarithm out of each power that is not dropped, and
  -- the second one would meet it.
  tfae_have 1 → 4 := by
    rintro ⟨d, d', hfirst, hsecond⟩
    obtain ⟨hlog, rfl⟩ := derivative_eq_ok_iff.mp hfirst
    exact repeatable_iff.mp (repeatable_of_derived hlog (derivative_eq_ok_iff.mp hsecond).1)
  tfae_have 4 → 2 := fun h order => (repeatable_iff.mpr h).nthDerivative order
  tfae_have 2 ↔ 3 := forall_congr' fun _ => exists_nthDerivative_iff
  tfae_have 2 → 1 := by
    intro h
    obtain ⟨e'', he⟩ := h 2
    obtain ⟨d, hfirst, he⟩ := nthDerivative_succ_eq_ok_iff.mp he
    obtain ⟨d', hsecond, -⟩ := nthDerivative_succ_eq_ok_iff.mp he
    exact ⟨d, d', hfirst, hsecond⟩
  tfae_finish

end SymbolicCalculus.Expr
