import Mathlib.Data.List.Forall2
import SymbolicCalculus.Proofs.Derivative.Outcome

/-! # Parametricity in the constants

Differentiation never looks at the number of a constant. On two expressions of
one shape it applies the same rules and ends alike, and a relation that holds
between the numbers of the expressions holds between those of the derivatives.
It only has to hold of the numbers that rules write themselves.
-/

namespace SymbolicCalculus

/-- Two expressions of one shape, with related numbers at the same places. -/
inductive Expr.Related (R : Binary64 → Binary64 → Prop) : Expr → Expr → Prop where
  | constant {value value' : Binary64} (h : R value value') :
      Related R (.constant value) (.constant value')
  | var : Related R .var .var
  | negate {f f' : Expr} (hf : Related R f f') : Related R (.negate f) (.negate f')
  | apply {f f' : Expr} (function : NamedFunction) (hf : Related R f f') :
      Related R (.apply function f) (.apply function f')
  | binary {f f' g g' : Expr} (operator : Operator) (hf : Related R f f') (hg : Related R g g') :
      Related R (.binary operator f g) (.binary operator f' g')

/-- Two derivatives that are both zero, or both related expressions. -/
inductive Derivative.Related (R : Binary64 → Binary64 → Prop) : Derivative → Derivative → Prop where
  | zero : Related R .zero .zero
  | expr {e e' : Expr} (h : e.Related R e') : Related R (.expr e) (.expr e')

/-- A relation that holds of each number that a rule writes into a derivative. -/
structure RelatesRuleNumbers (R : Binary64 → Binary64 → Prop) : Prop where
  zero : R .zero .zero
  one : R .one .one
  two : R .two .two

/-- Two nodes settled by the same rule, with related derivatives. -/
structure SettledAlike (R : Binary64 → Binary64 → Prop) (result result' : Step × Derivative) :
    Prop where
  step : result.1 = result'.1
  derivative : result.2.Related R result'.2

variable {R : Binary64 → Binary64 → Prop} {f f' g g' a b : Expr} {df df' dg dg' : Derivative}

theorem Derivative.Related.toExpr (hR : RelatesRuleNumbers R) (h : df.Related R df') :
    df.toExpr.Related R df'.toExpr := by
  cases h with
  | zero => exact .constant hR.zero
  | expr h => exact h

theorem Expr.Related.isVariable_eq (h : f.Related R f') : f.isVariable = f'.isVariable := by
  cases h <;> rfl

namespace Rules

theorem settledAlike_negate (hdf : df.Related R df') :
    SettledAlike R (negate df) (negate df') := by
  cases hdf with
  | zero => exact ⟨rfl, .zero⟩
  | expr hdf => exact ⟨rfl, .expr (.negate hdf)⟩

theorem settledAlike_sum (hdf : df.Related R df') (hdg : dg.Related R dg') :
    SettledAlike R (sum df dg) (sum df' dg') := by
  cases hdf with
  | zero =>
      cases hdg with
      | zero => exact ⟨rfl, .zero⟩
      | expr hdg => exact ⟨rfl, .expr hdg⟩
  | expr hdf =>
      cases hdg with
      | zero => exact ⟨rfl, .expr hdf⟩
      | expr hdg => exact ⟨rfl, .expr (.binary .add hdf hdg)⟩

theorem settledAlike_difference (hdf : df.Related R df') (hdg : dg.Related R dg') :
    SettledAlike R (difference df dg) (difference df' dg') := by
  cases hdf with
  | zero =>
      cases hdg with
      | zero => exact ⟨rfl, .zero⟩
      | expr hdg => exact ⟨rfl, .expr (.negate hdg)⟩
  | expr hdf =>
      cases hdg with
      | zero => exact ⟨rfl, .expr hdf⟩
      | expr hdg => exact ⟨rfl, .expr (.binary .subtract hdf hdg)⟩

section Operands

variable (hf : f.Related R f') (hg : g.Related R g')
variable (hdf : df.Related R df') (hdg : dg.Related R dg')
include hf hg hdf hdg

theorem settledAlike_product : SettledAlike R (product f g df dg) (product f' g' df' dg') := by
  cases hdf with
  | zero =>
      cases hdg with
      | zero => exact ⟨rfl, .zero⟩
      | expr hdg => exact ⟨rfl, .expr (.binary .multiply hf hdg)⟩
  | expr hdf =>
      cases hdg with
      | zero => exact ⟨rfl, .expr (.binary .multiply hdf hg)⟩
      | expr hdg =>
          have hleft := Expr.Related.binary .multiply hdf hg
          have hright := Expr.Related.binary .multiply hf hdg
          exact ⟨rfl, .expr (.binary .add hleft hright)⟩

theorem settledAlike_quotient (hR : RelatesRuleNumbers R) :
    SettledAlike R (quotient f g df dg) (quotient f' g' df' dg') := by
  have hsquare := Expr.Related.binary .power hg (.constant hR.two)
  cases hdf with
  | zero =>
      cases hdg with
      | zero => exact ⟨rfl, .zero⟩
      | expr hdg =>
          have hreciprocal := Expr.Related.binary .divide (.negate hdg) hsquare
          exact ⟨rfl, .expr (.binary .multiply hf hreciprocal)⟩
  | expr hdf =>
      cases hdg with
      | zero =>
          have hfactor := Expr.Related.binary .divide (.constant hR.one) hg
          exact ⟨rfl, .expr (.binary .multiply hfactor hdf)⟩
      | expr hdg =>
          have hleft := Expr.Related.binary .multiply hdf hg
          have hright := Expr.Related.binary .multiply hf hdg
          exact ⟨rfl, .expr (.binary .divide (.binary .subtract hleft hright) hsquare)⟩

theorem settledAlike_power (hR : RelatesRuleNumbers R) :
    SettledAlike R (power f g df dg) (power f' g' df' dg') := by
  cases hdg with
  | zero =>
      cases hdf with
      | zero => exact ⟨rfl, .zero⟩
      | expr hdf =>
          have hexponent := Expr.Related.binary .subtract hg (.constant hR.one)
          exact ⟨rfl, .expr (.binary .multiply hg (.binary .power hf hexponent))⟩
  | expr hdg =>
      have hlogarithm := Expr.Related.binary .multiply (hdf.toExpr hR) (.apply .ln hg)
      have hquotient := Expr.Related.binary .multiply hf (.binary .divide hdg hg)
      have hderivative := Expr.Related.binary .multiply (.binary .power hf hg)
        (.binary .add hlogarithm hquotient)
      cases hdf <;> exact ⟨rfl, .expr hderivative⟩

theorem settledAlike_operator (hR : RelatesRuleNumbers R) (o : Operator) :
    SettledAlike R (operator o f g df dg) (operator o f' g' df' dg') := by
  cases o with
  | add => exact settledAlike_sum hdf hdg
  | subtract => exact settledAlike_difference hdf hdg
  | multiply => exact settledAlike_product hf hg hdf hdg
  | divide => exact settledAlike_quotient hf hg hdf hdg hR
  | power => exact settledAlike_power hf hg hdf hdg hR

end Operands

/-- The chain rules look at an argument only to see whether it is `x`. -/
theorem settledAlike_function {function : NamedFunction} {chain : Expr → Expr → Step × Expr}
    (hchain : chain? function = some chain) (hR : RelatesRuleNumbers R) (hf : f.Related R f')
    (hdf : df.Related R df') :
    SettledAlike R (Rules.function chain f df) (Rules.function chain f' df') := by
  cases hdf with
  | zero => exact ⟨rfl, .zero⟩
  | @expr df df' hdf =>
      suffices h : (chain f df).1 = (chain f' df').1 ∧
          (chain f df).2.Related R (chain f' df').2 from ⟨h.1, .expr h.2⟩
      have hvariable := hf.isVariable_eq
      cases function with
      | sin =>
          cases hchain
          simp only [hvariable]
          split
          · exact ⟨rfl, .apply .cos hf⟩
          · exact ⟨rfl, .binary .multiply hdf (.apply .cos hf)⟩
      | cos =>
          cases hchain
          simp only [hvariable]
          split
          · exact ⟨rfl, .negate (.apply .sin hf)⟩
          · exact ⟨rfl, .negate (.binary .multiply hdf (.apply .sin hf))⟩
      | tan =>
          cases hchain
          have hsquare := Expr.Related.binary .power (.apply .cos hf) (.constant hR.two)
          exact ⟨rfl, .binary .divide hdf hsquare⟩
      | exp =>
          cases hchain
          simp only [hvariable]
          split
          · exact ⟨rfl, .apply .exp hf⟩
          · exact ⟨rfl, .binary .multiply hdf (.apply .exp hf)⟩
      | sqrt =>
          cases hchain
          have hdouble := Expr.Related.binary .multiply (.constant hR.two) (.apply .sqrt hf)
          exact ⟨rfl, .binary .divide hdf hdouble⟩
      | ln => cases hchain

end Rules

namespace Expr

section Runs

/-- Related nodes are settled alike. -/
theorem Related.settled (hR : RelatesRuleNumbers R) (h : a.Related R b) :
    SettledAlike R a.settled b.settled := by
  induction h with
  | constant h => exact ⟨rfl, .zero⟩
  | var => exact ⟨rfl, .expr (.constant hR.one)⟩
  | negate hf ih => exact Rules.settledAlike_negate ih.derivative
  | apply function hf ih =>
      cases hchain : Rules.chain? function with
      | none =>
          simp only [Expr.settled, hchain]
          exact ⟨rfl, .zero⟩
      | some chain =>
          simp only [Expr.settled, hchain]
          exact Rules.settledAlike_function hchain hR hf ih.derivative
  | binary operator hf hg ihf ihg =>
      exact Rules.settledAlike_operator hf hg ihf.derivative ihg.derivative hR operator

theorem Related.firstLog?_eq (h : a.Related R b) : a.firstLog? = b.firstLog? := by
  induction h with
  | constant h => rfl
  | var => rfl
  | negate hf ih => rw [firstLog?, firstLog?, ih]
  | apply function hf ih =>
      by_cases hfunction : function = .ln
      · subst hfunction
        rfl
      · rw [firstLog?_apply hfunction, firstLog?_apply hfunction, ih]
  | binary operator hf hg ihf ihg => rw [firstLog?, firstLog?, ihf, ihg]

theorem Related.hasLog_iff (h : a.Related R b) : a.HasLog ↔ b.HasLog := by
  rw [hasLog_iff_firstLog?, hasLog_iff_firstLog?, h.firstLog?_eq]

/-- Runs on related expressions finish related nodes, one for one. -/
theorem Related.finished (h : a.Related R b) : List.Forall₂ (Related R) a.finished b.finished := by
  induction h with
  | constant h => exact .cons (.constant h) .nil
  | var => exact .cons .var .nil
  | negate hf ih =>
      simp only [Expr.finished, hf.hasLog_iff]
      split
      · simpa using ih
      · exact List.rel_append ih (.cons (.negate hf) .nil)
  | apply function hf ih =>
      by_cases hfunction : function = .ln
      · subst hfunction
        exact .nil
      · simp only [finished_apply hfunction, hf.hasLog_iff]
        split
        · simpa using ih
        · exact List.rel_append ih (.cons (.apply function hf) .nil)
  | binary operator hf hg ihf ihg =>
      simp only [Expr.finished, hf.hasLog_iff, hg.hasLog_iff]
      split
      · simpa using ihf
      · split
        · simpa using List.rel_append ihf ihg
        · exact List.rel_append ihf (List.rel_append ihg (.cons (.binary operator hf hg) .nil))

theorem Related.map_settled_eq (hR : RelatesRuleNumbers R) (h : a.Related R b) :
    (a.finished.map fun node => node.settled.1) = b.finished.map fun node => node.settled.1 := by
  rw [← List.forall₂_eq_eq_eq, List.forall₂_map_left_iff, List.forall₂_map_right_iff]
  exact h.finished.imp fun _ _ hnode => (hnode.settled hR).step

end Runs

end Expr

/-- Two results that agree: both name the same node without a derivative, or both
are derivatives that are related. -/
inductive ResultsAgree (P : Derivative → Derivative → Prop) :
    Except Diagnostic Derivative → Except Diagnostic Derivative → Prop where
  | ok {d d' : Derivative} (h : P d d') : ResultsAgree P (.ok d) (.ok d')
  | error (node : Unimplemented) (spans spans' : List Span) :
      ResultsAgree P (.error ⟨spans, .unimplemented node⟩) (.error ⟨spans', .unimplemented node⟩)

/-- Two expressions whose runs append the same steps to any collector, and agree in
their results. -/
structure RunsAgree (P : Derivative → Derivative → Prop) (a b : Expr) : Prop where
  steps : ∃ trace : List Step, ∀ {σ : Type} [Collector σ] (collector : σ),
    (a.derivativeWithSteps collector).2.collector = trace.foldl Collector.push collector ∧
      (b.derivativeWithSteps collector).2.collector = trace.foldl Collector.push collector
  results : ∀ {σ : Type} [Collector σ] (collector : σ),
    ResultsAgree P (a.derivativeWithSteps collector).1 (b.derivativeWithSteps collector).1

theorem ResultsAgree.imp {P Q : Derivative → Derivative → Prop} (hPQ : ∀ d d', P d d' → Q d d')
    {result result' : Except Diagnostic Derivative} (h : ResultsAgree P result result') :
    ResultsAgree Q result result' := by
  cases h with
  | ok h => exact .ok (hPQ _ _ h)
  | error node spans spans' => exact .error node spans spans'

theorem RunsAgree.imp {P Q : Derivative → Derivative → Prop} (hPQ : ∀ d d', P d d' → Q d d')
    (h : RunsAgree P a b) : RunsAgree Q a b :=
  ⟨h.steps, fun collector => (h.results collector).imp hPQ⟩

theorem Expr.Related.runsAgree (hR : RelatesRuleNumbers R) (h : a.Related R b) :
    RunsAgree (Derivative.Related R) a b where
  steps := by
    refine ⟨a.finished.map fun node => node.settled.1, fun collector => ⟨?_, ?_⟩⟩
    · exact a.derivativeWithSteps_collector collector
    · rw [h.map_settled_eq hR]
      exact b.derivativeWithSteps_collector collector
  results := by
    intro σ _ collector
    cases hfirst : a.firstLog? with
    | none =>
        have hlog := firstLog?_eq_none_iff.mp hfirst
        rw [derivativeWithSteps_of_not_hasLog hlog,
          derivativeWithSteps_of_not_hasLog (mt h.hasLog_iff.mpr hlog)]
        exact .ok (h.settled hR).derivative
    | some path =>
        rw [derivativeWithSteps_of_firstLog? hfirst,
          derivativeWithSteps_of_firstLog? (h.firstLog?_eq.symm.trans hfirst)]
        exact .error _ _ _

section Equals

/-- Equality of expressions is the relation whose numbers compare as equal. -/
theorem Expr.equals_iff_related :
    a.equals b = true ↔ a.Related (fun value value' => value.equals value' = true) b := by
  constructor
  · intro h
    induction a generalizing b with
    | constant value =>
        cases b with
        | constant value' => exact .constant h
        | _ => cases h
    | var =>
        cases b with
        | var => exact .var
        | _ => cases h
    | negate f ih =>
        cases b with
        | negate f' => exact .negate (ih h)
        | _ => cases h
    | apply function f ih =>
        cases b with
        | apply function' f' =>
            simp only [equals, Bool.and_eq_true, decide_eq_true_eq] at h
            obtain ⟨rfl, h⟩ := h
            exact .apply function (ih h)
        | _ => cases h
    | binary operator f g ihf ihg =>
        cases b with
        | binary operator' f' g' =>
            simp only [equals, Bool.and_eq_true, decide_eq_true_eq] at h
            obtain ⟨⟨rfl, hleft⟩, hright⟩ := h
            exact .binary operator (ihf hleft) (ihg hright)
        | _ => cases h
  · intro h
    induction h with
    | constant h => exact h
    | var => rfl
    | negate hf ih => exact ih
    | apply function hf ih => simp [equals, ih]
    | binary operator hf hg ihf ihg => simp [equals, ihf, ihg]

theorem Derivative.Related.equals
    (h : df.Related (fun value value' => value.equals value' = true) df') :
    df.equals df' = true := by
  cases h with
  | zero => rfl
  | expr h => exact Expr.equals_iff_related.mpr h

theorem relatesRuleNumbers_equals :
    RelatesRuleNumbers fun value value' => value.equals value' = true :=
  ⟨rfl, rfl, rfl⟩

end Equals

/-- The expression with every number replaced. -/
def Expr.mapConstants (replace : Binary64 → Binary64) : Expr → Expr
  | constant value => constant (replace value)
  | var => var
  | negate f => negate (f.mapConstants replace)
  | apply function f => apply function (f.mapConstants replace)
  | binary operator f g => binary operator (f.mapConstants replace) (g.mapConstants replace)

/-- The derivative with every number replaced. -/
def Derivative.mapConstants (replace : Binary64 → Binary64) : Derivative → Derivative
  | zero => zero
  | expr e => expr (e.mapConstants replace)

section MapConstants

variable {replace : Binary64 → Binary64}

theorem Expr.related_mapConstants (replace : Binary64 → Binary64) (e : Expr) :
    e.Related (fun value value' => value' = replace value) (e.mapConstants replace) := by
  induction e with
  | constant value => exact .constant rfl
  | var => exact .var
  | negate f ih => exact .negate ih
  | apply function f ih => exact .apply function ih
  | binary operator f g ihf ihg => exact .binary operator ihf ihg

theorem Expr.Related.eq_mapConstants
    (h : a.Related (fun value value' => value' = replace value) b) :
    b = a.mapConstants replace := by
  induction h with
  | constant h => exact congrArg Expr.constant h
  | var => rfl
  | negate hf ih => rw [mapConstants, ih]
  | apply function hf ih => rw [mapConstants, ih]
  | binary operator hf hg ihf ihg => rw [mapConstants, ihf, ihg]

theorem Derivative.Related.eq_mapConstants
    (h : df.Related (fun value value' => value' = replace value) df') :
    df' = df.mapConstants replace := by
  cases h with
  | zero => rfl
  | expr h => exact congrArg Derivative.expr h.eq_mapConstants

end MapConstants

/-- Runs on expressions of one shape append the same steps. Either both fail at the
same node, or both derivatives have one shape, and every relation between the numbers
of the expressions that holds of the numbers of the rules is one between the numbers
of the derivatives. So equal expressions, in which the zeros agree, have equal
derivatives, though their texts and the spans in them may differ, and replacing
numbers other than those of the rules commutes with differentiation. -/
theorem runs_agree_on_related_constants :
    (∀ R, RelatesRuleNumbers R → ∀ a b : Expr, a.Related R b →
        RunsAgree (Derivative.Related R) a b) ∧
      (∀ a b : Expr, a.equals b = true → RunsAgree (fun d d' => d.equals d' = true) a b) ∧
      (∃ a b : Expr, ∃ diagnostic diagnostic', a.equals b = true ∧ a.text ≠ b.text ∧
        a.derivative = .error diagnostic ∧ b.derivative = .error diagnostic' ∧
        diagnostic.spans ≠ diagnostic'.spans) ∧
      ∀ replace : Binary64 → Binary64, replace .zero = .zero → replace .one = .one →
        replace .two = .two → ∀ e : Expr,
          RunsAgree (fun d d' => d' = d.mapConstants replace) e (e.mapConstants replace) := by
  refine ⟨?related, ?equals, ?texts, ?map⟩
  case related =>
    intro R hR a b h
    exact h.runsAgree hR
  case equals =>
    intro a b h
    have hruns := (Expr.equals_iff_related.mp h).runsAgree relatesRuleNumbers_equals
    exact hruns.imp fun d d' => Derivative.Related.equals
  case texts =>
    -- The text of the negative zero is longer, so what follows it is further right.
    refine ⟨.multiply .zero (.apply .ln .var),
      .multiply (.constant { Binary64.zero with negative := true }) (.apply .ln .var),
      ⟨[⟨4, 9⟩], .unimplemented ⟨.function .ln, [1]⟩⟩,
      ⟨[⟨5, 10⟩], .unimplemented ⟨.function .ln, [1]⟩⟩, rfl, ?_, ?_, ?_, ?_⟩
    · decide
    · rfl
    · rfl
    · decide
  case map =>
    intro replace hzero hone htwo e
    have hR : RelatesRuleNumbers fun value value' => value' = replace value :=
      ⟨hzero.symm, hone.symm, htwo.symm⟩
    exact ((e.related_mapConstants replace).runsAgree hR).imp fun d d' =>
      Derivative.Related.eq_mapConstants

/-- A five in place of the three of `3 * sin(x)` changes nothing in the run but the
number. -/
theorem runs_agree_on_related_constants_factor :
    ∃ R, RelatesRuleNumbers R ∧
      (Expr.multiply (.integer 3) (.apply .sin .var)).Related R
        (.multiply (.integer 5) (.apply .sin .var)) ∧
      RunsAgree (Derivative.Related R) (.multiply (.integer 3) (.apply .sin .var))
        (.multiply (.integer 5) (.apply .sin .var)) := by
  obtain ⟨hrelated, -⟩ := runs_agree_on_related_constants
  have hR : RelatesRuleNumbers fun value value' => value = .ofInt 3 ∨ value = value' :=
    ⟨.inr rfl, .inr rfl, .inr rfl⟩
  refine ⟨_, hR, ?factors, hrelated _ hR _ _ ?factors⟩
  exact .binary .multiply (.constant (.inl rfl)) (.apply .sin .var)

end SymbolicCalculus
