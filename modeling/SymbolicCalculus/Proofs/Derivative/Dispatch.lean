import SymbolicCalculus.Proofs.Derivative.Outcome

/-! # Outcomes and the choice of rules by tags

Which of its three outcomes a derivative has depends on whether the logarithm and
the variable occur. The run described here chooses the rule of a function's node
by the tag of the node. Two of the choices have a case for tags that cannot come
up, and these cases halt the run. No run halts in them, for it is the run that
chooses by constructors.
-/

namespace SymbolicCalculus

/-- Why a run that chooses rules by tags ends without a derivative. -/
inductive Halt where
  /-- A node has no rule. -/
  | unimplemented (node : Unimplemented)
  /-- The rule for functions was asked about a node that is none. -/
  | notAFunction (tag : Tag)
  /-- The chain rule was asked about a node that has none. -/
  | notDifferentiable (tag : Tag)
deriving DecidableEq

/-- A path to where the run ended continues below the child at `index`. -/
def Halt.within (index : Nat) : Halt → Halt
  | unimplemented node => unimplemented { node with path := index :: node.path }
  | halt => halt

/-- A computation that makes progress and may halt. -/
abbrev Dispatch (σ : Type) := ExceptT Halt (StateM (Progress σ))

namespace Dispatch

variable {σ α β : Type}

/-- A computation that halts at most at a node without a rule. -/
def lift (run : Differentiation σ α) : Dispatch σ α := run.adapt Halt.unimplemented

def within (index : Nat) (child : Dispatch σ α) : Dispatch σ α := child.adapt (Halt.within index)

/-- The argument of a function that can be differentiated, by the kind of the
node. -/
def argument (node : Expr) : Dispatch σ Expr :=
  match node with
  | .apply .ln _ => throw (.unimplemented ⟨.function .ln, []⟩)
  | .apply .sin f | .apply .cos f | .apply .tan f | .apply .exp f | .apply .sqrt f => pure f
  | _ => throw (.notAFunction node.tag)

/-- The chain rule for an argument `f` with the derivative `df`, by the tag of the
node and by whether its argument is `x` itself. -/
def chain (tag : Tag) (bare : Bool) (f df : Expr) : Dispatch σ (Step × Expr) :=
  match tag, bare with
  | .function .sin, true => pure (.sin, .apply .cos f)
  | .function .sin, false => pure (.sinChain, .multiply df (.apply .cos f))
  | .function .cos, true => pure (.cos, .negate (.apply .sin f))
  | .function .cos, false => pure (.cosChain, .negate (.multiply df (.apply .sin f)))
  | .function .tan, _ => pure (.tan, .divide df (.power (.apply .cos f) .two))
  | .function .exp, true => pure (.exp, .apply .exp f)
  | .function .exp, false => pure (.expChain, .multiply df (.apply .exp f))
  | .function .sqrt, _ => pure (.sqrt, .divide df (.multiply .two (.apply .sqrt f)))
  | tag, _ => throw (.notDifferentiable tag)

/-- The rule for a function's node, given the run on its argument. -/
def function (node : Expr) (child : Dispatch σ Derivative) : Dispatch σ (Step × Derivative) := do
  let f ← argument node
  match ← child with
  | .zero => return (.zeroDerivative, .zero)
  | .expr df =>
      let (step, derivative) ← chain node.tag f.isVariable f df
      return (step, .expr derivative)

end Dispatch

namespace Expr

open Differentiation (finish)
open Dispatch (lift within)

variable {σ : Type}

/-- Apply the rules to all nodes of an expression, those of functions by tag. -/
def dispatch [Collector σ] : Expr → Dispatch σ Derivative
  | constant value => lift (finish (constant value) (.constant, .zero))
  | var => lift (finish var (.var, .expr one))
  | negate f => do
      let df ← within 0 f.dispatch
      lift (finish (negate f) (Rules.negate df))
  | apply function f => do
      let result ← Dispatch.function (apply function f) (within 0 f.dispatch)
      lift (finish (apply function f) result)
  | binary operator f g => do
      let df ← within 0 f.dispatch
      let dg ← within 1 g.dispatch
      lift (finish (binary operator f g) (Rules.operator operator f g df dg))

end Expr

namespace Dispatch

variable {σ α β : Type}

theorem run_lift (run : Differentiation σ α) (progress : Progress σ) :
    (lift run).run.run progress =
      match run.run.run progress with
      | (.ok value, progress) => (.ok value, progress)
      | (.error node, progress) => (.error (.unimplemented node), progress) := by
  rw [lift, ExceptT.run_adapt, StateT.run_map]
  cases run.run.run progress with
  | mk result progress => cases result <;> rfl

theorem lift_bind (first : Differentiation σ α) (next : α → Differentiation σ β) :
    lift (first >>= next) = lift first >>= fun value => lift (next value) := by
  apply ExceptT.ext
  apply StateT.ext
  intro progress
  rw [run_lift, Differentiation.run_bind, ExceptT.run_bind, StateT.run_bind, run_lift]
  cases first.run.run progress with
  | mk result progress =>
      cases result with
      | error node => rfl
      | ok value => exact (run_lift (next value) progress).symm

theorem within_lift (index : Nat) (child : Differentiation σ α) :
    within index (lift child) = lift (Differentiation.within index child) := by
  apply ExceptT.ext
  apply StateT.ext
  intro progress
  rw [run_lift, Differentiation.run_within, within, ExceptT.run_adapt, StateT.run_map, run_lift]
  cases child.run.run progress with
  | mk result progress => cases result <;> rfl

theorem lift_pure (value : α) : lift (pure value : Differentiation σ α) = pure value := rfl

theorem lift_throw (node : Unimplemented) :
    lift (throw node : Differentiation σ α) = throw (.unimplemented node) := rfl

/-- On the node of a function the choice by tag is the choice by function. -/
theorem function_apply (function : NamedFunction) (f : Expr)
    (child : Differentiation σ Derivative) :
    Dispatch.function (.apply function f) (lift child) =
      lift
        (match Rules.chain? function with
        | none => throw ⟨.function function, []⟩
        | some chain => child >>= fun df => pure (Rules.function chain f df)) := by
  cases hchain : Rules.chain? function with
  | none =>
      obtain rfl := Rules.chain?_eq_none_iff.mp hchain
      rfl
  | some chain =>
      have hargument : argument (.apply function f) = (pure f : Dispatch σ Expr) := by
        cases function <;> first | rfl | cases hchain
      simp only [Dispatch.function, hargument, pure_bind, lift_bind]
      congr 1
      funext df
      cases df with
      | zero => rfl
      | expr df => cases function <;> cases hchain <;> cases hbare : f.isVariable <;>
          simp [Dispatch.chain, Rules.function, Expr.tag, lift_pure, hbare]

end Dispatch

namespace Expr

open Dispatch (lift)

variable {σ : Type} [Collector σ]

/-- The choice by tags does not change the run. -/
theorem dispatch_eq_lift (e : Expr) :
    (e.dispatch : Dispatch σ Derivative) = lift e.differentiate := by
  induction e with
  | constant value => rfl
  | var => rfl
  | negate f ih => rw [dispatch, differentiate, ih, Dispatch.within_lift, Dispatch.lift_bind]
  | apply function f ih =>
      rw [dispatch, differentiate, ih, Dispatch.within_lift, Dispatch.function_apply,
        ← Dispatch.lift_bind]
      cases Rules.chain? function with
      | none => rfl
      | some chain => simp only [bind_assoc, pure_bind]
  | binary operator f g ihf ihg =>
      simp only [dispatch, differentiate, ihf, ihg, Dispatch.within_lift, Dispatch.lift_bind]

theorem dispatch_halts_unimplemented {e : Expr} {progress : Progress σ} {halt : Halt}
    (h : (e.dispatch.run.run progress).1 = .error halt) : ∃ node, halt = .unimplemented node := by
  rw [dispatch_eq_lift, Dispatch.run_lift] at h
  cases hrun : e.differentiate.run.run progress with
  | mk result progress =>
      rw [hrun] at h
      cases result with
      | ok derivative => cases h
      | error node => exact ⟨node, (Except.error.inj h).symm⟩

/-- Differentiation fails where there is a logarithm; else the derivative is zero
exactly where there is no variable. The run that chooses by tags is the same, and
never asks for the rule of a function where there is none. -/
theorem derivative_outcomes (e : Expr) :
    ((∃ diagnostic, e.derivative = .error diagnostic) ↔ e.HasLog) ∧
      (e.derivative = .ok .zero ↔ ¬ e.HasLog ∧ ¬ e.HasVariable) ∧
      ((∃ r, e.derivative = .ok (.expr r)) ↔ ¬ e.HasLog ∧ e.HasVariable) ∧
      ∀ (σ : Type) [Collector σ],
        (e.dispatch : Dispatch σ Derivative) = lift e.differentiate ∧
          ∀ (progress : Progress σ) (tag : Tag),
            (e.dispatch.run.run progress).1 ≠ .error (.notAFunction tag) ∧
              (e.dispatch.run.run progress).1 ≠ .error (.notDifferentiable tag) := by
  refine ⟨exists_derivative_eq_error_iff, ?_, ?_, ?_⟩
  · rw [derivative_eq_ok_iff]
    exact and_congr_right derived_eq_zero_iff
  · simp only [derivative_eq_ok_iff, exists_and_left]
    refine and_congr_right fun hlog => ?_
    have hzero := derived_eq_zero_iff hlog
    cases hderived : e.derived with
    | zero => simp_all
    | expr r => simp_all
  · intro σ _
    refine ⟨e.dispatch_eq_lift, ?_⟩
    intro progress tag
    constructor
    · intro hhalt
      obtain ⟨node, hnode⟩ := dispatch_halts_unimplemented hhalt
      cases hnode
    · intro hhalt
      obtain ⟨node, hnode⟩ := dispatch_halts_unimplemented hhalt
      cases hnode

end Expr

end SymbolicCalculus
