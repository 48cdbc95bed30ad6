import SymbolicCalculus.Derivative.Collector
import SymbolicCalculus.Derivative.Journal

/-! # Differentiation

The derivative of an expression is built from the leaves up, left to right,
with one rule per node. A run pushes the rule of every finished node to the
caller's collector and logs it. The logarithm has no rule: a run that reaches
one stops there, and what was collected and logged before stays.
-/

namespace SymbolicCalculus

/-- What a run of the rules leaves behind besides its result. -/
structure Progress (σ : Type) where
  collector : σ
  log : Array Record := #[]

/-- A computation that makes progress and may stop at a node without a rule. -/
abbrev Differentiation (σ : Type) := ExceptT Unimplemented (StateM (Progress σ))

namespace Differentiation

variable {σ : Type}

/-- Settle a node by a rule's result. -/
def finish [Collector σ] (node : Expr) (result : Step × Derivative) :
    Differentiation σ Derivative := do
  modify fun progress =>
    { collector := Collector.push progress.collector result.1
      log := progress.log.push (.finished result.1 node result.2) }
  return result.2

/-- Run a computation on the child at `index`. A path found there continues
below that child. -/
def within {α : Type} (index : Nat) (child : Differentiation σ α) : Differentiation σ α :=
  child.adapt fun node => { node with path := index :: node.path }

end Differentiation

namespace Expr

open Differentiation

variable {σ : Type}

/-- Apply the rules to all nodes of an expression. A logarithm stops the run
before its argument is looked at. -/
def differentiate [Collector σ] : Expr → Differentiation σ Derivative
  | constant value => finish (constant value) (.constant, .zero)
  | var => finish var (.var, .expr one)
  | negate f => do
      let df ← within 0 f.differentiate
      finish (negate f) (Rules.negate df)
  | apply function f =>
      match Rules.chain? function with
      | none => throw ⟨.function function, []⟩
      | some chain => do
          let df ← within 0 f.differentiate
          finish (apply function f) (Rules.function chain f df)
  | binary operator f g => do
      let df ← within 0 f.differentiate
      let dg ← within 1 g.differentiate
      finish (binary operator f g) (Rules.operator operator f g df dg)

/-- The diagnostic for a node of `e` without a derivative: it points at the
node in the infix text of `e`. -/
def diagnose (e : Expr) (node : Unimplemented) : Diagnostic :=
  ⟨(e.textWithSpan node.path).2.toList, .unimplemented node⟩

/-- Differentiate an expression, handing the steps to a collector. The result
comes with the collector and the log records of the run. -/
def derivativeWithSteps [Collector σ] (e : Expr) (collector : σ) :
    Except Diagnostic Derivative × Progress σ :=
  match e.differentiate.run.run { collector } with
  | (.ok derivative, progress) => (.ok derivative, progress)
  | (.error node, progress) =>
      (.error (e.diagnose node), { progress with log := progress.log.push (.failed e node) })

/-- The derivative of an expression with respect to `x`. -/
def derivative (e : Expr) : Except Diagnostic Derivative := (e.derivativeWithSteps ()).1

/-- The derivative together with the rules applied on the way. -/
def derivativeAndSteps (e : Expr) : Except Diagnostic Derivative × Array Step :=
  let (result, progress) := e.derivativeWithSteps (#[] : Array Step)
  (result, progress.collector)

/-- Differentiate up to `times` times, each time the last derivative as an
expression. Every round gives its result and its steps; a failure is the last. -/
def repeatedDerivatives : Nat → Expr → List (Except Diagnostic Derivative × Array Step)
  | 0, _ => []
  | times + 1, e =>
      match e.derivativeAndSteps with
      | (.ok derivative, steps) =>
          (.ok derivative, steps) :: repeatedDerivatives times derivative.toExpr
      | (.error diagnostic, steps) => [(.error diagnostic, steps)]

end Expr

end SymbolicCalculus
