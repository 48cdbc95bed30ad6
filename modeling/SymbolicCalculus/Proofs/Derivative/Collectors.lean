import SymbolicCalculus.Proofs.Derivative.Trace

/-! # Collectors of many runs

One collector may serve many calls, and it may be lent on for each of them. A call
appends to it what the expression alone leaves in an empty one, also where it fails,
and no collector shows in a result.
-/

namespace SymbolicCalculus

variable {σ : Type}

/-- A collector at the end of a chain of loans. -/
def LentThrough (σ : Type) : Nat → Type
  | 0 => σ
  | loans + 1 => Lent (LentThrough σ loans)

namespace LentThrough

instance collector [Collector σ] : (loans : Nat) → Collector (LentThrough σ loans)
  | 0 => inferInstanceAs (Collector σ)
  | loans + 1 =>
      have := collector loans
      inferInstanceAs (Collector (Lent (LentThrough σ loans)))

/-- Lend a collector the given number of times, each time by the last borrower. -/
def lend (owner : σ) : (loans : Nat) → LentThrough σ loans
  | 0 => owner
  | loans + 1 => ⟨lend owner loans⟩

/-- The collector that the first owner has when all loans have ended. -/
def takeBack : (loans : Nat) → LentThrough σ loans → σ
  | 0, collector => collector
  | loans + 1, lent => takeBack loans (Lent.owner lent)

@[simp] theorem takeBack_lend (collector : σ) (loans : Nat) :
    takeBack loans (lend collector loans) = collector := by
  induction loans with
  | zero => rfl
  | succ loans ih => exact ih

variable [Collector σ]

theorem takeBack_push (loans : Nat) (lent : LentThrough σ loans) (step : Step) :
    takeBack loans (Collector.push lent step) = Collector.push (takeBack loans lent) step := by
  induction loans with
  | zero => rfl
  | succ loans ih => exact ih (Lent.owner lent)

/-- What the borrower receives is what the owner has received. -/
theorem takeBack_foldl_push (loans : Nat) (lent : LentThrough σ loans) (steps : List Step) :
    takeBack loans (steps.foldl Collector.push lent) =
      steps.foldl Collector.push (takeBack loans lent) := by
  induction steps generalizing lent with
  | nil => rfl
  | cons step steps ih =>
      rw [List.foldl_cons, ih, takeBack_push]
      rfl

end LentThrough

namespace Expr

/-- The steps that an expression leaves in an empty array. -/
def trace (e : Expr) : List Step := e.derivativeAndSteps.2.toList

theorem trace_eq_finished (e : Expr) : e.trace = e.finished.map fun node => node.settled.1 :=
  (e.collector_derivativeWithSteps #[]).trans (List.nil_append _)

variable [Collector σ]

/-- A run pushes the steps of the trace, whatever the collector holds and does. -/
theorem derivativeWithSteps_pushes_trace (e : Expr) (collector : σ) :
    (e.derivativeWithSteps collector).2.collector = e.trace.foldl Collector.push collector := by
  rw [trace_eq_finished]
  exact e.derivativeWithSteps_collector collector

/-- The trace of a failing run holds the rules of the nodes to the left of the one
that failed. -/
theorem trace_of_error {e : Expr} {diagnostic : Diagnostic} (h : e.derivative = .error diagnostic) :
    ∃ node : Unimplemented, diagnostic.cause = .unimplemented node ∧
      e.trace.map some =
        (e.postOrder.filter fun p => Path.LeftOf p.path node.path).map (·.node.rule?) := by
  obtain ⟨path, hfirst, rfl⟩ := exists_firstLog?_of_error h
  refine ⟨⟨.function .ln, path⟩, rfl, ?_⟩
  rw [trace_eq_finished, map_some_settled_finished, hfirst, postOrder_eq_positions]
  rfl

end Expr

/-- A call that differentiates an expression. The collector reaches it through a
number of loans. -/
structure Call where
  expr : Expr
  loans : Nat

namespace Call

variable [Collector σ]

/-- Run a call on a collector, which is back with its owner afterwards. -/
def run (call : Call) (collector : σ) : Except Diagnostic Derivative × σ :=
  let (result, progress) :=
    call.expr.derivativeWithSteps (LentThrough.lend collector call.loans)
  (result, LentThrough.takeBack call.loans progress.collector)

/-- Run calls on one collector, one after the other. -/
def runAll (collector : σ) : List Call → List (Except Diagnostic Derivative) × σ
  | [] => ([], collector)
  | call :: rest =>
      let (result, collector) := call.run collector
      let (results, collector) := runAll collector rest
      (result :: results, collector)

theorem run_eq (call : Call) (collector : σ) :
    call.run collector =
      (call.expr.derivative, call.expr.trace.foldl Collector.push collector) := by
  refine Prod.ext ?_ ?_
  · exact call.expr.derivativeWithSteps_fst _
  · calc
      (call.run collector).2 =
          LentThrough.takeBack call.loans
            (call.expr.trace.foldl Collector.push (LentThrough.lend collector call.loans)) := by
        rw [← Expr.derivativeWithSteps_pushes_trace]
        rfl
      _ = call.expr.trace.foldl Collector.push collector := by
        rw [LentThrough.takeBack_foldl_push, LentThrough.takeBack_lend]

theorem runAll_eq (collector : σ) (calls : List Call) :
    runAll collector calls =
      (calls.map fun call => call.expr.derivative,
        (calls.flatMap fun call => call.expr.trace).foldl Collector.push collector) := by
  induction calls generalizing collector with
  | nil => rfl
  | cons call calls ih =>
      rw [runAll, run_eq]
      simp only [ih, List.map_cons, List.flatMap_cons, List.foldl_append]

/-- Calls that share an array append to it, in turn, what each expression alone leaves
in an empty one: the rules of all its nodes, or of those to the left of the node that
has no derivative. Every result is that of a call which collects nothing. It makes no
difference through how many loans the array reaches a single call, or all of them. -/
theorem runAll_appends_traces (calls : List Call) (steps : Array Step) :
    (runAll steps calls).1 = (calls.map fun call => call.expr.derivative) ∧
      (runAll steps calls).2.toList =
        steps.toList ++ (calls.flatMap fun call => call.expr.trace) ∧
      (∀ loans : Nat,
        (runAll (LentThrough.lend steps loans) calls).1 = (runAll steps calls).1 ∧
          LentThrough.takeBack loans (runAll (LentThrough.lend steps loans) calls).2 =
            (runAll steps calls).2) ∧
      ∀ call ∈ calls, ∀ diagnostic, call.expr.derivative = .error diagnostic →
        ∃ node : Unimplemented, diagnostic.cause = .unimplemented node ∧
          call.expr.trace.map some =
            (call.expr.postOrder.filter fun p => Path.LeftOf p.path node.path).map
              (·.node.rule?) := by
  refine ⟨?results, ?steps, ?loans, ?failures⟩
  case results => rw [runAll_eq]
  case steps =>
    rw [runAll_eq]
    exact (congrArg Array.toList List.foldl_push_eq_append').trans Array.toList_append
  case loans =>
    intro loans
    rw [runAll_eq, runAll_eq]
    refine ⟨rfl, ?_⟩
    rw [LentThrough.takeBack_foldl_push, LentThrough.takeBack_lend]
  case failures =>
    intro call _ diagnostic h
    exact Expr.trace_of_error h

example :
    (runAll #[Step.sum] [⟨.multiply .var (.apply .ln .var), 0⟩, ⟨.apply .sin .var, 2⟩]).2 =
      #[.sum, .var, .var, .sin] := by
  decide

end Call

end SymbolicCalculus
