import SymbolicCalculus.Derivative.Differentiate
import SymbolicCalculus.Proofs.Expr.Nodes

/-! # Outcomes of differentiation

A run of the rules is described without the run: by the first logarithm in its
way, by the nodes that it finishes before that, and by the rule and the
derivative of each finished node. None of these depends on the collector.
-/

namespace SymbolicCalculus

namespace Rules

theorem chain?_eq_none_iff {function : NamedFunction} :
    chain? function = none ↔ function = .ln := by
  cases function <;> simp [chain?]

theorem exists_chain {function : NamedFunction} (hfunction : function ≠ .ln) :
    ∃ chain, chain? function = some chain :=
  Option.ne_none_iff_exists'.mp (mt chain?_eq_none_iff.mp hfunction)

theorem ne_ln_of_chain {function : NamedFunction} {chain : Expr → Expr → Step × Expr}
    (hchain : chain? function = some chain) : function ≠ .ln := by
  rintro rfl
  cases hchain

theorem negate_eq_zero_iff {df : Derivative} : (negate df).2 = .zero ↔ df = .zero := by
  cases df <;> simp [negate]

theorem function_eq_zero_iff {chain : Expr → Expr → Step × Expr} {f : Expr} {df : Derivative} :
    (function chain f df).2 = .zero ↔ df = .zero := by
  cases df <;> simp [function]

theorem operator_eq_zero_iff {o : Operator} {f g : Expr} {df dg : Derivative} :
    (operator o f g df dg).2 = .zero ↔ df = .zero ∧ dg = .zero := by
  cases o <;> cases df <;> cases dg <;>
    simp [operator, sum, difference, product, quotient, power]

end Rules

namespace Expr

/-- Every node of an expression without a logarithm has a rule. -/
theorem induction_of_not_hasLog {motive : (e : Expr) → ¬ e.HasLog → Prop}
    (constant : ∀ value hlog, motive (constant value) hlog)
    (var : ∀ hlog, motive var hlog)
    (negate : ∀ f hf hlog, motive f hf → motive (negate f) hlog)
    (apply : ∀ function chain f hf hlog, Rules.chain? function = some chain → motive f hf →
      motive (apply function f) hlog)
    (binary : ∀ operator f g hf hg hlog, motive f hf → motive g hg →
      motive (binary operator f g) hlog)
    (e : Expr) (hlog : ¬ e.HasLog) : motive e hlog := by
  induction e with
  | constant value => exact constant value hlog
  | var => exact var hlog
  | negate f ih =>
      have hf : ¬ f.HasLog := by simpa [Mentions] using hlog
      exact negate f hf hlog (ih hf)
  | apply function f ih =>
      obtain ⟨hfunction, hf⟩ : function ≠ .ln ∧ ¬ f.HasLog := by
        simpa [Mentions, @eq_comm _ NamedFunction.ln] using hlog
      obtain ⟨chain, hchain⟩ := Rules.exists_chain hfunction
      exact apply function chain f hf hlog hchain (ih hf)
  | binary operator f g ihf ihg =>
      obtain ⟨hf, hg⟩ : ¬ f.HasLog ∧ ¬ g.HasLog := by simpa [Mentions] using hlog
      exact binary operator f g hf hg hlog (ihf hf) (ihg hg)

/-- The path to the logarithm that a run meets first. Operands are visited from
left to right, and a logarithm before its argument. -/
def firstLog? : Expr → Option Path
  | constant _ => none
  | var => none
  | negate f => f.firstLog?.map (0 :: ·)
  | apply .ln _ => some []
  | apply _ f => f.firstLog?.map (0 :: ·)
  | binary _ f g => (f.firstLog?.map (0 :: ·)).or (g.firstLog?.map (1 :: ·))

theorem firstLog?_apply {function : NamedFunction} (hfunction : function ≠ .ln) (f : Expr) :
    (apply function f).firstLog? = f.firstLog?.map (0 :: ·) := by
  cases function <;> first | rfl | exact absurd rfl hfunction

theorem firstLog?_eq_none_iff {e : Expr} : e.firstLog? = none ↔ ¬ e.HasLog := by
  induction e with
  | constant value => simp [firstLog?, Mentions]
  | var => simp [firstLog?, Mentions]
  | negate f ih => simp [firstLog?, Mentions, ih]
  | apply function f ih =>
      by_cases hfunction : function = .ln
      · subst hfunction
        simp [firstLog?, Mentions]
      · simp [firstLog?_apply hfunction, Mentions, ih, Ne.symm hfunction]
  | binary operator f g ihf ihg => simp [firstLog?, Mentions, ihf, ihg]

theorem hasLog_iff_firstLog? {e : Expr} : e.HasLog ↔ ∃ path, e.firstLog? = some path := by
  rw [← Option.ne_none_iff_exists', ne_eq, firstLog?_eq_none_iff, Decidable.not_not]

/-- The rule that settles a node and the derivative that it gives. A logarithm
has no rule; what stands for it here is never the outcome of a run. -/
def settled : Expr → Step × Derivative
  | constant _ => (.constant, .zero)
  | var => (.var, .expr one)
  | negate f => Rules.negate f.settled.2
  | apply function f =>
      match Rules.chain? function with
      | none => (.zeroDerivative, .zero)
      | some chain => Rules.function chain f f.settled.2
  | binary operator f g => Rules.operator operator f g f.settled.2 g.settled.2

def derived (e : Expr) : Derivative := e.settled.2

theorem derived_constant (value : Binary64) : (constant value).derived = .zero := rfl

theorem derived_var : var.derived = .expr one := rfl

theorem derived_negate (f : Expr) : (negate f).derived = (Rules.negate f.derived).2 := rfl

theorem derived_binary (operator : Operator) (f g : Expr) :
    (binary operator f g).derived =
      (Rules.operator operator f g f.derived g.derived).2 := rfl

theorem derived_apply {function : NamedFunction} {chain : Expr → Expr → Step × Expr}
    (hchain : Rules.chain? function = some chain) (f : Expr) :
    (apply function f).derived = (Rules.function chain f f.derived).2 := by
  simp only [derived, settled, hchain]

/-- Without a logarithm the derivative is zero exactly where no variable occurs. -/
theorem derived_eq_zero_iff {e : Expr} (hlog : ¬ e.HasLog) :
    e.derived = .zero ↔ ¬ e.HasVariable := by
  induction e, hlog using induction_of_not_hasLog with
  | constant value => simp [derived_constant, Mentions]
  | var => simp [derived_var, Mentions]
  | negate f _ _ ih =>
      rw [derived_negate, Rules.negate_eq_zero_iff, ih]
      simp [Mentions]
  | apply function chain f _ _ hchain ih =>
      rw [derived_apply hchain, Rules.function_eq_zero_iff, ih]
      simp [Mentions]
  | binary operator f g _ _ _ ihf ihg =>
      rw [derived_binary, Rules.operator_eq_zero_iff, ihf, ihg]
      simp [Mentions]

/-- The nodes that a run finishes, in the order in which it finishes them. -/
def finished : Expr → List Expr
  | constant value => [constant value]
  | var => [var]
  | negate f => f.finished ++ if f.HasLog then [] else [negate f]
  | apply .ln _ => []
  | apply function f => f.finished ++ if f.HasLog then [] else [apply function f]
  | binary operator f g =>
      f.finished ++ if f.HasLog then [] else
        g.finished ++ if g.HasLog then [] else [binary operator f g]

theorem finished_apply {function : NamedFunction} (hfunction : function ≠ .ln) (f : Expr) :
    (apply function f).finished =
      f.finished ++ if f.HasLog then [] else [apply function f] := by
  cases function <;> first | rfl | exact absurd rfl hfunction

/-- How a run ends: at the first logarithm, or with a derivative. -/
def outcome (e : Expr) : Except Unimplemented Derivative :=
  match e.firstLog? with
  | some path => .error ⟨.function .ln, path⟩
  | none => .ok e.derived

end Expr

namespace Progress

variable {σ : Type} [Collector σ]

def settle (progress : Progress σ) (node : Expr) : Progress σ where
  collector := Collector.push progress.collector node.settled.1
  log := progress.log.push (.finished node.settled.1 node node.derived)

/-- What finished nodes leave behind, one after the other. -/
def settleAll (progress : Progress σ) (nodes : List Expr) : Progress σ :=
  nodes.foldl settle progress

@[simp] theorem settleAll_nil (progress : Progress σ) : progress.settleAll [] = progress := rfl

@[simp] theorem settleAll_append (progress : Progress σ) (first second : List Expr) :
    progress.settleAll (first ++ second) = (progress.settleAll first).settleAll second :=
  List.foldl_append

@[simp] theorem settleAll_singleton (progress : Progress σ) (node : Expr) :
    progress.settleAll [node] = progress.settle node := rfl

theorem collector_settleAll (progress : Progress σ) (nodes : List Expr) :
    (progress.settleAll nodes).collector =
      (nodes.map fun node => node.settled.1).foldl Collector.push progress.collector := by
  induction nodes generalizing progress with
  | nil => rfl
  | cons node nodes ih => exact ih (progress.settle node)

end Progress

namespace Differentiation

variable {σ α β : Type}

theorem run_bind (first : Differentiation σ α) (next : α → Differentiation σ β)
    (progress : Progress σ) :
    (first >>= next).run.run progress =
      match first.run.run progress with
      | (.ok value, progress) => (next value).run.run progress
      | (.error node, progress) => (.error node, progress) := by
  rw [ExceptT.run_bind, StateT.run_bind]
  cases first.run.run progress with
  | mk result progress => cases result <;> rfl

theorem run_within (index : Nat) (child : Differentiation σ α) (progress : Progress σ) :
    (within index child).run.run progress =
      match child.run.run progress with
      | (.ok value, progress) => (.ok value, progress)
      | (.error node, progress) => (.error { node with path := index :: node.path }, progress) := by
  rw [within, ExceptT.run_adapt, StateT.run_map]
  cases child.run.run progress with
  | mk result progress => cases result <;> rfl

theorem run_finish [Collector σ] (node : Expr) (progress : Progress σ) :
    (finish node node.settled).run.run progress = (.ok node.derived, progress.settle node) := rfl

end Differentiation

namespace Expr

open Differentiation

variable {σ : Type} [Collector σ]

/-- All that a run does: it finishes nodes up to the first logarithm, and it
ends there or with the derivative. -/
theorem run_differentiate (e : Expr) (progress : Progress σ) :
    e.differentiate.run.run progress = (e.outcome, progress.settleAll e.finished) := by
  induction e generalizing progress with
  | constant value => rfl
  | var => rfl
  | negate f ih =>
      rw [differentiate, run_bind, run_within, ih]
      cases hfirst : f.firstLog? with
      | none =>
          have hlog := firstLog?_eq_none_iff.mp hfirst
          simp only [outcome, firstLog?, finished, hfirst, hlog, Option.map_none,
            if_false, Progress.settleAll_append, Progress.settleAll_singleton]
          exact run_finish (negate f) _
      | some path =>
          have hlog := hasLog_iff_firstLog?.mpr ⟨path, hfirst⟩
          simp only [outcome, firstLog?, finished, hfirst, hlog, Option.map_some,
            if_true, List.append_nil]
  | apply function f ih =>
      rw [differentiate]
      cases hchain : Rules.chain? function with
      | none =>
          -- A logarithm fails before its argument is visited.
          obtain rfl := Rules.chain?_eq_none_iff.mp hchain
          rfl
      | some chain =>
          have hfunction := Rules.ne_ln_of_chain hchain
          simp only
          rw [run_bind, run_within, ih]
          cases hfirst : f.firstLog? with
          | none =>
              have hlog := firstLog?_eq_none_iff.mp hfirst
              simp only [outcome, firstLog?_apply hfunction, finished_apply hfunction, hfirst, hlog,
                Option.map_none, if_false, Progress.settleAll_append, Progress.settleAll_singleton]
              rw [← run_finish, settled, hchain]
              rfl
          | some path =>
              have hlog := hasLog_iff_firstLog?.mpr ⟨path, hfirst⟩
              simp only [outcome, firstLog?_apply hfunction, finished_apply hfunction, hfirst, hlog,
                Option.map_some, if_true, List.append_nil]
  | binary operator f g ihf ihg =>
      rw [differentiate, run_bind, run_within, ihf]
      cases hleft : f.firstLog? with
      | some path =>
          -- The right operand is not visited, so it does not matter what it holds.
          have hlog := hasLog_iff_firstLog?.mpr ⟨path, hleft⟩
          simp only [outcome, firstLog?, finished, hleft, hlog, Option.map_some, Option.some_or,
            if_true, List.append_nil]
      | none =>
          have hlog := firstLog?_eq_none_iff.mp hleft
          simp only [outcome, hleft]
          rw [run_bind, run_within, ihg]
          cases hright : g.firstLog? with
          | none =>
              have hlog' := firstLog?_eq_none_iff.mp hright
              simp only [outcome, firstLog?, finished, hleft, hright, hlog, hlog', Option.map_none,
                Option.none_or, if_false, Progress.settleAll_append, Progress.settleAll_singleton]
              exact run_finish (binary operator f g) _
          | some path =>
              have hlog' := hasLog_iff_firstLog?.mpr ⟨path, hright⟩
              simp only [outcome, firstLog?, finished, hleft, hright, hlog, hlog', Option.map_none,
                Option.map_some, Option.none_or, if_false, if_true, List.append_nil,
                Progress.settleAll_append]

theorem derivativeWithSteps_of_firstLog? {e : Expr} {path : Path} (hfirst : e.firstLog? = some path)
    (collector : σ) :
    (e.derivativeWithSteps collector).1 = .error (e.diagnose ⟨.function .ln, path⟩) := by
  rw [derivativeWithSteps, run_differentiate, outcome, hfirst]

theorem derivativeWithSteps_of_not_hasLog {e : Expr} (hlog : ¬ e.HasLog) (collector : σ) :
    (e.derivativeWithSteps collector).1 = .ok e.derived := by
  rw [derivativeWithSteps, run_differentiate, outcome, firstLog?_eq_none_iff.mpr hlog]

theorem exists_firstLog?_of_error {e : Expr} {collector : σ} {diagnostic : Diagnostic}
    (h : (e.derivativeWithSteps collector).1 = .error diagnostic) :
    ∃ path, e.firstLog? = some path ∧ diagnostic = e.diagnose ⟨.function .ln, path⟩ := by
  cases hfirst : e.firstLog? with
  | none =>
      rw [derivativeWithSteps_of_not_hasLog (firstLog?_eq_none_iff.mp hfirst)] at h
      cases h
  | some path =>
      rw [derivativeWithSteps_of_firstLog? hfirst] at h
      cases h
      exact ⟨path, rfl, rfl⟩

/-- A collector receives the rules of the finished nodes, one after the other. -/
theorem derivativeWithSteps_collector (e : Expr) (collector : σ) :
    (e.derivativeWithSteps collector).2.collector =
      (e.finished.map fun node => node.settled.1).foldl Collector.push collector := by
  have hsettled := Progress.collector_settleAll { collector } e.finished
  rw [derivativeWithSteps, run_differentiate]
  cases e.outcome <;> exact hsettled

theorem derivative_of_not_hasLog {e : Expr} (hlog : ¬ e.HasLog) : e.derivative = .ok e.derived :=
  derivativeWithSteps_of_not_hasLog hlog ()

/-- No result depends on the collector. -/
theorem derivativeWithSteps_fst (e : Expr) (collector : σ) :
    (e.derivativeWithSteps collector).1 = e.derivative := by
  -- The two runs have different collectors, so neither unfolds to the other.
  cases hfirst : e.firstLog? with
  | none =>
      have hlog := firstLog?_eq_none_iff.mp hfirst
      rw [derivative_of_not_hasLog hlog]
      exact derivativeWithSteps_of_not_hasLog hlog collector
  | some path =>
      rw [derivativeWithSteps_of_firstLog? hfirst]
      exact (derivativeWithSteps_of_firstLog? hfirst ()).symm

/-- The result does not depend on whether steps are kept. -/
theorem derivativeAndSteps_fst (e : Expr) : e.derivativeAndSteps.1 = e.derivative :=
  e.derivativeWithSteps_fst #[]

theorem exists_derivative_eq_error_iff {e : Expr} :
    (∃ diagnostic, e.derivative = .error diagnostic) ↔ e.HasLog := by
  constructor
  · rintro ⟨diagnostic, hresult⟩
    refine Decidable.byContradiction fun hlog => ?_
    rw [derivative_of_not_hasLog hlog] at hresult
    cases hresult
  · intro hlog
    obtain ⟨path, hfirst⟩ := hasLog_iff_firstLog?.mp hlog
    exact ⟨_, derivativeWithSteps_of_firstLog? hfirst ()⟩

/-- Differentiation succeeds exactly on the expressions without a logarithm. -/
theorem derivative_eq_ok_iff {e : Expr} {d : Derivative} :
    e.derivative = .ok d ↔ ¬ e.HasLog ∧ e.derived = d := by
  by_cases hlog : e.HasLog
  · obtain ⟨path, hfirst⟩ := hasLog_iff_firstLog?.mp hlog
    rw [derivative, derivativeWithSteps_of_firstLog? hfirst]
    simp [hlog]
  · rw [derivative_of_not_hasLog hlog]
    simp [hlog]

end Expr

end SymbolicCalculus
