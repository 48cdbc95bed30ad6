import SymbolicCalculus.Proofs.Derivative.Outcome
import SymbolicCalculus.Proofs.Expr.Traversal

/-! # Step traces

The steps that a run collects are the rules of the nodes that it finishes. Which
rule settles a node follows from the operands in which `x` occurs, without any
derivative. The nodes that a run finishes are, in the order of a traversal, all
nodes, or those to the left of the logarithm that stops it.
-/

namespace SymbolicCalculus

/-- The rule for an operator, by whether `x` occurs in the left and in the right
operand. -/
def Operator.rule : Operator → Bool → Bool → Step
  | _, false, false => .zeroDerivative
  | add, true, true => .sum
  | add, false, true => .sumConstantLeft
  | add, true, false => .sumConstantRight
  | subtract, true, true => .difference
  | subtract, false, true => .differenceConstantLeft
  | subtract, true, false => .differenceConstantRight
  | multiply, true, true => .product
  | multiply, false, true => .constantFactorLeft
  | multiply, true, false => .constantFactorRight
  | divide, true, true => .quotient
  | divide, false, true => .reciprocal
  | divide, true, false => .constantDivisor
  | power, true, false => .powerRule
  | power, _, true => .generalPower

/-- The rule for a function of an argument in which `x` occurs, by whether the
argument is `x` itself. There is none for the logarithm. -/
def NamedFunction.rule? : NamedFunction → Bool → Option Step
  | sin, true => some .sin
  | sin, false => some .sinChain
  | cos, true => some .cos
  | cos, false => some .cosChain
  | tan, _ => some .tan
  | exp, true => some .exp
  | exp, false => some .expChain
  | sqrt, _ => some .sqrt
  | ln, _ => none

namespace Rules

theorem fst_negate (df : Derivative) :
    (negate df).1 = if df.isZero then .zeroDerivative else .negate := by
  cases df <;> rfl

theorem fst_operator (o : Operator) (f g : Expr) (df dg : Derivative) :
    (operator o f g df dg).1 = o.rule (!df.isZero) (!dg.isZero) := by
  cases o <;> cases df <;> cases dg <;> rfl

theorem fst_function {function : NamedFunction} {chain : Expr → Expr → Step × Expr}
    (hchain : chain? function = some chain) (f : Expr) (df : Derivative) :
    (function.rule? f.isVariable).map (fun step => if df.isZero then .zeroDerivative else step) =
      some (Rules.function chain f df).1 := by
  cases function <;> cases hchain <;> cases df <;> cases hbare : f.isVariable <;>
    simp [Rules.function, NamedFunction.rule?, Derivative.isZero, hbare]

end Rules

namespace Expr

variable {e f g node : Expr}

/-- The rule that settles a node. A logarithm has none. -/
def rule? : Expr → Option Step
  | constant _ => some .constant
  | var => some .var
  | negate f => some (if f.HasVariable then .negate else .zeroDerivative)
  | apply function f =>
      (function.rule? f.isVariable).map fun step =>
        if f.HasVariable then step else .zeroDerivative
  | binary operator f g => some (operator.rule f.HasVariable g.HasVariable)

section Rule

theorem isZero_derived (hlog : ¬ e.HasLog) : e.derived.isZero = !decide e.HasVariable := by
  have hzero := derived_eq_zero_iff hlog
  cases hderived : e.derived with
  | zero => simp_all [Derivative.isZero]
  | expr r => simp_all [Derivative.isZero]

/-- A run settles a node without a logarithm by the rule that the operands
determine. -/
theorem rule?_eq_settled (hlog : ¬ e.HasLog) : e.rule? = some e.settled.1 := by
  induction e, hlog using induction_of_not_hasLog with
  | constant value => rfl
  | var => rfl
  | negate f hf =>
      have hzero := isZero_derived hf
      rw [rule?, settled, Rules.fst_negate]
      rw [derived] at hzero
      simp [hzero]
  | apply function chain f hf _ hchain =>
      have hzero := isZero_derived hf
      rw [rule?, settled, hchain, ← Rules.fst_function hchain]
      rw [derived] at hzero
      simp [hzero]
  | binary operator f g hf hg =>
      have hleft := isZero_derived hf
      have hright := isZero_derived hg
      rw [derived] at hleft hright
      rw [rule?, settled, Rules.fst_operator, hleft, hright]
      simp

theorem not_hasLog_of_mem_finished (h : node ∈ e.finished) : ¬ node.HasLog := by
  induction e with
  | constant value =>
      obtain rfl := List.mem_singleton.mp h
      simp [Mentions]
  | var =>
      obtain rfl := List.mem_singleton.mp h
      simp [Mentions]
  | negate f ih =>
      simp only [finished, List.mem_append, List.mem_ite_nil_left, List.mem_singleton] at h
      rcases h with h | ⟨hlog, rfl⟩
      · exact ih h
      · simpa [Mentions] using hlog
  | apply function f ih =>
      by_cases hfunction : function = .ln
      · subst hfunction
        cases h
      · simp only [finished_apply hfunction, List.mem_append, List.mem_ite_nil_left,
          List.mem_singleton] at h
        rcases h with h | ⟨hlog, rfl⟩
        · exact ih h
        · simp [Mentions, Ne.symm hfunction, hlog]
  | binary operator f g ihf ihg =>
      simp only [finished, List.mem_append, List.mem_ite_nil_left, List.mem_singleton] at h
      rcases h with h | ⟨hleft, h | ⟨hright, rfl⟩⟩
      · exact ihf h
      · exact ihg h
      · simp [Mentions, hleft, hright]

end Rule

end Expr

namespace Position

/-- Whether a position is to the left of a path, if there is one. -/
def isLeftOf (limit : Option Path) (p : Position) : Bool :=
  limit.all fun path => decide (Path.LeftOf p.path path)

theorem isLeftOf_below (limit : Option Path) (index : Nat) (p : Position) :
    (p.below [index]).isLeftOf (limit.map (index :: ·)) = p.isLeftOf limit := by
  cases limit <;> simp [isLeftOf]

theorem isLeftOf_left (limit : Option Path) (p : Position) :
    (p.below [0]).isLeftOf (limit.map (1 :: ·)) = true := by
  cases limit <;> simp [isLeftOf]

theorem not_isLeftOf_right (path : Path) (p : Position) :
    (p.below [1]).isLeftOf (some (0 :: path)) = false := by
  simp [isLeftOf]

theorem not_isLeftOf_nil (p : Position) : p.isLeftOf (some []) = false := by
  simp [isLeftOf]

theorem isLeftOf_root (limit : Option Path) (e : Expr) :
    (Position.mk [] e).isLeftOf limit = !limit.isSome := by
  cases limit <;> simp [isLeftOf]

end Position

namespace Expr

variable {e : Expr} {path : Path}

section Finished

/-- Below a child the limit is the one that is left below the child. -/
theorem filter_isLeftOf_below (positions : List Position) (limit : Option Path) (index : Nat) :
    (((positions.map (·.below [index])).filter (Position.isLeftOf (limit.map (index :: ·)))).map
        Position.node) =
      (positions.filter (Position.isLeftOf limit)).map Position.node := by
  rw [List.filter_map, List.map_map]
  congr 1
  apply List.filter_congr
  intro p _
  exact p.isLeftOf_below limit index

theorem filter_isLeftOf_root (e : Expr) (limit : Option Path) :
    ([Position.mk [] e].filter (Position.isLeftOf limit)).map Position.node =
      if limit.isSome then [] else [e] := by
  rw [List.filter_singleton, Position.isLeftOf_root]
  cases limit <;> rfl

theorem filter_isLeftOf_none (positions : List Position) :
    positions.filter (Position.isLeftOf none) = positions :=
  List.filter_eq_self.mpr fun _ _ => rfl

theorem filter_isLeftOf_nil (positions : List Position) :
    positions.filter (Position.isLeftOf (some [])) = [] := by
  rw [List.filter_eq_nil_iff]
  intro p _
  simp [Position.not_isLeftOf_nil]

/-- All of the left operand is to the left of a path in the right one. -/
theorem filter_isLeftOf_left (positions : List Position) (limit : Option Path) :
    (positions.map (·.below [0])).filter (Position.isLeftOf (limit.map (1 :: ·))) =
      positions.map (·.below [0]) := by
  rw [List.filter_eq_self]
  intro p hp
  obtain ⟨q, -, rfl⟩ := List.mem_map.mp hp
  exact q.isLeftOf_left limit

/-- Nothing in the right operand is to the left of a path in the left one. -/
theorem filter_isLeftOf_right (positions : List Position) (path : Path) :
    (positions.map (·.below [1])).filter (Position.isLeftOf (some (0 :: path))) = [] := by
  rw [List.filter_eq_nil_iff]
  intro p hp
  obtain ⟨q, -, rfl⟩ := List.mem_map.mp hp
  simp [Position.not_isLeftOf_right]

theorem map_node_below (positions : List Position) (trail : List Nat) :
    (positions.map (·.below trail)).map Position.node = positions.map Position.node := by
  rw [List.map_map]
  rfl

theorem isSome_firstLog? (e : Expr) : e.firstLog?.isSome = decide e.HasLog := by
  rw [Bool.eq_iff_iff, decide_eq_true_iff, hasLog_iff_firstLog?, Option.isSome_iff_exists]

/-- A run finishes the nodes to the left of the first logarithm, in the order of a
traversal. -/
theorem finished_eq_filter (e : Expr) :
    e.finished = (e.positions.filter (Position.isLeftOf e.firstLog?)).map Position.node := by
  induction e with
  | constant value => rfl
  | var => rfl
  | negate f ih =>
      simp only [finished, positions, firstLog?, List.filter_append, List.map_append,
        filter_isLeftOf_below, filter_isLeftOf_root, Option.isSome_map, isSome_firstLog?, ih,
        decide_eq_true_eq]
  | apply function f ih =>
      by_cases hfunction : function = .ln
      · -- Nothing is to the left of a logarithm at the root.
        subst hfunction
        simp only [finished, firstLog?, filter_isLeftOf_nil, List.map_nil]
      · simp only [finished_apply hfunction, positions, firstLog?_apply hfunction,
          List.filter_append, List.map_append, filter_isLeftOf_below, filter_isLeftOf_root,
          Option.isSome_map, isSome_firstLog?, ih, decide_eq_true_eq]
  | binary operator f g ihf ihg =>
      simp only [finished, positions, firstLog?, List.filter_append, List.map_append,
        filter_isLeftOf_root, ihf, ihg]
      cases hleft : f.firstLog? with
      | some path =>
          have hlog := hasLog_iff_firstLog?.mpr ⟨path, hleft⟩
          have hbelow := filter_isLeftOf_below f.positions (some path) 0
          rw [Option.map_some] at hbelow
          simp only [hlog, if_true, Option.map_some, Option.some_or, Option.isSome_some, hbelow,
            filter_isLeftOf_right, List.map_nil, List.append_nil]
      | none =>
          have hlog := firstLog?_eq_none_iff.mp hleft
          simp only [hlog, if_false, Option.map_none, Option.none_or, filter_isLeftOf_below,
            filter_isLeftOf_none, filter_isLeftOf_left, map_node_below, Option.isSome_map,
            isSome_firstLog?, decide_eq_true_eq, List.append_assoc]

end Finished

section Collected

theorem collector_derivativeWithSteps (e : Expr) (steps : Array Step) :
    (e.derivativeWithSteps steps).2.collector.toList =
      steps.toList ++ e.finished.map fun node => node.settled.1 := by
  rw [derivativeWithSteps_collector]
  exact (congrArg Array.toList List.foldl_push_eq_append').trans Array.toList_append

/-- The collected steps are the rules of the finished nodes, each of which has
one. -/
theorem map_some_settled_finished (e : Expr) :
    (e.finished.map fun node => node.settled.1).map some =
      (e.positions.filter (Position.isLeftOf e.firstLog?)).map fun p => p.node.rule? := by
  calc
    (e.finished.map fun node => node.settled.1).map some = e.finished.map rule? := by
      rw [List.map_map]
      apply List.map_congr_left
      intro node hnode
      exact (rule?_eq_settled (not_hasLog_of_mem_finished hnode)).symm
    _ = (e.positions.filter (Position.isLeftOf e.firstLog?)).map fun p => p.node.rule? := by
      rw [finished_eq_filter, List.map_map]
      rfl

/-- A call appends one step for each finished node, in the order of a traversal:
the rule of the node. All nodes are finished if there is a derivative; else those
to the left of the node that has none, and so neither what is below that node nor
what it is below. -/
theorem derivativeWithSteps_appends_rules (e : Expr) (steps : Array Step) :
    ∃ trace : List Step,
      (e.derivativeWithSteps steps).2.collector.toList = steps.toList ++ trace ∧
        (∀ derivative, (e.derivativeWithSteps steps).1 = .ok derivative →
          trace.length = e.complexity ∧ trace.map some = e.postOrder.map (·.node.rule?)) ∧
        ∀ diagnostic, (e.derivativeWithSteps steps).1 = .error diagnostic →
          ∃ node : Unimplemented, diagnostic.cause = .unimplemented node ∧
            trace.map some =
              (e.postOrder.filter fun p => Path.LeftOf p.path node.path).map (·.node.rule?) ∧
            ∀ p ∈ e.postOrder, Path.LeftOf p.path node.path →
              ¬ p.path <+: node.path ∧ ¬ node.path <+: p.path := by
  have htrace := e.map_some_settled_finished
  refine ⟨_, collector_derivativeWithSteps e steps, ?_, ?_⟩
  · intro derivative hresult
    cases hfirst : e.firstLog? with
    | some path =>
        rw [derivativeWithSteps_of_firstLog? hfirst] at hresult
        cases hresult
    | none =>
        rw [hfirst, filter_isLeftOf_none] at htrace
        have hlength := congrArg List.length htrace
        simp only [List.length_map, length_positions] at hlength
        rw [List.length_map, hlength, complexity_eq_size, postOrder_eq_positions]
        exact ⟨rfl, htrace⟩
  · intro diagnostic hresult
    cases hfirst : e.firstLog? with
    | none =>
        rw [derivativeWithSteps_of_not_hasLog (firstLog?_eq_none_iff.mp hfirst)] at hresult
        cases hresult
    | some path =>
        rw [derivativeWithSteps_of_firstLog? hfirst] at hresult
        cases hresult
        rw [hfirst] at htrace
        refine ⟨⟨.function .ln, path⟩, rfl, ?_, ?_⟩
        · rw [htrace, postOrder_eq_positions]
          rfl
        · intro p _ hleft
          exact ⟨hleft.2, hleft.not_isPrefix⟩

/-- The sine is finished before the logarithm beside it is met. -/
theorem derivativeWithSteps_appends_rules_product :
    ∃ diagnostic,
      ((multiply (apply .sin var) (apply .ln var)).derivativeWithSteps #[Step.constant]).1 =
          .error diagnostic ∧
        ((multiply (apply .sin var) (apply .ln var)).derivativeWithSteps
            #[Step.constant]).2.collector.toList =
          [.constant, .var, .sin] := by
  obtain ⟨trace, hsteps, -, herror⟩ :=
    derivativeWithSteps_appends_rules (multiply (apply .sin var) (apply .ln var)) #[.constant]
  have hfirst : (multiply (apply .sin var) (apply .ln var)).firstLog? = some [1] := rfl
  have hresult := derivativeWithSteps_of_firstLog? hfirst #[Step.constant]
  obtain ⟨node, hnode, hrules, -⟩ := herror _ hresult
  obtain rfl : ⟨.function .ln, [1]⟩ = node := by simpa [diagnose] using hnode
  rw [postOrder_eq_positions] at hrules
  have htrace : trace.map some = [Step.var, Step.sin].map some := by
    rw [hrules]
    decide
  have heq : trace = [.var, .sin] := List.map_injective_iff.mpr (Option.some_injective _) htrace
  exact ⟨_, hresult, by rw [hsteps, heq]; rfl⟩

end Collected

end Expr

end SymbolicCalculus
