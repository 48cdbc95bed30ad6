import SymbolicCalculus.Proofs.Expr.Positions

/-! # Counting nodes

Nodes are counted at their positions, so equal subtrees in different places count
separately. What is counted in an expression is counted in its children and at its
root.
-/

namespace SymbolicCalculus.Expr

open Classical in
/-- The number of nodes such that `P` holds of the path to the node and of the node. -/
noncomputable def count (P : Path → Expr → Prop) (e : Expr) : Nat :=
  e.positions.countP fun p => P p.path p.node

variable {P : Path → Expr → Prop} {e : Expr}

/-- To count nodes is to count the paths to them. -/
theorem encard_eq_count (P : Path → Expr → Prop) (e : Expr) :
    {path | ∃ node, e.get? path = some node ∧ P path node}.encard = e.count P := by
  classical
  have hpaths : {path | ∃ node, e.get? path = some node ∧ P path node} =
      (((e.positions.filter fun p => P p.path p.node).map Position.path).toFinset : Set Path) := by
    ext path
    simp only [Set.mem_ofPred_eq, List.coe_toFinset, List.mem_map, List.mem_filter,
      decide_eq_true_eq]
    constructor
    · rintro ⟨node, hnode, hP⟩
      refine ⟨⟨path.reverse, node⟩, ⟨?_, ?_⟩, List.reverse_reverse path⟩
      · rw [mem_positions]
        simpa [Position.path] using hnode
      · simpa [Position.path] using hP
    · rintro ⟨p, ⟨hp, hP⟩, rfl⟩
      exact ⟨p.node, mem_positions.mp hp, hP⟩
  have hnodup : ((e.positions.filter fun p => P p.path p.node).map Position.path).Nodup :=
    e.nodup_map_path_positions.sublist (List.filter_sublist.map _)
  rw [hpaths, Set.encard_coe_eq_coe_finsetCard, List.toFinset_card_of_nodup hnodup,
    List.length_map, ← List.countP_eq_length_filter]
  rfl

theorem count_eq_zero_iff :
    e.count P = 0 ↔ ∀ path node, e.get? path = some node → ¬ P path node := by
  rw [← Nat.cast_eq_zero (R := ℕ∞), ← encard_eq_count, Set.encard_eq_zero,
    Set.eq_empty_iff_forall_notMem]
  simp only [Set.mem_ofPred_eq, not_exists, not_and]

section Children

variable {f g : Expr} {function : NamedFunction} {operator : Operator} {value : Binary64}

open Classical

theorem count_root (e : Expr) :
    ([Position.mk [] e].countP fun p => decide (P p.path p.node)) = if P [] e then 1 else 0 := by
  rw [List.countP_singleton]
  exact if_congr decide_eq_true_iff rfl rfl

/-- Below one child the path goes through its index. -/
theorem count_below (positions : List Position) (index : Nat) :
    ((positions.map (·.below [index])).countP fun p => decide (P p.path p.node)) =
      positions.countP fun p => decide (P (index :: p.path) p.node) := by
  rw [List.countP_map]
  simp only [Function.comp_def, Position.path_below_singleton, Position.node_below]

theorem count_constant : (constant value).count P = if P [] (constant value) then 1 else 0 :=
  count_root _

theorem count_var : var.count P = if P [] var then 1 else 0 :=
  count_root _

theorem count_negate :
    (negate f).count P =
      f.count (fun path => P (0 :: path)) + if P [] (negate f) then 1 else 0 := by
  rw [count, positions, List.countP_append, count_below, count_root]
  rfl

theorem count_apply :
    (apply function f).count P =
      f.count (fun path => P (0 :: path)) + if P [] (apply function f) then 1 else 0 := by
  rw [count, positions, List.countP_append, count_below, count_root]
  rfl

theorem count_binary :
    (binary operator f g).count P =
      f.count (fun path => P (0 :: path)) + g.count (fun path => P (1 :: path)) +
        if P [] (binary operator f g) then 1 else 0 := by
  rw [count, positions, List.countP_append, List.countP_append, count_below, count_below,
    count_root]
  rfl

end Children

end SymbolicCalculus.Expr
