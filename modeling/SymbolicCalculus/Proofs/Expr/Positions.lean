import Mathlib.Data.Set.Card
import SymbolicCalculus.Expr.PostOrder
import SymbolicCalculus.Proofs.Expr.Nodes

/-! # Positions in an expression

The positions of an expression are listed by recursion on the tree, those in
the children from left to right and the root last. The list is in the order in
which a traversal leaves nodes, and every path to a node leads to one position
in it.
-/

namespace SymbolicCalculus

namespace Path

variable {path other : Path} {index index' : Nat}

/-- Where the paths part, the first one turns off to the left of the other. -/
def LeftOf (path other : Path) : Prop := List.Lex (· < ·) path other ∧ ¬ path <+: other

instance (path other : Path) : Decidable (LeftOf path other) :=
  inferInstanceAs (Decidable (List.Lex (· < ·) path other ∧ ¬ path <+: other))

/-- The order in which a traversal leaves the nodes at the ends of paths: what is
below a node before the node, and else from left to right. -/
def Before (path other : Path) : Prop := (other <+: path ∧ path ≠ other) ∨ LeftOf path other

@[simp] theorem not_leftOf_nil : ¬ LeftOf path [] := fun h => nomatch h.1

@[simp] theorem not_nil_leftOf : ¬ LeftOf [] path := fun h => h.2 List.nil_prefix

@[simp] theorem leftOf_cons_cons :
    LeftOf (index :: path) (index' :: other) ↔
      index < index' ∨ index = index' ∧ LeftOf path other := by
  simp only [LeftOf, List.cons_lex_cons_iff, List.cons_prefix_cons]
  constructor
  · rintro ⟨hlt | ⟨rfl, hlex⟩, hextends⟩
    · exact .inl hlt
    · exact .inr ⟨rfl, hlex, fun h => hextends ⟨rfl, h⟩⟩
  · rintro (hlt | ⟨rfl, hlex, hextends⟩)
    · exact ⟨.inl hlt, fun h => absurd h.1 (Nat.ne_of_lt hlt)⟩
    · exact ⟨.inr ⟨rfl, hlex⟩, fun h => hextends h.2⟩

theorem LeftOf.not_isPrefix (h : LeftOf path other) : ¬ other <+: path := by
  induction other generalizing path with
  | nil => exact absurd h not_leftOf_nil
  | cons index' other ih =>
      cases path with
      | nil => simp
      | cons index path =>
          intro hextends
          obtain ⟨rfl, hrest⟩ := List.cons_prefix_cons.mp hextends
          rcases leftOf_cons_cons.mp h with hlt | ⟨-, hleft⟩
          · exact Nat.lt_irrefl _ hlt
          · exact ih hleft hrest

/-- Of two paths one extends the other, or one turns off to the left. -/
theorem isPrefix_or_leftOf (path other : Path) :
    path <+: other ∨ other <+: path ∨ LeftOf path other ∨ LeftOf other path := by
  induction path generalizing other with
  | nil => exact .inl List.nil_prefix
  | cons index path ih =>
      cases other with
      | nil => exact .inr (.inl List.nil_prefix)
      | cons index' other =>
          simp only [List.cons_prefix_cons, leftOf_cons_cons]
          rcases Nat.lt_trichotomy index index' with hlt | rfl | hlt
          · exact .inr (.inr (.inl (.inl hlt)))
          · simpa using ih other
          · exact .inr (.inr (.inr (.inl hlt)))

/-- Where paths part, they have a common front and go on at different children. -/
theorem LeftOf.exists_fork (h : LeftOf path other) :
    ∃ front index rest index' rest',
      path = front ++ index :: rest ∧ other = front ++ index' :: rest' ∧ index < index' := by
  induction path generalizing other with
  | nil => exact absurd h not_nil_leftOf
  | cons index path ih =>
      cases other with
      | nil => exact absurd h not_leftOf_nil
      | cons index' other =>
          rcases leftOf_cons_cons.mp h with hlt | ⟨rfl, hleft⟩
          · exact ⟨[], index, path, index', other, rfl, rfl, hlt⟩
          · obtain ⟨front, at', rest, at'', rest', rfl, rfl, hlt⟩ := ih hleft
            exact ⟨index :: front, at', rest, at'', rest', rfl, rfl, hlt⟩

theorem Before.ne (h : Before path other) : path ≠ other := by
  rcases h with ⟨-, hne⟩ | hleft
  · exact hne
  · rintro rfl
    exact hleft.2 List.prefix_rfl

theorem before_nil (h : path ≠ []) : Before path [] := by
  refine .inl ⟨?_, h⟩
  exact List.nil_prefix

theorem before_of_lt (h : index < index') : Before (index :: path) (index' :: other) :=
  .inr (leftOf_cons_cons.mpr (.inl h))

theorem Before.cons (h : Before path other) (index : Nat) :
    Before (index :: path) (index :: other) := by
  rcases h with ⟨hextends, hne⟩ | hleft
  · exact .inl ⟨List.cons_prefix_cons.mpr ⟨rfl, hextends⟩, fun heq => hne (List.cons.inj heq).2⟩
  · exact .inr (leftOf_cons_cons.mpr (.inr ⟨rfl, hleft⟩))

end Path

namespace Position

/-- The position that a position becomes when the tree hangs at the end of a trail. -/
def below (p : Position) (trail : List Nat) : Position := ⟨p.trail ++ trail, p.node⟩

@[simp] theorem below_nil (p : Position) : p.below [] = p := by
  simp [below]

@[simp] theorem below_below (p : Position) (trail trail' : List Nat) :
    (p.below trail).below trail' = p.below (trail ++ trail') := by
  simp [below]

@[simp] theorem node_below (p : Position) (trail : List Nat) : (p.below trail).node = p.node := rfl

@[simp] theorem path_below_singleton (p : Position) (index : Nat) :
    (p.below [index]).path = index :: p.path := by
  simp [below, path]

@[simp] theorem path_root (e : Expr) : (Position.mk [] e).path = [] := rfl

theorem eq_root_of_path_eq_nil {p : Position} (h : p.path = []) : p = ⟨[], p.node⟩ := by
  cases p
  simpa [path] using h

theorem eq_below_of_path_eq_cons {p : Position} {index : Nat} {rest : Path}
    (h : p.path = index :: rest) : p = (Position.mk rest.reverse p.node).below [index] := by
  cases p
  simpa [path, below, List.reverse_eq_iff] using h

end Position

namespace Expr

/-- The positions in an expression, children from left to right before their
parent. -/
def positions : Expr → List Position
  | constant value => [⟨[], constant value⟩]
  | var => [⟨[], var⟩]
  | negate f => f.positions.map (·.below [0]) ++ [⟨[], negate f⟩]
  | apply function f => f.positions.map (·.below [0]) ++ [⟨[], apply function f⟩]
  | binary operator f g =>
      f.positions.map (·.below [0]) ++ g.positions.map (·.below [1]) ++
        [⟨[], binary operator f g⟩]

theorem mem_positions_iff_child {e : Expr} {p : Position} :
    p ∈ e.positions ↔
      p = ⟨[], e⟩ ∨
        ∃ index child, e.child? index = some child ∧
          ∃ q ∈ child.positions, q.below [index] = p := by
  cases e with
  | constant value => simp [positions]
  | var => simp [positions]
  | negate f => simp [positions, or_comm]
  | apply function f => simp [positions, or_comm]
  | binary operator f g =>
      simp [positions, or_and_right, exists_or, and_assoc, or_comm, or_left_comm]

/-- The positions are the nodes at the ends of paths. -/
theorem mem_positions {e : Expr} {p : Position} :
    p ∈ e.positions ↔ e.get? p.path = some p.node := by
  induction e using induction_children generalizing p with
  | step e ih =>
      rw [mem_positions_iff_child, get?_eq_some_iff]
      constructor
      · rintro (rfl | ⟨index, child, hchild, q, hq, rfl⟩)
        · exact .inl ⟨rfl, rfl⟩
        · exact .inr ⟨index, q.path, child, q.path_below_singleton index, hchild,
            (ih index child hchild).mp hq⟩
      · rintro (⟨hpath, hnode⟩ | ⟨index, rest, child, hpath, hchild, hnode⟩)
        · exact .inl (hnode ▸ Position.eq_root_of_path_eq_nil hpath)
        · refine .inr ⟨index, child, hchild, ⟨rest.reverse, p.node⟩, ?_,
            (Position.eq_below_of_path_eq_cons hpath).symm⟩
          apply (ih index child hchild).mpr
          simpa [Position.path] using hnode

section Order

/-- Below one child the order of positions is that in the child. -/
theorem pairwise_before_below {positions : List Position} (index : Nat)
    (h : positions.Pairwise fun p q => Path.Before p.path q.path) :
    (positions.map (·.below [index])).Pairwise fun p q => Path.Before p.path q.path := by
  rw [List.pairwise_map]
  refine h.imp ?_
  intro p q hbefore
  simpa using hbefore.cons index

theorem path_ne_nil_of_mem_below {positions : List Position} {index : Nat} {p : Position}
    (hp : p ∈ positions.map (·.below [index])) : p.path ≠ [] := by
  obtain ⟨inner, -, rfl⟩ := List.mem_map.mp hp
  simp

/-- The root comes last. -/
theorem pairwise_before_concat {positions : List Position} (e : Expr)
    (h : positions.Pairwise fun p q => Path.Before p.path q.path)
    (hne : ∀ p ∈ positions, p.path ≠ []) :
    (positions ++ [Position.mk [] e]).Pairwise fun p q => Path.Before p.path q.path := by
  refine List.pairwise_append.mpr ⟨h, List.pairwise_singleton _ _, ?_⟩
  intro p hp q hq
  rw [List.mem_singleton.mp hq]
  exact Path.before_nil (hne p hp)

/-- The positions are listed in the order of their paths. -/
theorem pairwise_before_positions (e : Expr) :
    e.positions.Pairwise fun p q => Path.Before p.path q.path := by
  induction e with
  | constant value => exact List.pairwise_singleton _ _
  | var => exact List.pairwise_singleton _ _
  | negate f ih =>
      exact pairwise_before_concat _ (pairwise_before_below 0 ih) fun _ => path_ne_nil_of_mem_below
  | apply function f ih =>
      exact pairwise_before_concat _ (pairwise_before_below 0 ih) fun _ => path_ne_nil_of_mem_below
  | binary operator f g ihf ihg =>
      apply pairwise_before_concat
      · refine List.pairwise_append.mpr
          ⟨pairwise_before_below 0 ihf, pairwise_before_below 1 ihg, ?_⟩
        intro p hp q hq
        obtain ⟨inner, -, rfl⟩ := List.mem_map.mp hp
        obtain ⟨inner', -, rfl⟩ := List.mem_map.mp hq
        simpa using Path.before_of_lt Nat.zero_lt_one
      · intro p hp
        rcases List.mem_append.mp hp with hp | hp
        · exact path_ne_nil_of_mem_below hp
        · exact path_ne_nil_of_mem_below hp

theorem nodup_map_path_positions (e : Expr) : (e.positions.map Position.path).Nodup := by
  rw [List.Nodup, List.pairwise_map]
  exact e.pairwise_before_positions.imp Path.Before.ne

end Order

section Count

theorem length_positions (e : Expr) : e.positions.length = e.size := by
  induction e with
  | constant value => rfl
  | var => rfl
  | negate f ih => simp [positions, size, ih]
  | apply function f ih => simp [positions, size, ih]
  | binary operator f g ihf ihg => simp [positions, size, ihf, ihg, Nat.add_assoc]

/-- There are as many paths to nodes as nodes. -/
theorem encard_paths (e : Expr) : {path | (e.get? path).isSome}.encard = e.size := by
  have hpaths : {path | (e.get? path).isSome} =
      ((e.positions.map Position.path).toFinset : Set Path) := by
    ext path
    simp only [Set.mem_ofPred_eq, List.coe_toFinset, List.mem_map, Option.isSome_iff_exists]
    constructor
    · rintro ⟨node, hnode⟩
      refine ⟨⟨path.reverse, node⟩, ?_, List.reverse_reverse path⟩
      rw [mem_positions]
      simpa [Position.path] using hnode
    · rintro ⟨p, hp, rfl⟩
      exact ⟨p.node, mem_positions.mp hp⟩
  rw [hpaths, Set.encard_coe_eq_coe_finsetCard,
    List.toFinset_card_of_nodup e.nodup_map_path_positions, List.length_map, length_positions]

theorem size_eq_children (e : Expr) : e.size = 1 + (e.children.map size).sum := by
  cases e with
  | constant value => rfl
  | var => rfl
  | negate f => simp [size, children, arity, tag, Tag.arity, child?, Nat.add_comm]
  | apply function f => simp [size, children, arity, tag, Tag.arity, child?, Nat.add_comm]
  | binary operator f g =>
      simp [size, children, arity, tag, Tag.arity, child?, List.range_succ, Nat.add_comm]

end Count

end Expr

end SymbolicCalculus
