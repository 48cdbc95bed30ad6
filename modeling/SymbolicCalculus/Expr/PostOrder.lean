import SymbolicCalculus.Expr.Basic

/-! # Post-order traversal

A cursor visits the nodes of an expression one at a time, children from left to
right before their parent. It keeps the stack of nodes still to be visited and
the position visited last: a node whose last child was just visited is next,
any other inner node puts its children on the stack. A node is identified by
its position, so equal subtrees in different places are different nodes.
-/

namespace SymbolicCalculus

/-- A node and where it is: the child indices on the way from it up to the
root, its own index first. -/
structure Position where
  trail : List Nat
  node : Expr
deriving DecidableEq

namespace Position

/-- The path that leads from the root to the node. -/
def path (p : Position) : Path := p.trail.reverse

/-- The trail of the node's last child, if it has children. -/
def lastChild? (p : Position) : Option (List Nat) :=
  match p.node.arity with
  | 0 => none
  | n + 1 => some (n :: p.trail)

end Position

namespace Expr

/-- The number of nodes, counted by recursion. -/
def size : Expr → Nat
  | constant _ => 1
  | var => 1
  | negate f => f.size + 1
  | apply _ f => f.size + 1
  | binary _ f g => f.size + g.size + 1

theorem size_pos (e : Expr) : 0 < e.size := by cases e <;> simp [size]

end Expr

/-- The state of a traversal: the nodes to visit, the next one first, and the
trail of the node visited last. -/
structure Cursor where
  pending : List Position
  last : Option (List Nat) := none

namespace Cursor

/-- The cursor before the first node. -/
def start (e : Expr) : Cursor := ⟨[⟨[], e⟩], none⟩

/-- The first node to visit at or below the node at `trail`, and the stack that
is left once it has been taken off. -/
def descend (last : Option (List Nat)) (trail : List Nat) :
    Expr → List Position → Position × List Position
  | .negate f, rest =>
      if last = some (0 :: trail) then (⟨trail, .negate f⟩, rest)
      else descend last (0 :: trail) f (⟨trail, .negate f⟩ :: rest)
  | .apply function f, rest =>
      if last = some (0 :: trail) then (⟨trail, .apply function f⟩, rest)
      else descend last (0 :: trail) f (⟨trail, .apply function f⟩ :: rest)
  | .binary operator f g, rest =>
      if last = some (1 :: trail) then (⟨trail, .binary operator f g⟩, rest)
      else descend last (0 :: trail) f
        (⟨1 :: trail, g⟩ :: ⟨trail, .binary operator f g⟩ :: rest)
  | leaf, rest => (⟨trail, leaf⟩, rest)

/-- Visit one node, or report that none is left. -/
def next (c : Cursor) : Option (Position × Cursor) :=
  match c.pending with
  | [] => none
  | top :: rest =>
      let (visited, pending) := descend c.last top.trail top.node rest
      some (visited, ⟨pending, some visited.trail⟩)

/-- A bound on the nodes still to be visited from a stack. A node costs its
size, or only itself if its last child is visited right before it. -/
def cost (last : Option (List Nat)) : List Position → Nat
  | [] => 0
  | p :: rest =>
      (if p.lastChild?.isSome ∧ p.lastChild? = last then 1 else p.node.size) +
        cost (some p.trail) rest

theorem cost_cons_le (last : Option (List Nat)) (p : Position) (rest : List Position) :
    cost last (p :: rest) ≤ p.node.size + cost (some p.trail) rest := by
  have hsize := p.node.size_pos
  simp only [cost]
  split <;> omega

theorem cost_descend (last : Option (List Nat)) (trail : List Nat) (e : Expr)
    (rest : List Position) :
    cost (some (descend last trail e rest).1.trail) (descend last trail e rest).2 <
      cost last (⟨trail, e⟩ :: rest) := by
  induction e generalizing trail rest with
  | constant value =>
      simp [descend, cost, Position.lastChild?, Expr.arity, Expr.tag, Tag.arity, Expr.size]
  | var => simp [descend, cost, Position.lastChild?, Expr.arity, Expr.tag, Tag.arity, Expr.size]
  | negate f ih =>
      simp only [descend]
      split
      next hlast => simp [cost, hlast, Position.lastChild?, Expr.arity, Expr.tag, Tag.arity]
      next hlast =>
        have hchild := ih (0 :: trail) (⟨trail, .negate f⟩ :: rest)
        have hbound := cost_cons_le last ⟨0 :: trail, f⟩ (⟨trail, .negate f⟩ :: rest)
        simp [cost, Position.lastChild?, Expr.arity, Expr.tag, Tag.arity, Expr.size,
          Ne.symm hlast] at hchild hbound ⊢
        omega
  | apply function f ih =>
      simp only [descend]
      split
      next hlast => simp [cost, hlast, Position.lastChild?, Expr.arity, Expr.tag, Tag.arity]
      next hlast =>
        have hchild := ih (0 :: trail) (⟨trail, .apply function f⟩ :: rest)
        have hbound := cost_cons_le last ⟨0 :: trail, f⟩ (⟨trail, .apply function f⟩ :: rest)
        simp [cost, Position.lastChild?, Expr.arity, Expr.tag, Tag.arity, Expr.size,
          Ne.symm hlast] at hchild hbound ⊢
        omega
  | binary operator f g ihf ihg =>
      simp only [descend]
      split
      next hlast => simp [cost, hlast, Position.lastChild?, Expr.arity, Expr.tag, Tag.arity]
      next hlast =>
        have hchild := ihf (0 :: trail) (⟨1 :: trail, g⟩ :: ⟨trail, .binary operator f g⟩ :: rest)
        have hbound := cost_cons_le last ⟨0 :: trail, f⟩
          (⟨1 :: trail, g⟩ :: ⟨trail, .binary operator f g⟩ :: rest)
        have hright := cost_cons_le (some (0 :: trail)) ⟨1 :: trail, g⟩
          (⟨trail, .binary operator f g⟩ :: rest)
        have hparent : cost (some (1 :: trail)) (⟨trail, .binary operator f g⟩ :: rest) =
            1 + cost (some trail) rest := by
          simp [cost, Position.lastChild?, Expr.arity, Expr.tag, Tag.arity]
        have hwhole : cost last (⟨trail, .binary operator f g⟩ :: rest) =
            f.size + g.size + 1 + cost (some trail) rest := by
          simp [cost, Position.lastChild?, Expr.arity, Expr.tag, Tag.arity, Expr.size,
            Ne.symm hlast]
        simp only [hparent] at hright hbound
        omega

/-- Every visit leaves less to be visited, whatever state the cursor is in. -/
theorem cost_next {c c' : Cursor} {visited : Position} (h : c.next = some (visited, c')) :
    cost c'.last c'.pending < cost c.last c.pending := by
  obtain ⟨pending, last⟩ := c
  cases pending with
  | nil => simp [next] at h
  | cons top rest =>
      simp only [next, Option.some.injEq, Prod.mk.injEq] at h
      obtain ⟨rfl, rfl⟩ := h
      exact cost_descend last top.trail top.node rest

/-- Visit all remaining nodes, folding `f` over them. The result comes with the
cursor after the last node. -/
def run {β : Type} (f : β → Position → β) (state : β) (c : Cursor) : β × Cursor :=
  match _h : c.next with
  | none => (state, c)
  | some (visited, c') => run f (f state visited) c'
termination_by cost c.last c.pending
decreasing_by exact cost_next _h

end Cursor

namespace Expr

/-- The nodes of an expression in post-order. -/
def postOrder (e : Expr) : List Position :=
  ((Cursor.start e).run (fun visited p => p :: visited) []).1.reverse

/-- The number of nodes that the traversal visits. -/
def complexity (e : Expr) : Nat := ((Cursor.start e).run (fun count _ => count + 1) 0).1

end Expr

end SymbolicCalculus
