import SymbolicCalculus.Proofs.Expr.Spans

/-! # Replacing a node

A subtree shows outside of its own span only by how it binds. Another subtree that
binds alike can take its place, and the text changes inside the span alone.
-/

namespace SymbolicCalculus

namespace Span

theorem bytes_front (front back : String) :
    (Span.mk 0 front.utf8ByteSize).bytes (front ++ back) = front.toByteArray := by
  have hbytes := bytes_append "" front back
  simpa only [String.utf8ByteSize_empty, Nat.zero_add, String.empty_append] using hbytes

theorem bytes_back (front back : String) :
    (Span.mk front.utf8ByteSize (front ++ back).utf8ByteSize).bytes (front ++ back) =
      back.toByteArray := by
  have hbytes := bytes_append front back ""
  simpa only [← String.utf8ByteSize_append, String.append_empty] using hbytes

end Span

namespace Expr

/-- The expression with another child at an index. -/
def setChild : Expr → Nat → Expr → Expr
  | negate _, 0, child => negate child
  | apply function _, 0, child => apply function child
  | binary operator _ g, 0, child => binary operator child g
  | binary operator f _, 1, child => binary operator f child
  | e, _, _ => e

/-- The expression with another subtree at the end of a path. Where no node is,
nothing is replaced. -/
def replaceAt : Expr → Path → Expr → Expr
  | _, [], replacement => replacement
  | e, index :: path, replacement =>
      match e.child? index with
      | some child => e.setChild index (child.replaceAt path replacement)
      | none => e

variable {e child child' node replacement : Expr} {index : Nat} {path : Path}

section Child

theorem child?_setChild (hchild : e.child? index = some child) (child' : Expr) :
    (e.setChild index child').child? index = some child' := by
  cases e with
  | constant value => cases hchild
  | var => cases hchild
  | negate f =>
      obtain ⟨rfl, -⟩ := child?_negate_eq_some_iff.mp hchild
      rfl
  | apply function f =>
      obtain ⟨rfl, -⟩ := child?_apply_eq_some_iff.mp hchild
      rfl
  | binary operator f g =>
      rcases child?_binary_eq_some_iff.mp hchild with ⟨rfl, -⟩ | ⟨rfl, -⟩
      · rfl
      · rfl

/-- Only constants bind by more than their kind, and they have no children. -/
theorem binding_setChild (hchild : e.child? index = some child) (child' : Expr) :
    (e.setChild index child').binding = e.binding := by
  cases e with
  | constant value => cases hchild
  | var => cases hchild
  | negate f =>
      obtain ⟨rfl, -⟩ := child?_negate_eq_some_iff.mp hchild
      rfl
  | apply function f =>
      obtain ⟨rfl, -⟩ := child?_apply_eq_some_iff.mp hchild
      rfl
  | binary operator f g =>
      rcases child?_binary_eq_some_iff.mp hchild with ⟨rfl, -⟩ | ⟨rfl, -⟩
      · rfl
      · rfl

/-- What a node writes around a child depends on the child's binding alone. -/
theorem frame_setChild (hchild : e.child? index = some child)
    (hbinding : child'.binding = child.binding) :
    (e.setChild index child').frame index = e.frame index := by
  cases e with
  | constant value => cases hchild
  | var => cases hchild
  | negate f =>
      obtain ⟨rfl, rfl⟩ := child?_negate_eq_some_iff.mp hchild
      simp only [setChild, frame, hbinding]
  | apply function f =>
      obtain ⟨rfl, rfl⟩ := child?_apply_eq_some_iff.mp hchild
      rfl
  | binary operator f g =>
      rcases child?_binary_eq_some_iff.mp hchild with ⟨rfl, rfl⟩ | ⟨rfl, rfl⟩
      · simp only [setChild, frame, hbinding]
      · simp only [setChild, frame, hbinding]

end Child

section Replace

theorem replaceAt_nil (e replacement : Expr) : e.replaceAt [] replacement = replacement := by
  cases e <;> rfl

theorem replaceAt_cons (hchild : e.child? index = some child) (path : Path)
    (replacement : Expr) :
    e.replaceAt (index :: path) replacement =
      e.setChild index (child.replaceAt path replacement) := by
  rw [replaceAt, hchild]

theorem get?_replaceAt (hnode : e.get? path = some node) (replacement : Expr) :
    (e.replaceAt path replacement).get? path = some replacement := by
  induction path generalizing e with
  | nil => rw [replaceAt_nil, get?_nil]
  | cons index path ih =>
      rw [get?_cons] at hnode
      obtain ⟨child, hchild, hnode⟩ := Option.bind_eq_some_iff.mp hnode
      rw [replaceAt_cons hchild, get?_cons, child?_setChild hchild, Option.bind_some, ih hnode]

theorem binding_replaceAt (hnode : e.get? path = some node)
    (hbinding : replacement.binding = node.binding) :
    (e.replaceAt path replacement).binding = e.binding := by
  cases path with
  | nil =>
      rw [get?_nil, Option.some.injEq] at hnode
      rw [replaceAt_nil, hbinding, hnode]
  | cons index path =>
      rw [get?_cons] at hnode
      obtain ⟨child, hchild, -⟩ := Option.bind_eq_some_iff.mp hnode
      rw [replaceAt_cons hchild, binding_setChild hchild]

/-- What is written around a node stays as it is when a subtree that binds alike
takes its place. Nothing is written around the root, so there any subtree can. -/
theorem around_replaceAt (hnode : e.get? path = some node)
    (hbinding : path = [] ∨ replacement.binding = node.binding) :
    (e.replaceAt path replacement).around path = e.around path := by
  induction path generalizing e with
  | nil => rw [around_nil, around_nil]
  | cons index path ih =>
      rw [get?_cons] at hnode
      obtain ⟨child, hchild, hnode⟩ := Option.bind_eq_some_iff.mp hnode
      have halike : replacement.binding = node.binding :=
        hbinding.resolve_left (List.cons_ne_nil index path)
      rw [replaceAt_cons hchild, around_cons hchild, around_cons (child?_setChild hchild _),
        frame_setChild hchild (binding_replaceAt hnode halike), ih hnode (.inr halike)]

/-- Rendering is local. Where a subtree takes the place of a node that binds alike, or
of the root, the text of the subtree takes the place of the node's text. What stands
before and after the node's span stays, and the subtree's span starts where that of
the node did. -/
theorem text_replaceAt (e : Expr) (hnode : e.get? path = some node)
    (hbinding : path = [] ∨ replacement.binding = node.binding) :
    ∃ span, e.textWithSpan path = (e.text, some span) ∧
      (e.replaceAt path replacement).text.toByteArray =
        (Span.mk 0 span.start).bytes e.text ++ replacement.text.toByteArray ++
          (Span.mk span.stop e.text.utf8ByteSize).bytes e.text ∧
      (e.replaceAt path replacement).textWithSpan path =
        ((e.replaceAt path replacement).text,
          some ⟨span.start, span.start + replacement.text.utf8ByteSize⟩) := by
  have hnew := get?_replaceAt hnode replacement
  have haround := around_replaceAt hnode hbinding
  refine ⟨_, Prod.ext ?_ (span_eq hnode), ?text, Prod.ext ?_ ?span⟩
  · rw [textWithSpan_eq]
  case text =>
    have hfront := Span.bytes_front (e.around path).1 (node.text ++ (e.around path).2)
    have hback := Span.bytes_back ((e.around path).1 ++ node.text) (e.around path).2
    rw [← String.append_assoc, ← text_eq_around hnode] at hfront
    rw [← text_eq_around hnode, String.utf8ByteSize_append] at hback
    rw [hfront, hback, text_eq_around hnew, haround, String.toByteArray_append,
      String.toByteArray_append]
  · rw [textWithSpan_eq]
  case span =>
    rw [span_eq hnew, haround]

/-- The base of `(-2)^x` binds as `-x` does, so its parentheses stay. -/
theorem text_replaceAt_base :
    ∃ span,
      (subtract var (power (integer (-2)) var)).textWithSpan [1, 0] =
          ((subtract var (power (integer (-2)) var)).text, some span) ∧
        ((subtract var (power (integer (-2)) var)).replaceAt [1, 0] (negate var)).textWithSpan
            [1, 0] =
          ((subtract var (power (negate var) var)).text, some ⟨span.start, span.start + 2⟩) := by
  have hnode : (subtract var (power (integer (-2)) var)).get? [1, 0] = some (integer (-2)) := rfl
  have hbinding : (negate var).binding = (integer (-2)).binding := rfl
  obtain ⟨span, hspan, -, hspan'⟩ := text_replaceAt _ hnode (.inr hbinding)
  exact ⟨span, hspan, hspan'⟩

end Replace

end Expr

end SymbolicCalculus
