import SymbolicCalculus.Proofs.Expr.Positions
import SymbolicCalculus.Proofs.Expr.Spans

/-! # Nesting of spans

The spans in a text lie as the nodes do in the tree. What is below a node has its
span inside the span of that node, and shorter. Nodes of which neither is below
the other have spans apart, the left one first, with at least one character in
between.
-/

namespace SymbolicCalculus

namespace Span

/-- All of the span is in the other one. -/
def Inside (inner outer : Span) : Prop := outer.start ≤ inner.start ∧ inner.stop ≤ outer.stop

/-- The span when `offset` characters are put in front of the text. -/
def shift (span : Span) (offset : Nat) : Span := ⟨offset + span.start, offset + span.stop⟩

variable {span other : Span}

theorem not_inside_of_stop_lt (hspan : span.start < span.stop)
    (h : span.stop < other.start) : ¬ span.Inside other := by
  intro hinside
  have hstart := hinside.1
  omega

theorem not_inside_of_lt_start (hspan : span.start < span.stop)
    (h : other.stop < span.start) : ¬ span.Inside other := by
  intro hinside
  have hstop := hinside.2
  omega

end Span

namespace Expr

variable {e node : Expr} {path other rest : Path} {span : Span}

section Width

theorem exists_span_of_isSome (h : (e.get? path).isSome) :
    ∃ span, (e.textWithSpan path).2 = some span ∧ span.start < span.stop := by
  obtain ⟨node, hnode⟩ := Option.isSome_iff_exists.mp h
  obtain ⟨span, hspan, hlt, -⟩ := exists_span hnode
  exact ⟨span, hspan, hlt⟩

theorem exists_get?_of_span (hspan : (e.textWithSpan path).2 = some span) :
    ∃ node, e.get? path = some node ∧
      span = ⟨(e.around path).1.length, (e.around path).1.length + node.text.length⟩ := by
  rw [textWithSpan_eq] at hspan
  obtain ⟨node, hnode, heq⟩ := Option.map_eq_some_iff.mp hspan
  exact ⟨node, hnode, heq.symm⟩

/-- Every node writes a character of its own beside each of its children. -/
theorem frame_length_pos {child : Expr} {index : Nat} (hchild : e.child? index = some child) :
    0 < (e.frame index).1.length + (e.frame index).2.length := by
  cases e with
  | constant value => cases hchild
  | var => cases hchild
  | negate f =>
      have hminus : 0 < "-".length := by decide
      simp only [frame, String.length_append]
      omega
  | apply function f =>
      have hclosing : 0 < ")".length := by decide
      exact Nat.add_pos_right _ hclosing
  | binary operator f g =>
      have hsymbol := symbol_length_pos operator
      rcases child?_binary_eq_some_iff.mp hchild with ⟨rfl, -⟩ | ⟨rfl, -⟩
      · simp only [frame, String.length_append]
        omega
      · simp only [frame, String.length_append]
        omega

theorem length_eq_around (hnode : e.get? path = some node) :
    e.text.length = (e.around path).1.length + node.text.length + (e.around path).2.length := by
  rw [text_eq_around hnode, String.length_append, String.length_append]

theorem stop_le_length (hspan : (e.textWithSpan path).2 = some span) :
    span.stop ≤ e.text.length := by
  obtain ⟨node, hnode, rfl⟩ := exists_get?_of_span hspan
  rw [length_eq_around hnode]
  exact Nat.le_add_right _ _

/-- Only the root takes up the whole text. -/
theorem length_lt_of_ne_nil (hpath : path ≠ []) (hspan : (e.textWithSpan path).2 = some span) :
    span.length < e.text.length := by
  obtain ⟨index, rest, rfl⟩ := List.exists_cons_of_ne_nil hpath
  obtain ⟨node, hnode, rfl⟩ := exists_get?_of_span hspan
  rw [length_eq_around hnode]
  rw [get?_cons] at hnode
  obtain ⟨child, hchild, -⟩ := Option.bind_eq_some_iff.mp hnode
  have hframe := frame_length_pos hchild
  rw [around_cons hchild]
  simp only [Span.length, String.length_append]
  omega

end Width

section Subtree

/-- The spans in a subtree are those in the subtree alone, shifted to where the
subtree starts. -/
theorem span_append {front : Path} (hnode : e.get? front = some node) (rest : Path) :
    (e.textWithSpan (front ++ rest)).2 =
      (node.textWithSpan rest).2.map (·.shift (e.around front).1.length) := by
  simp only [textWithSpan_eq, get?_append, hnode, Option.bind_some, Option.map_map,
    around_append hnode]
  congr 1
  funext inner
  simp [Span.shift, String.length_append, Nat.add_assoc]

theorem exists_shift {front : Path} (hspan : (e.textWithSpan (front ++ rest)).2 = some span) :
    ∃ node inner, e.get? front = some node ∧ (node.textWithSpan rest).2 = some inner ∧
      span = inner.shift (e.around front).1.length := by
  obtain ⟨target, htarget, -⟩ := exists_get?_of_span hspan
  rw [get?_append] at htarget
  obtain ⟨node, hnode, -⟩ := Option.bind_eq_some_iff.mp htarget
  rw [span_append hnode] at hspan
  obtain ⟨inner, hinner, heq⟩ := Option.map_eq_some_iff.mp hspan
  exact ⟨node, inner, hnode, hinner, heq.symm⟩

/-- What is below a node has its span inside the span of the node. -/
theorem inside_of_isPrefix {outer inner : Span} (h : path <+: other)
    (houter : (e.textWithSpan path).2 = some outer)
    (hinner : (e.textWithSpan other).2 = some inner) :
    inner.Inside outer ∧ (path ≠ other → inner.length < outer.length) := by
  obtain ⟨rest, rfl⟩ := h
  obtain ⟨node, below, hnode, hbelow, rfl⟩ := exists_shift hinner
  obtain ⟨node', hnode', rfl⟩ := exists_get?_of_span houter
  obtain rfl : node = node' := Option.some.inj (hnode.symm.trans hnode')
  refine ⟨⟨Nat.le_add_right _ _, Nat.add_le_add_left (stop_le_length hbelow) _⟩, ?_⟩
  intro hne
  have hrest : rest ≠ [] := by
    rintro rfl
    exact hne (List.append_nil path).symm
  have hlt := length_lt_of_ne_nil hrest hbelow
  simp only [Span.length, Span.shift] at hlt ⊢
  omega

end Subtree

section Siblings

/-- Between the operands of an operator stands its symbol. -/
theorem frame_lt {left right : Expr} (hleft : e.child? 0 = some left)
    (hright : e.child? 1 = some right) :
    (e.frame 0).1.length + left.text.length < (e.frame 1).1.length := by
  cases e with
  | constant value => cases hleft
  | var => cases hleft
  | negate f => cases hright
  | apply function f => cases hright
  | binary operator f g =>
      obtain rfl : f = left := Option.some.inj hleft
      have hsymbol := symbol_length_pos operator
      simp only [frame, leftText, enclosed_eq, String.length_append]
      omega

theorem index_eq_of_lt {left right : Expr} {index index' : Nat} (hlt : index < index')
    (hleft : e.child? index = some left) (hright : e.child? index' = some right) :
    index = 0 ∧ index' = 1 := by
  cases e with
  | constant value => cases hleft
  | var => cases hleft
  | negate f =>
      obtain ⟨rfl, -⟩ := child?_negate_eq_some_iff.mp hright
      exact absurd hlt (Nat.not_lt_zero _)
  | apply function f =>
      obtain ⟨rfl, -⟩ := child?_apply_eq_some_iff.mp hright
      exact absurd hlt (Nat.not_lt_zero _)
  | binary operator f g =>
      rcases child?_binary_eq_some_iff.mp hright with ⟨rfl, -⟩ | ⟨rfl, -⟩
      · exact absurd hlt (Nat.not_lt_zero _)
      · exact ⟨Nat.lt_one_iff.mp hlt, rfl⟩

/-- What is in an earlier child ends before what is in a later child starts. -/
theorem stop_lt_start_of_lt {index index' : Nat} (hlt : index < index') {rest rest' : Path}
    {first second : Span} (hfirst : (e.textWithSpan (index :: rest)).2 = some first)
    (hsecond : (e.textWithSpan (index' :: rest')).2 = some second) :
    first.stop < second.start := by
  rw [← List.singleton_append] at hfirst hsecond
  obtain ⟨left, inLeft, hleft, hinLeft, rfl⟩ := exists_shift hfirst
  obtain ⟨right, inRight, hright, -, rfl⟩ := exists_shift hsecond
  simp only [get?_cons, get?_nil, Option.bind_fun_some] at hleft hright
  obtain ⟨rfl, rfl⟩ := index_eq_of_lt hlt hleft hright
  have hwidth := stop_le_length hinLeft
  have hframe := frame_lt hleft hright
  rw [around_singleton hleft, around_singleton hright]
  simp only [Span.shift]
  omega

/-- Where paths part, the span of the left node ends before the span of the right
one starts. -/
theorem stop_lt_start_of_leftOf {first second : Span} (h : Path.LeftOf path other)
    (hfirst : (e.textWithSpan path).2 = some first)
    (hsecond : (e.textWithSpan other).2 = some second) : first.stop < second.start := by
  obtain ⟨front, index, rest, index', rest', rfl, rfl, hlt⟩ := h.exists_fork
  obtain ⟨node, inFirst, hnode, hinFirst, rfl⟩ := exists_shift hfirst
  obtain ⟨node', inSecond, hnode', hinSecond, rfl⟩ := exists_shift hsecond
  obtain rfl : node = node' := Option.some.inj (hnode.symm.trans hnode')
  exact Nat.add_lt_add_left (stop_lt_start_of_lt hlt hinFirst hinSecond) _

end Siblings

section Nesting

/-- Only what is below a node has its span inside the span of the node. -/
theorem isPrefix_of_inside {outer inner : Span} (houter : (e.textWithSpan path).2 = some outer)
    (hinner : (e.textWithSpan other).2 = some inner) (hpos : inner.start < inner.stop)
    (h : inner.Inside outer) : path <+: other := by
  rcases Path.isPrefix_or_leftOf path other with hprefix | hprefix | hleft | hleft
  · exact hprefix
  · -- Then the spans are inside each other, so the paths are the same.
    obtain ⟨hinside, hlength⟩ := inside_of_isPrefix hprefix hinner houter
    by_cases heq : other = path
    · rw [heq]
    · have hlt := hlength heq
      obtain ⟨hstart, hstop⟩ := h
      obtain ⟨hstart', hstop'⟩ := hinside
      simp only [Span.length] at hlt
      omega
  · have hlt := stop_lt_start_of_leftOf hleft houter hinner
    exact absurd h (Span.not_inside_of_lt_start hpos hlt)
  · have hlt := stop_lt_start_of_leftOf hleft hinner houter
    exact absurd h (Span.not_inside_of_stop_lt hpos hlt)

/-- The spans of two nodes lie as the nodes do. Below a node they are inside its
span and shorter, to the left of a node they end before its span starts. So two
nodes have two spans, and one span is inside the other exactly where the one node
is below the other. -/
theorem textWithSpan_nests_as_nodes (e : Expr) {path other : Path}
    (hpath : (e.get? path).isSome) (hother : (e.get? other).isSome) (hne : path ≠ other) :
    ∃ span span', (e.textWithSpan path).2 = some span ∧ (e.textWithSpan other).2 = some span' ∧
      (path <+: other → span'.Inside span ∧ span'.length < span.length) ∧
      (Path.LeftOf path other → span.stop < span'.start) ∧
      span ≠ span' ∧
      (span'.Inside span ↔ path <+: other) ∧ (span.Inside span' ↔ other <+: path) := by
  obtain ⟨span, hspan, hpos⟩ := exists_span_of_isSome hpath
  obtain ⟨span', hspan', hpos'⟩ := exists_span_of_isSome hother
  have hinside : span'.Inside span ↔ path <+: other :=
    ⟨isPrefix_of_inside hspan hspan' hpos', fun h => (inside_of_isPrefix h hspan hspan').1⟩
  have hinside' : span.Inside span' ↔ other <+: path :=
    ⟨isPrefix_of_inside hspan' hspan hpos, fun h => (inside_of_isPrefix h hspan' hspan).1⟩
  refine ⟨span, span', hspan, hspan', ?_, ?_, ?_, hinside, hinside'⟩
  · intro hprefix
    obtain ⟨hin, hlength⟩ := inside_of_isPrefix hprefix hspan hspan'
    exact ⟨hin, hlength hne⟩
  · intro hleft
    exact stop_lt_start_of_leftOf hleft hspan hspan'
  · rintro rfl
    -- A span is inside itself, so each path would extend the other.
    have hself : span.Inside span := ⟨Nat.le_refl _, Nat.le_refl _⟩
    exact hne ((hinside.mp hself).eq_of_length_le (hinside'.mp hself).length_le)

/-- In `(x + x) * sin(x)` the second `x` is inside the sum, and the sum ends before
the `x` of the sine starts. -/
theorem textWithSpan_nests_as_nodes_product :
    ∃ sum summand argument,
      ((multiply (add var var) (apply .sin var)).textWithSpan [0]).2 = some sum ∧
      ((multiply (add var var) (apply .sin var)).textWithSpan [0, 1]).2 = some summand ∧
      ((multiply (add var var) (apply .sin var)).textWithSpan [1, 0]).2 = some argument ∧
      summand.Inside sum ∧ summand.length < sum.length ∧ sum.stop < argument.start := by
  obtain ⟨sum, summand, hsum, hsummand, hbelow, -⟩ :=
    @textWithSpan_nests_as_nodes (multiply (add var var) (apply .sin var)) [0] [0, 1] rfl rfl
      (by decide)
  obtain ⟨sum', argument, hsum', hargument, -, hleft, -⟩ :=
    @textWithSpan_nests_as_nodes (multiply (add var var) (apply .sin var)) [0] [1, 0] rfl rfl
      (by decide)
  obtain rfl : sum = sum' := Option.some.inj (hsum.symm.trans hsum')
  obtain ⟨hinside, hlength⟩ := hbelow (by decide)
  exact ⟨sum, summand, argument, hsum, hsummand, hargument, hinside, hlength, hleft (by decide)⟩

end Nesting

end Expr

end SymbolicCalculus
