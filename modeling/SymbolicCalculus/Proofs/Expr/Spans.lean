import SymbolicCalculus.Proofs.Expr.Characters

/-! # Spans of nodes

The span of a node cuts the node's own text out of the text of the whole. The
parentheses that a parent writes around a child are outside the child's span.
-/

namespace SymbolicCalculus

namespace Span

/-- The bytes of a text inside a span. -/
def bytes (span : Span) (text : String) : ByteArray :=
  text.toByteArray.extract span.start span.stop

theorem bytes_append (before text after : String) :
    (Span.mk before.utf8ByteSize (before.utf8ByteSize + text.utf8ByteSize)).bytes
      (before ++ text ++ after) = text.toByteArray := by
  rw [bytes, String.append_assoc, String.toByteArray_append, ← String.size_toByteArray,
    ← String.size_toByteArray, ← Nat.add_zero before.toByteArray.size, Nat.add_assoc, Nat.zero_add,
    ByteArray.extract_append_size_add, String.toByteArray_append,
    ByteArray.extract_append_eq_left rfl]

theorem slice_append (before text after : String) :
    (Span.mk before.length (before.length + text.length)).slice (before ++ text ++ after) =
      text := by
  simp [slice, String.append_assoc, ← String.length_toList]

/-- One character more on both sides of a span takes in the parentheses there. -/
theorem bytes_parentheses (before text after : String) :
    (Span.mk ((before ++ "(").utf8ByteSize - 1)
        ((before ++ "(").utf8ByteSize + text.utf8ByteSize + 1)).bytes
      (before ++ "(" ++ text ++ (")" ++ after)) = ("(" ++ text ++ ")").toByteArray := by
  have hbytes := bytes_append before ("(" ++ text ++ ")") after
  have hopening : "(".utf8ByteSize = 1 := rfl
  have hclosing : ")".utf8ByteSize = 1 := rfl
  simp only [String.utf8ByteSize_append, String.append_assoc, hopening, hclosing] at hbytes ⊢
  rw [Nat.add_sub_cancel]
  convert hbytes using 2
  congr 1
  omega

end Span

namespace Expr

variable {e parent child node : Expr} {path front : Path} {index : Nat}

section Parentheses

/-- Whether a node writes parentheses around its child at an index. A function
always does. -/
def encloses : Expr → Nat → Bool
  | negate f, _ => Binding.signed.needsParentheses f.binding true
  | apply _ _, _ => true
  | binary operator f _, 0 => operator.binding.needsParentheses f.binding operator.groupsRight
  | binary operator _ g, _ => operator.binding.needsParentheses g.binding (!operator.groupsRight)
  | _, _ => false

theorem frame_of_encloses (h : e.encloses index = true) :
    ∃ before after, e.frame index = (before ++ "(", ")" ++ after) := by
  cases e with
  | constant value => cases h
  | var => cases h
  | negate f => exact ⟨"-", "", by simp_all [encloses, frame, opening, closing]⟩
  | apply function f => exact ⟨function.symbol, "", by simp [frame]⟩
  | binary operator f g =>
      cases index with
      | zero =>
          refine ⟨"", operator.symbol ++ rightText operator g, ?_⟩
          simp_all [encloses, frame, opening, closing, String.append_assoc]
      | succ index =>
          refine ⟨leftText operator f ++ operator.symbol, "", ?_⟩
          simp_all [encloses, frame, opening, closing]

theorem around_concat (hparent : e.get? front = some parent)
    (hchild : parent.child? index = some child) :
    e.around (front ++ [index]) =
      ((e.around front).1 ++ (parent.frame index).1,
        (parent.frame index).2 ++ (e.around front).2) := by
  rw [around_append hparent, around_singleton hchild]

end Parentheses

section Span

theorem ascii_around (hnode : e.get? path = some node) :
    Ascii (e.around path).1 ∧ Ascii node.text := by
  have hascii := e.ascii_text
  rw [text_eq_around hnode, ascii_append, ascii_append] at hascii
  exact hascii.1

/-- The span counts characters. All of them take one byte, also those around the
node. -/
theorem span_eq (hnode : e.get? path = some node) :
    (e.textWithSpan path).2 =
      some ⟨(e.around path).1.utf8ByteSize,
        (e.around path).1.utf8ByteSize + node.text.utf8ByteSize⟩ := by
  obtain ⟨hbefore, htext⟩ := ascii_around hnode
  rw [textWithSpan_eq, hnode, hbefore.utf8ByteSize, htext.utf8ByteSize]
  rfl

theorem exists_span (hnode : e.get? path = some node) :
    ∃ span, (e.textWithSpan path).2 = some span ∧ span.start < span.stop ∧
      span.stop ≤ e.text.utf8ByteSize ∧ span.bytes e.text = node.text.toByteArray := by
  have hpos := node.text_length_pos
  have hlength := (ascii_around hnode).2.utf8ByteSize
  refine ⟨_, span_eq hnode, ?_, ?_, ?_⟩
  · simp only
    omega
  · rw [text_eq_around hnode, String.utf8ByteSize_append, String.utf8ByteSize_append]
    exact Nat.le_add_right _ _
  · rw [text_eq_around hnode]
    exact Span.bytes_append _ _ _

/-- In the text of the whole the characters beside an enclosed child are the
parentheses. -/
theorem bytes_of_encloses (hparent : e.get? front = some parent)
    (hchild : parent.child? index = some child) (h : parent.encloses index = true) {span : Span}
    (hspan : (e.textWithSpan (front ++ [index])).2 = some span) :
    0 < span.start ∧
      (Span.mk (span.start - 1) (span.stop + 1)).bytes e.text =
        ("(" ++ child.text ++ ")").toByteArray := by
  obtain ⟨before, after, hframe⟩ := frame_of_encloses h
  have hnode : e.get? (front ++ [index]) = some child := by
    rw [get?_append, hparent, Option.bind_some, get?_cons, hchild, Option.bind_some, get?_nil]
  have htext := text_eq_around hnode
  rw [span_eq hnode, Option.some.injEq] at hspan
  rw [around_concat hparent hchild, hframe] at htext hspan
  subst hspan
  have hbefore : (e.around front).1 ++ (before ++ "(") = (e.around front).1 ++ before ++ "(" :=
    String.append_assoc.symm
  have hafter : ")" ++ after ++ (e.around front).2 = ")" ++ (after ++ (e.around front).2) :=
    String.append_assoc
  rw [hbefore, hafter] at htext
  rw [htext]
  simp only [hbefore]
  refine ⟨?_, Span.bytes_parentheses _ _ _⟩
  have hopening : 0 < "(".utf8ByteSize := by decide
  rw [String.utf8ByteSize_append]
  omega

theorem slice_span (hnode : e.get? path = some node) {span : Span}
    (hspan : (e.textWithSpan path).2 = some span) : span.slice e.text = node.text := by
  rw [textWithSpan_eq, hnode] at hspan
  obtain rfl := Option.some.inj hspan
  rw [text_eq_around hnode]
  exact Span.slice_append _ _ _

/-- Rendering with a path gives the usual text, and a span exactly where the path
leads to a node. The span is not empty and cuts out the text of that node; the
parentheses of an enclosing parent are the characters beside it. -/
theorem textWithSpan_cuts_out_node (e : Expr) (path : Path) :
    (e.textWithSpan path).1 = e.text ∧
      ((e.textWithSpan path).2.isSome ↔ (e.get? path).isSome) ∧
      ∀ span, (e.textWithSpan path).2 = some span →
        span.start < span.stop ∧ span.stop ≤ e.text.utf8ByteSize ∧
          ∃ node, e.get? path = some node ∧ span.bytes e.text = node.text.toByteArray ∧
            span.slice e.text = node.text ∧
            ∀ front index parent, path = front ++ [index] → e.get? front = some parent →
              parent.encloses index = true →
              0 < span.start ∧
                (Span.mk (span.start - 1) (span.stop + 1)).bytes e.text =
                  ("(" ++ node.text ++ ")").toByteArray := by
  refine ⟨?_, ?_, ?_⟩
  · rw [textWithSpan_eq]
  · rw [textWithSpan_eq, Option.isSome_map]
  · intro span hspan
    cases hnode : e.get? path with
    | none => simp [textWithSpan_eq, hnode] at hspan
    | some node =>
        obtain ⟨span', hspan', hlt, hstop, hbytes⟩ := exists_span hnode
        obtain rfl : span = span' := Option.some.inj (hspan.symm.trans hspan')
        refine ⟨hlt, hstop, node, rfl, hbytes, slice_span hnode hspan, ?_⟩
        rintro front index parent rfl hparent hencloses
        rw [get?_append, hparent, Option.bind_some, get?_cons] at hnode
        obtain ⟨child, hchild, hget⟩ := Option.bind_eq_some_iff.mp hnode
        obtain rfl : child = node := by simpa using hget
        exact bytes_of_encloses hparent hchild hencloses hspan

/-- The sum in `(x + x) * sin(x)` is cut out without its parentheses. -/
theorem textWithSpan_cuts_out_node_sum :
    ∃ span, ((multiply (add var var) (apply .sin var)).textWithSpan [0]).2 = some span ∧
      span.slice (multiply (add var var) (apply .sin var)).text = (add var var).text ∧
      (Span.mk (span.start - 1) (span.stop + 1)).bytes
          (multiply (add var var) (apply .sin var)).text =
        ("(" ++ (add var var).text ++ ")").toByteArray := by
  obtain ⟨-, hsome, hcuts⟩ :=
    textWithSpan_cuts_out_node (multiply (add var var) (apply .sin var)) [0]
  obtain ⟨span, hspan⟩ := Option.isSome_iff_exists.mp (hsome.mpr rfl)
  obtain ⟨-, -, node, hnode, -, hslice, hparentheses⟩ := hcuts span hspan
  obtain rfl : add var var = node := Option.some.inj hnode
  exact ⟨span, hspan, hslice, (hparentheses [] 0 _ rfl rfl rfl).2⟩

end Span

end Expr

end SymbolicCalculus
