import SymbolicCalculus.Proofs.Expr.Grammar
import SymbolicCalculus.Proofs.Expr.Layout

/-! # Reading infix text back

The text of an expression is a phrase of the grammar, and the only one. What it
denotes is the expression itself, up to what the text of a constant leaves out:
a sign bit reads as a negation, and all NaNs read as one.
-/

namespace SymbolicCalculus

namespace Expr

/-- An expression with signs of constants written as negations, and one NaN. -/
def canonical : Expr → Expr
  | constant value =>
      if value.isNaN then constant .nan
      else if value.negative then negate (constant value.abs)
      else constant value
  | var => var
  | negate f => negate f.canonical
  | apply function f => apply function f.canonical
  | binary operator f g => binary operator f.canonical g.canonical

end Expr

theorem Operator.toList_symbol (operator : Operator) :
    operator.symbol.toList = operator.spelling := by
  cases operator <;> rfl

theorem NamedFunction.toList_symbol (function : NamedFunction) :
    function.symbol.toList = function.spelling := by
  cases function <;> rfl

/-- Some phrase of the level reads the text as the expression. -/
def Reads (b : Binding) (text : String) (e : Expr) : Prop :=
  ∃ t : Phrase b, t.chars = text.toList ∧ t.value = e

namespace Reads

variable {b b' : Binding} {text text' : String} {e e' : Expr}

theorem ofProduct (h : Reads .product text e) : Reads .sum text e := by
  obtain ⟨t, hchars, hvalue⟩ := h
  exact ⟨.ofProduct t, hchars, hvalue⟩

theorem ofSigned (h : Reads .signed text e) : Reads .product text e := by
  obtain ⟨t, hchars, hvalue⟩ := h
  exact ⟨.ofSigned t, hchars, hvalue⟩

theorem ofPower (h : Reads .power text e) : Reads .signed text e := by
  obtain ⟨t, hchars, hvalue⟩ := h
  exact ⟨.ofPower t, hchars, hvalue⟩

theorem ofPrimary (h : Reads .primary text e) : Reads .power text e := by
  obtain ⟨t, hchars, hvalue⟩ := h
  exact ⟨.ofPrimary t, hchars, hvalue⟩

theorem loosen (h : Reads b' text e) (hle : b.strength ≤ b'.strength) : Reads b text e := by
  cases b' with
  | sum =>
      cases b with
      | sum => exact h
      | _ => exact absurd hle (by decide)
  | product =>
      cases b with
      | sum => exact h.ofProduct
      | product => exact h
      | _ => exact absurd hle (by decide)
  | signed =>
      cases b with
      | sum => exact h.ofSigned.ofProduct
      | product => exact h.ofSigned
      | signed => exact h
      | _ => exact absurd hle (by decide)
  | power =>
      cases b with
      | sum => exact h.ofPower.ofSigned.ofProduct
      | product => exact h.ofPower.ofSigned
      | signed => exact h.ofPower
      | power => exact h
      | primary => exact absurd hle (by decide)
  | primary =>
      cases b with
      | sum => exact h.ofPrimary.ofPower.ofSigned.ofProduct
      | product => exact h.ofPrimary.ofPower.ofSigned
      | signed => exact h.ofPrimary.ofPower
      | power => exact h.ofPrimary
      | primary => exact h

theorem group (h : Reads .sum text e) : Reads .primary ("(" ++ text ++ ")") e := by
  obtain ⟨t, hchars, hvalue⟩ := h
  refine ⟨.group t, ?_, hvalue⟩
  simp [Phrase.chars_group, hchars, String.toList_append]

/-- An operand between parentheses where they are needed is read at any level
that it would otherwise have to bind at least as tight as. -/
theorem enclosed (h : Reads b' text e) {needed : Bool}
    (hneeded : needed = false → b.strength ≤ b'.strength) :
    Reads b (enclosed needed text) e := by
  cases needed with
  | false => exact h.loosen (hneeded rfl)
  | true => exact (h.loosen (Nat.zero_le _)).group.loosen (by cases b <;> decide)

theorem minus (h : Reads .power text e) : Reads .signed ("-" ++ text) (.negate e) := by
  obtain ⟨t, hchars, rfl⟩ := h
  exact ⟨.minus t, by simp [Phrase.chars_minus, hchars, String.toList_append], rfl⟩

theorem call (function : NamedFunction) (h : Reads .sum text e) :
    Reads .primary (function.symbol ++ "(" ++ text ++ ")") (.apply function e) := by
  obtain ⟨t, hchars, rfl⟩ := h
  refine ⟨.call function t, ?_, rfl⟩
  simp [Phrase.chars_call, hchars, String.toList_append, function.toList_symbol]

theorem sum {operator : Operator} (hoperator : operator = .add ∨ operator = .subtract)
    (h : Reads .sum text e)
    (h' : Reads .product text' e') :
    Reads .sum (text ++ operator.symbol ++ text') (.binary operator e e') := by
  obtain ⟨t, hchars, rfl⟩ := h
  obtain ⟨t', hchars', rfl⟩ := h'
  refine ⟨.sum operator hoperator t t', ?_, rfl⟩
  simp [Phrase.chars_sum, hchars, hchars', String.toList_append, operator.toList_symbol]

theorem product {operator : Operator} (hoperator : operator = .multiply ∨ operator = .divide)
    (h : Reads .product text e) (h' : Reads .signed text' e') :
    Reads .product (text ++ operator.symbol ++ text') (.binary operator e e') := by
  obtain ⟨t, hchars, rfl⟩ := h
  obtain ⟨t', hchars', rfl⟩ := h'
  refine ⟨.product operator hoperator t t', ?_, rfl⟩
  simp [Phrase.chars_product, hchars, hchars', String.toList_append, operator.toList_symbol]

theorem power (h : Reads .primary text e) (h' : Reads .power text' e') :
    Reads .power (text ++ "^" ++ text') (.binary .power e e') := by
  obtain ⟨t, hchars, rfl⟩ := h
  obtain ⟨t', hchars', rfl⟩ := h'
  refine ⟨.power t t', ?_, rfl⟩
  simp [Phrase.chars_power, hchars, hchars', String.toList_append]

end Reads

namespace Expr

theorem reads_magnitude {value : Binary64} {magnitude : List Char}
    (h : (value = .infinity ∧ magnitude = ['i', 'n', 'f']) ∨
      ∃ n : Numeral, n.value = value ∧ magnitude = n.chars) :
    Reads .primary (String.ofList magnitude) (constant value) := by
  rcases h with ⟨rfl, rfl⟩ | ⟨n, rfl, rfl⟩
  · exact ⟨.infinity, String.toList_ofList.symm, rfl⟩
  · exact ⟨.number n, String.toList_ofList.symm, rfl⟩

theorem reads_constant (value : Binary64) :
    Reads (constant value).binding (constant value).text (constant value).canonical := by
  rw [text_constant, canonical]
  rcases value.number_cases with ⟨hnan, hnumber⟩ | ⟨hnan, magnitude, hnumber, hmagnitude⟩
  · rw [if_pos hnan, hnumber]
    have hreads : Reads .primary (String.ofList ['N', 'a', 'N']) (constant .nan) :=
      ⟨.nan, String.toList_ofList.symm, rfl⟩
    refine hreads.loosen ?_
    cases (constant value).binding <;> decide
  · rw [if_neg hnan, hnumber, binding]
    have hreads := reads_magnitude hmagnitude
    cases hsign : value.negative with
    | true =>
        -- Such a constant stands where a negation may, and its text is that of one.
        have htext : String.ofList (['-'] ++ magnitude) = "-" ++ String.ofList magnitude :=
          String.ofList_append
        simp only [if_true, htext]
        exact (hreads.loosen (by decide)).minus
    | false =>
        have habs : value.abs = value := by
          rw [Binary64.abs, ← hsign]
        simpa [habs] using hreads

section Operands

variable {f g : Expr} (hf : Reads f.binding f.text f.canonical)
variable (hg : Reads g.binding g.text g.canonical)

include hf in
/-- An operand reads at the level of its parent, and at the next one if ties
are not grouped on its side. -/
theorem reads_operand {parent level : Binding} {onTie : Bool}
    (hlevel : level.strength ≤ parent.strength + onTie.toNat) :
    Reads level (enclosed (parent.needsParentheses f.binding onTie) f.text) f.canonical := by
  apply hf.enclosed
  intro hneeded
  refine hlevel.trans ?_
  simp only [Binding.needsParentheses, Bool.or_eq_false_iff, decide_eq_false_iff_not,
    Bool.and_eq_false_iff, beq_eq_false_iff_ne] at hneeded
  obtain ⟨hle, htie⟩ := hneeded
  cases onTie with
  | false => exact Nat.le_of_not_lt hle
  | true => exact Nat.lt_of_le_of_ne (Nat.le_of_not_lt hle) (htie.resolve_right nofun).symm

include hf hg in
theorem reads_binary (operator : Operator) :
    Reads operator.binding (leftText operator f ++ operator.symbol ++ rightText operator g)
      (binary operator f.canonical g.canonical) := by
  cases operator with
  | add => exact .sum (.inl rfl) (reads_operand hf (by decide)) (reads_operand hg (by decide))
  | subtract => exact .sum (.inr rfl) (reads_operand hf (by decide)) (reads_operand hg (by decide))
  | multiply =>
      exact .product (.inl rfl) (reads_operand hf (by decide)) (reads_operand hg (by decide))
  | divide =>
      exact .product (.inr rfl) (reads_operand hf (by decide)) (reads_operand hg (by decide))
  | power => exact .power (reads_operand hf (by decide)) (reads_operand hg (by decide))

end Operands

/-- The text of an expression reads as the expression at its own level. -/
theorem reads_text (e : Expr) : Reads e.binding e.text e.canonical := by
  induction e with
  | constant value => exact reads_constant value
  | var => exact ⟨.var, rfl, rfl⟩
  | negate f ih =>
      rw [text_negate]
      exact (reads_operand ih (by decide)).minus
  | apply function f ih =>
      rw [text_apply]
      exact (ih.loosen (Nat.zero_le _)).call function
  | binary operator f g ihf ihg =>
      rw [text_binary]
      exact reads_binary ihf ihg operator

theorem reads_text_sum (e : Expr) : Reads .sum e.text e.canonical :=
  e.reads_text.loosen (Nat.zero_le _)

/-- All phrases of a text denote the canonical form of the expression that it was
written for. -/
theorem value_eq_of_chars_eq {e : Expr} {t : Phrase .sum} (hchars : t.chars = e.text.toList) :
    t.value = e.canonical := by
  obtain ⟨t', hchars', hvalue⟩ := e.reads_text_sum
  rw [Phrase.eq_of_chars_eq (hchars.trans hchars'.symm), hvalue]

/-- Only expressions with one canonical form share a text. -/
theorem canonical_eq_of_text_eq {a b : Expr} (h : a.text = b.text) :
    a.canonical = b.canonical := by
  obtain ⟨t, hchars, hvalue⟩ := a.reads_text_sum
  rw [← hvalue]
  exact value_eq_of_chars_eq (hchars.trans (congrArg String.toList h))

/-- Infix text is read in exactly one way, as the expression that it was
written for, so that only expressions with one canonical form share a text. -/
theorem text_reads_back (e : Expr) :
    (∃! t : Phrase .sum, t.chars = e.text.toList) ∧
      (∀ t : Phrase .sum, t.chars = e.text.toList → t.value = e.canonical) ∧
        ∀ e' : Expr, e.text = e'.text → e.canonical = e'.canonical := by
  obtain ⟨t, hchars, -⟩ := e.reads_text_sum
  refine ⟨⟨t, hchars, ?_⟩, ?_, ?_⟩
  · intro t' hchars'
    exact Phrase.eq_of_chars_eq (hchars'.trans hchars.symm)
  · intro t' hchars'
    exact value_eq_of_chars_eq hchars'
  · intro e' htext
    exact canonical_eq_of_text_eq htext

end Expr

end SymbolicCalculus
