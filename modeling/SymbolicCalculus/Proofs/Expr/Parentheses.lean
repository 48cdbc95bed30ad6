import SymbolicCalculus.Proofs.Expr.Characters
import SymbolicCalculus.Proofs.Expr.Reading

/-! # Parentheses are minimal

The grammar reads each operand at a level of its own, and an operand that binds
looser can only stand there between parentheses. The text of an expression has these
parentheses and no others, so no text that reads as the expression has fewer.
-/

namespace SymbolicCalculus

/-- The level at which the grammar reads the left operand of an operator. -/
def Operator.leftLevel : Operator → Binding
  | add | subtract => .sum
  | multiply | divide => .product
  | power => .primary

/-- The level at which the grammar reads the right operand of an operator. -/
def Operator.rightLevel : Operator → Binding
  | add | subtract => .product
  | multiply | divide => .signed
  | power => .power

/-- A tie asks for the next tighter level. -/
theorem needsParentheses_eq (parent operand : Binding) (onTie : Bool) :
    parent.needsParentheses operand onTie =
      decide (operand.strength < parent.strength + onTie.toNat) := by
  rw [Bool.eq_iff_iff]
  simp only [Binding.needsParentheses, Bool.or_eq_true, Bool.and_eq_true, decide_eq_true_eq,
    beq_iff_eq]
  cases onTie with
  | false =>
      simp only [Bool.false_eq_true, and_false, or_false, Bool.toNat_false]
      omega
  | true =>
      simp only [and_true, Bool.toNat_true]
      omega

theorem count_enclosed (needed : Bool) (text : String) :
    (enclosed needed text).toList.count '(' = text.toList.count '(' + if needed then 1 else 0 := by
  cases needed with
  | false => rfl
  | true => simp [enclosed, String.toList_append, Nat.add_comm]

namespace Expr

variable {operator : Operator} {function : NamedFunction} {e f g f' g' : Expr}
variable {value : Binary64} {b b' : Binding}

/-- The parentheses in the text of an expression, counted where they open. -/
def parentheses (e : Expr) : Nat := e.text.toList.count '('

/-- The parentheses that it takes to write an expression where nothing may stand that
binds looser than `b`. -/
def parenthesesAt (e : Expr) (b : Binding) : Nat :=
  e.parentheses + if e.binding.strength < b.strength then 1 else 0

section Text

theorem parenthesesAt_of_le (h : b.strength ≤ e.binding.strength) :
    e.parenthesesAt b = e.parentheses := by
  rw [parenthesesAt, if_neg (Nat.not_lt_of_le h), Nat.add_zero]

theorem parenthesesAt_sum (e : Expr) : e.parenthesesAt .sum = e.parentheses :=
  parenthesesAt_of_le (Nat.zero_le _)

theorem parenthesesAt_of_eq (h : e.binding = b) : e.parenthesesAt b = e.parentheses :=
  parenthesesAt_of_le (by rw [h])

theorem parenthesesAt_mono (h : b.strength ≤ b'.strength) :
    e.parenthesesAt b ≤ e.parenthesesAt b' := by
  unfold parenthesesAt
  split
  next hlt => rw [if_pos (hlt.trans_le h)]
  next => exact Nat.le_add_right _ _

theorem parenthesesAt_le_succ : e.parenthesesAt b ≤ e.parentheses + 1 := by
  unfold parenthesesAt
  split
  · exact Nat.le_refl _
  · exact Nat.le_succ _

/-- An operand takes the parentheses of the level at which it is read. -/
theorem count_enclosed_operand {parent : Binding} {onTie : Bool} (level : Binding)
    (hlevel : level.strength = parent.strength + onTie.toNat) :
    (enclosed (parent.needsParentheses f.binding onTie) f.text).toList.count '(' =
      f.parenthesesAt level := by
  rw [count_enclosed, needsParentheses_eq, ← hlevel]
  simp only [decide_eq_true_eq]
  rfl

theorem parentheses_constant (value : Binary64) : (constant value).parentheses = 0 := by
  rw [parentheses, text_constant, String.toList_ofList, List.count_eq_zero]
  intro hc
  exact (isPlain_of_mem_number hc).2.1 rfl

theorem parenthesesAt_negate : (negate f).parenthesesAt .signed = f.parenthesesAt .power := by
  have hown : (negate f).parenthesesAt .signed = (negate f).parentheses :=
    parenthesesAt_of_eq rfl
  rw [hown, parentheses, text_negate, String.toList_append, List.count_append, negatedText,
    count_enclosed_operand .power rfl]
  exact Nat.zero_add _

theorem parenthesesAt_apply :
    (apply function f).parenthesesAt .primary = f.parenthesesAt .sum + 1 := by
  have hown : (apply function f).parenthesesAt .primary = (apply function f).parentheses :=
    parenthesesAt_of_eq rfl
  have hsymbol : function.symbol.toList.count '(' = 0 := by cases function <;> decide
  rw [hown, parenthesesAt_sum, parentheses, text_apply_eq_enclosed,
    String.toList_append, List.count_append, count_enclosed, hsymbol]
  exact Nat.zero_add _

theorem parenthesesAt_binary (operator : Operator) (f g : Expr) :
    (binary operator f g).parenthesesAt operator.binding =
      f.parenthesesAt operator.leftLevel + g.parenthesesAt operator.rightLevel := by
  have hown : (binary operator f g).parenthesesAt operator.binding =
      (binary operator f g).parentheses := parenthesesAt_of_eq rfl
  have hsymbol : operator.symbol.toList.count '(' = 0 := by cases operator <;> decide
  have hleft : (leftText operator f).toList.count '(' = f.parenthesesAt operator.leftLevel :=
    count_enclosed_operand _ (by cases operator <;> rfl)
  have hright : (rightText operator g).toList.count '(' = g.parenthesesAt operator.rightLevel :=
    count_enclosed_operand _ (by cases operator <;> rfl)
  rw [hown, parentheses, text_binary, String.toList_append,
    String.toList_append, List.count_append, List.count_append, hleft, hright, hsymbol,
    Nat.add_zero]

end Text

/-- No NaN of the expression has its sign bit set. -/
def UnsignedNans (e : Expr) : Prop :=
  e.ForallConstants fun value => value.isNaN = true → value.negative = false

section Canonical

theorem canonical_constant_cases (value : Binary64) :
    ((∃ value', (constant value).canonical = constant value') ∧
        (value.isNaN = true ∨ value.negative = false)) ∨
      (constant value).canonical = negate (constant value.abs) ∧ value.negative = true := by
  rw [canonical]
  split
  next hnan => exact .inl ⟨⟨_, rfl⟩, .inl hnan⟩
  next =>
      split
      next hsign => exact .inr ⟨rfl, hsign⟩
      next hsign => exact .inl ⟨⟨_, rfl⟩, .inr (Bool.eq_false_iff.mpr hsign)⟩

theorem eq_var_of_canonical (h : e.canonical = var) : e = var := by
  cases e with
  | constant value =>
      rcases canonical_constant_cases value with ⟨⟨value', hvalue⟩, -⟩ | ⟨hvalue, -⟩ <;>
        cases hvalue.symm.trans h
  | var => rfl
  | _ => cases h

theorem eq_apply_of_canonical (h : e.canonical = apply function f') :
    ∃ f, e = apply function f ∧ f.canonical = f' := by
  cases e with
  | constant value =>
      rcases canonical_constant_cases value with ⟨⟨value', hvalue⟩, -⟩ | ⟨hvalue, -⟩ <;>
        cases hvalue.symm.trans h
  | apply function f =>
      cases h
      exact ⟨f, rfl, rfl⟩
  | _ => cases h

theorem eq_binary_of_canonical (h : e.canonical = binary operator f' g') :
    ∃ f g, e = binary operator f g ∧ f.canonical = f' ∧ g.canonical = g' := by
  cases e with
  | constant value =>
      rcases canonical_constant_cases value with ⟨⟨value', hvalue⟩, -⟩ | ⟨hvalue, -⟩ <;>
        cases hvalue.symm.trans h
  | binary operator f g =>
      cases h
      exact ⟨f, g, rfl, rfl, rfl⟩
  | _ => cases h

/-- A negation is the canonical form of a negation, or of a constant with a sign. -/
theorem eq_negate_of_canonical (h : e.canonical = negate f') :
    (∃ f, e = negate f ∧ f.canonical = f') ∨
      ∃ value, e = constant value ∧ value.negative = true := by
  cases e with
  | constant value =>
      rcases canonical_constant_cases value with ⟨⟨value', hvalue⟩, -⟩ | ⟨-, hsign⟩
      · cases hvalue.symm.trans h
      · exact .inr ⟨value, rfl, hsign⟩
  | negate f =>
      cases h
      exact .inl ⟨f, rfl, rfl⟩
  | _ => cases h

/-- Without signs of NaNs a constant is the canonical form only of what needs no
parentheses anywhere. -/
theorem parenthesesAt_of_canonical_constant (he : e.UnsignedNans)
    (h : e.canonical = constant value) (b : Binding) : e.parenthesesAt b = 0 := by
  cases e with
  | constant value' =>
      have hsign : value'.negative = false := by
        rcases canonical_constant_cases value' with ⟨-, hnan | hsign⟩ | ⟨hvalue, -⟩
        · exact forallConstants_constant.mp he hnan
        · exact hsign
        · cases hvalue.symm.trans h
      have hbinding : (constant value').binding = .primary := by simp [binding, hsign]
      rw [parenthesesAt_of_le, parentheses_constant]
      rw [hbinding]
      cases b <;> decide
  | _ => cases h

end Canonical

end Expr

/-- The parentheses in the text of a phrase, counted where they open. -/
def Phrase.parentheses {b : Binding} (t : Phrase b) : Nat := t.chars.count '('

namespace Phrase

variable {operator : Operator} {function : NamedFunction} {e : Expr}

section Count

theorem parentheses_sum (h : operator = .add ∨ operator = .subtract) (left : Phrase .sum)
    (right : Phrase .product) :
    (sum operator h left right).parentheses = left.parentheses + right.parentheses := by
  have hspelling : operator.spelling.count '(' = 0 := by cases operator <;> decide
  rw [parentheses, chars_sum, List.count_append, List.count_append, hspelling, Nat.zero_add]
  rfl

theorem parentheses_product (h : operator = .multiply ∨ operator = .divide)
    (left : Phrase .product) (right : Phrase .signed) :
    (product operator h left right).parentheses = left.parentheses + right.parentheses := by
  have hspelling : operator.spelling.count '(' = 0 := by cases operator <;> decide
  rw [parentheses, chars_product, List.count_append, List.count_append, hspelling, Nat.zero_add]
  rfl

theorem parentheses_minus (operand : Phrase .power) :
    (minus operand).parentheses = operand.parentheses :=
  List.count_cons_of_ne (by decide)

theorem parentheses_power (base : Phrase .primary) (exponent : Phrase .power) :
    (power base exponent).parentheses = base.parentheses + exponent.parentheses := by
  rw [parentheses, chars_power, List.count_append, List.count_cons_of_ne (by decide)]
  rfl

theorem parentheses_call (function : NamedFunction) (argument : Phrase .sum) :
    (call function argument).parentheses = argument.parentheses + 1 := by
  have hspelling : function.spelling.count '(' = 0 := by cases function <;> decide
  rw [parentheses, chars_call, List.count_append, hspelling, List.count_cons_self,
    List.count_append]
  exact Nat.zero_add _

theorem parentheses_group (inner : Phrase .sum) :
    (group inner).parentheses = inner.parentheses + 1 := by
  rw [parentheses, chars_group, List.count_cons_self, List.count_append]
  rfl

end Count

/-- Whatever a phrase reads has, at the level of the phrase, at least the parentheses
that the expression takes there. -/
theorem parenthesesAt_le {b : Binding} (t : Phrase b) (he : e.UnsignedNans)
    (hvalue : t.value = e.canonical) : e.parenthesesAt b ≤ t.parentheses := by
  induction t generalizing e with
  | sum operator hoperator left right ihleft ihright =>
      obtain ⟨f, g, rfl, hf, hg⟩ := Expr.eq_binary_of_canonical hvalue.symm
      obtain ⟨hef, heg⟩ := Expr.forallConstants_binary.mp he
      have hleft := ihleft hef hf.symm
      have hright := ihright heg hg.symm
      rw [parentheses_sum]
      rcases hoperator with rfl | rfl
      · exact (Expr.parenthesesAt_binary .add f g).trans_le (Nat.add_le_add hleft hright)
      · exact (Expr.parenthesesAt_binary .subtract f g).trans_le (Nat.add_le_add hleft hright)
  | product operator hoperator left right ihleft ihright =>
      obtain ⟨f, g, rfl, hf, hg⟩ := Expr.eq_binary_of_canonical hvalue.symm
      obtain ⟨hef, heg⟩ := Expr.forallConstants_binary.mp he
      have hleft := ihleft hef hf.symm
      have hright := ihright heg hg.symm
      rw [parentheses_product]
      rcases hoperator with rfl | rfl
      · exact (Expr.parenthesesAt_binary .multiply f g).trans_le (Nat.add_le_add hleft hright)
      · exact (Expr.parenthesesAt_binary .divide f g).trans_le (Nat.add_le_add hleft hright)
  | minus operand ih =>
      rw [parentheses_minus]
      rcases Expr.eq_negate_of_canonical hvalue.symm with ⟨f, rfl, hf⟩ | ⟨value, rfl, hsign⟩
      · rw [Expr.parenthesesAt_negate]
        exact ih (Expr.forallConstants_negate.mp he) hf.symm
      · -- A constant with its sign brings its own minus, and no parentheses.
        have hbinding : (Expr.constant value).binding = .signed := by simp [Expr.binding, hsign]
        rw [Expr.parenthesesAt_of_eq hbinding, Expr.parentheses_constant]
        exact Nat.zero_le _
  | power base exponent ihbase ihexponent =>
      obtain ⟨f, g, rfl, hf, hg⟩ := Expr.eq_binary_of_canonical hvalue.symm
      obtain ⟨hef, heg⟩ := Expr.forallConstants_binary.mp he
      have hleft := ihbase hef hf.symm
      have hright := ihexponent heg hg.symm
      rw [parentheses_power]
      exact (Expr.parenthesesAt_binary .power f g).trans_le (Nat.add_le_add hleft hright)
  | number _ | infinity | nan =>
      rw [Expr.parenthesesAt_of_canonical_constant he hvalue.symm]
      exact Nat.zero_le _
  | var =>
      obtain rfl := Expr.eq_var_of_canonical hvalue.symm
      exact Nat.zero_le _
  | call function argument ih =>
      obtain ⟨f, rfl, hf⟩ := Expr.eq_apply_of_canonical hvalue.symm
      rw [parentheses_call, Expr.parenthesesAt_apply]
      exact Nat.succ_le_succ (ih (Expr.forallConstants_apply.mp he) hf.symm)
  | group inner ih =>
      have hinner := ih he hvalue
      rw [Expr.parenthesesAt_sum] at hinner
      rw [parentheses_group]
      exact Expr.parenthesesAt_le_succ.trans (Nat.succ_le_succ hinner)
  | ofProduct operand ih | ofSigned operand ih | ofPower operand ih | ofPrimary operand ih =>
      exact (Expr.parenthesesAt_mono (by decide)).trans (ih he hvalue)

end Phrase

namespace Expr

/-- The text of an expression reads as the expression, and no other text that does has
fewer parentheses, whatever redundant ones it may have. So the text with a pair of
parentheses taken away reads as something else, or cannot be read. NaNs are set apart
here: one whose sign bit is set stands between parentheses as the base of a power,
where its text needs none. -/
theorem parentheses_minimal {e : Expr} (he : e.UnsignedNans) :
    (∃ t : Phrase .sum, t.chars = e.text.toList ∧ t.value = e.canonical) ∧
      (∀ t : Phrase .sum, t.value = e.canonical →
        e.text.toList.count '(' ≤ t.chars.count '(') ∧
      ∀ before inner after, e.text.toList = before ++ '(' :: (inner ++ ')' :: after) →
        ∀ t : Phrase .sum, t.chars = before ++ (inner ++ after) → t.value ≠ e.canonical := by
  have hleast (t : Phrase .sum) (hvalue : t.value = e.canonical) :
      e.text.toList.count '(' ≤ t.chars.count '(' := by
    have hle := t.parenthesesAt_le he hvalue
    rwa [parenthesesAt_sum] at hle
  refine ⟨e.reads_text_sum, hleast, ?_⟩
  intro before inner after htext t hchars hvalue
  have hle := hleast t hvalue
  rw [htext, hchars] at hle
  simp only [List.count_append, List.count_cons_self,
    List.count_cons_of_ne (by decide : ')' ≠ '(')] at hle
  omega

/-- The parentheses of `(-x)^x` are needed, and without them the text reads as another
expression. -/
theorem parentheses_minimal_power :
    (power (negate var) var).UnsignedNans ∧
      (∀ t : Phrase .sum, t.value = (power (negate var) var).canonical →
        1 ≤ t.chars.count '(') ∧
      ∀ t : Phrase .sum, t.chars = ['-', 'x', '^', 'x'] →
        t.value ≠ (power (negate var) var).canonical := by
  have he : (power (negate var) var).UnsignedNans := by
    simp [UnsignedNans, power, forallConstants_binary, forallConstants_negate,
      forallConstants_var]
  obtain ⟨-, hleast, hremoved⟩ := parentheses_minimal he
  refine ⟨he, hleast, ?_⟩
  intro t hchars
  exact hremoved [] ['-', 'x'] ['^', 'x'] rfl t hchars

example :
    (power (constant { Binary64.nan with negative := true }) var).text = "(NaN)^x" := by
  decide

end Expr

end SymbolicCalculus
