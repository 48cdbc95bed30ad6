import SymbolicCalculus.Proofs.Expr.Layout
import SymbolicCalculus.Proofs.Number.Numeral

/-! # Characters of infix text

Infix text is never empty, takes one byte for each character, and closes every
parenthesis that it opens.
-/

namespace SymbolicCalculus

/-- Every character takes one byte. -/
def Ascii (text : String) : Prop := ∀ c ∈ text.toList, c.utf8Size = 1

instance (text : String) : Decidable (Ascii text) := List.decidableBAll _ text.toList

theorem ascii_append {text text' : String} : Ascii (text ++ text') ↔ Ascii text ∧ Ascii text' := by
  simp only [Ascii, String.toList_append, List.mem_append, or_imp, forall_and]

theorem Ascii.utf8ByteSize {text : String} (h : Ascii text) : text.utf8ByteSize = text.length := by
  obtain ⟨chars, rfl⟩ := text.exists_eq_ofList
  rw [String.length_ofList]
  induction chars with
  | nil => rfl
  | cons c chars ih =>
      rw [← List.singleton_append, String.ofList_append, ascii_append] at h
      rw [← List.singleton_append, String.ofList_append, String.utf8ByteSize_append, ih h.2,
        List.length_append]
      have hc : c.utf8Size = 1 := h.1 c (by simp)
      rw [← String.singleton_eq_ofList, String.utf8ByteSize_singleton, hc, List.length_singleton]

/-- Every closing parenthesis has an opening one before it, and none stays open. -/
structure Balanced (text : String) : Prop where
  count_le : ∀ front, front <+: text.toList → front.count ')' ≤ front.count '('
  count_eq : text.toList.count ')' = text.toList.count '('

namespace Balanced

variable {text text' : String}

theorem of_forall_ne (h : ∀ c ∈ text.toList, c ≠ '(' ∧ c ≠ ')') : Balanced text := by
  have hcount {front : List Char} (hfront : front <+: text.toList) :
      front.count '(' = 0 ∧ front.count ')' = 0 := by
    rw [List.count_eq_zero, List.count_eq_zero]
    exact ⟨fun hc => (h _ (hfront.subset hc)).1 rfl, fun hc => (h _ (hfront.subset hc)).2 rfl⟩
  constructor
  · intro front hfront
    rw [(hcount hfront).1, (hcount hfront).2]
  · rw [(hcount List.prefix_rfl).1, (hcount List.prefix_rfl).2]

theorem append (h : Balanced text) (h' : Balanced text') : Balanced (text ++ text') := by
  constructor
  · rintro front ⟨rest, heq⟩
    rw [String.toList_append] at heq
    -- A prefix ends in the first text, or it holds all of it.
    rcases List.append_eq_append_iff.mp heq with ⟨middle, htext, -⟩ | ⟨middle, rfl, htext'⟩
    · exact h.count_le front ⟨middle, htext.symm⟩
    · have hfirst := h.count_eq
      have hsecond := h'.count_le middle ⟨rest, htext'.symm⟩
      rw [List.count_append, List.count_append]
      omega
  · have hfirst := h.count_eq
    have hsecond := h'.count_eq
    rw [String.toList_append, List.count_append, List.count_append]
    omega

theorem parenthesize (h : Balanced text) : Balanced ("(" ++ text ++ ")") := by
  have heq := h.count_eq
  have hchars : ("(" ++ text ++ ")").toList = '(' :: (text.toList ++ [')']) := by
    simp [String.toList_append]
  constructor
  · intro front hfront
    rw [hchars, List.prefix_cons_iff] at hfront
    rcases hfront with rfl | ⟨inner, rfl, hinner⟩
    · exact Nat.le_refl _
    · rcases List.prefix_concat_iff.mp hinner with rfl | hinner
      · simp [heq]
      · have hle := h.count_le inner hinner
        simp only [List.count_cons_self, List.count_cons_of_ne (by decide : '(' ≠ ')')]
        omega
  · rw [hchars]
    simp [heq]

theorem enclosed (h : Balanced text) (needed : Bool) : Balanced (enclosed needed text) := by
  cases needed with
  | false => exact h
  | true => exact h.parenthesize

end Balanced

def IsPlain (c : Char) : Prop := c.utf8Size = 1 ∧ c ≠ '(' ∧ c ≠ ')'

instance (c : Char) : Decidable (IsPlain c) :=
  inferInstanceAs (Decidable (c.utf8Size = 1 ∧ c ≠ '(' ∧ c ≠ ')'))

theorem isPlain_of_isDigit {c : Char} (hdigit : c.isDigit) : IsPlain c := by
  simp only [Char.isDigit, Bool.and_eq_true, decide_eq_true_eq] at hdigit
  refine ⟨Char.utf8Size_eq_one_iff.mpr (UInt32.le_trans hdigit.2 (by decide)), ?_, ?_⟩
  · rintro rfl
    exact absurd hdigit.1 (by decide)
  · rintro rfl
    exact absurd hdigit.1 (by decide)

/-- The characters of numbers that are not digits. -/
def numberLetters : List Char := ['-', '.', 'i', 'n', 'f', 'N', 'a']

theorem isDigit_or_mem_of_mem_number {b : Binary64} {c : Char}
    (hc : c ∈ NumberLayout.plain.number b) : c.isDigit ∨ c ∈ numberLetters := by
  rcases b.number_cases with ⟨-, hnan⟩ | ⟨-, magnitude, hnumber, hmagnitude⟩
  · rw [hnan] at hc
    exact .inr ((by decide : ['N', 'a', 'N'] ⊆ numberLetters) hc)
  · rw [hnumber, List.mem_append] at hc
    rcases hc with hsign | hc
    · split at hsign
      · rw [List.mem_singleton.mp hsign]
        decide
      · cases hsign
    · rcases hmagnitude with ⟨-, rfl⟩ | ⟨n, -, rfl⟩
      · exact .inr ((by decide : ['i', 'n', 'f'] ⊆ numberLetters) hc)
      · rcases n.isDigit_or_eq_of_mem_chars c hc with hdigit | rfl
        · exact .inl hdigit
        · decide

theorem isPlain_of_mem_number {b : Binary64} {c : Char}
    (hc : c ∈ NumberLayout.plain.number b) : IsPlain c := by
  have hletters : numberLetters.all (fun c => decide (IsPlain c)) := by decide
  rcases isDigit_or_mem_of_mem_number hc with hdigit | hletter
  · exact isPlain_of_isDigit hdigit
  · exact of_decide_eq_true (List.all_eq_true.mp hletters c hletter)

theorem number_ne_nil (b : Binary64) : NumberLayout.plain.number b ≠ [] := by
  rcases b.number_cases with ⟨-, hnan⟩ | ⟨-, magnitude, hnumber, hmagnitude⟩
  · simp [hnan]
  · rw [hnumber]
    refine List.append_ne_nil_of_right_ne_nil _ ?_
    rcases hmagnitude with ⟨-, rfl⟩ | ⟨n, -, rfl⟩
    · simp
    · obtain ⟨c, rest, hchars, -⟩ := n.exists_chars_eq_cons
      simp [hchars]

theorem Ascii.enclosed {text : String} (h : Ascii text) (needed : Bool) :
    Ascii (enclosed needed text) := by
  cases needed with
  | false => exact h
  | true => exact ascii_append.mpr ⟨ascii_append.mpr ⟨by decide, h⟩, by decide⟩

theorem ascii_function_symbol (function : NamedFunction) : Ascii function.symbol := by
  cases function <;> decide

theorem ascii_operator_symbol (operator : Operator) : Ascii operator.symbol := by
  cases operator <;> decide

theorem balanced_function_symbol (function : NamedFunction) : Balanced function.symbol := by
  cases function <;> exact .of_forall_ne (by simp [NamedFunction.symbol])

theorem balanced_operator_symbol (operator : Operator) : Balanced operator.symbol := by
  cases operator <;> exact .of_forall_ne (by simp [Operator.symbol])

theorem symbol_length_pos (operator : Operator) : 0 < operator.symbol.length := by
  cases operator <;> decide

namespace Expr

theorem ascii_text (e : Expr) : Ascii e.text := by
  induction e with
  | constant value =>
      rw [text_constant]
      intro c hc
      rw [String.toList_ofList] at hc
      exact (isPlain_of_mem_number hc).1
  | var => decide
  | negate f ih =>
      rw [text_negate, ascii_append]
      exact ⟨by decide, ih.enclosed _⟩
  | apply function f ih =>
      rw [text_apply_eq_enclosed, ascii_append]
      exact ⟨ascii_function_symbol function, ih.enclosed true⟩
  | binary operator f g ihf ihg =>
      rw [text_binary, ascii_append, ascii_append]
      exact ⟨⟨ihf.enclosed _, ascii_operator_symbol operator⟩, ihg.enclosed _⟩

theorem balanced_text (e : Expr) : Balanced e.text := by
  induction e with
  | constant value =>
      rw [text_constant]
      apply Balanced.of_forall_ne
      intro c hc
      rw [String.toList_ofList] at hc
      exact (isPlain_of_mem_number hc).2
  | var => exact .of_forall_ne (by simp [text_var, variableName])
  | negate f ih =>
      rw [text_negate]
      exact (Balanced.of_forall_ne (by simp)).append (ih.enclosed _)
  | apply function f ih =>
      rw [text_apply_eq_enclosed]
      exact (balanced_function_symbol function).append (ih.enclosed true)
  | binary operator f g ihf ihg =>
      rw [text_binary]
      exact ((ihf.enclosed _).append (balanced_operator_symbol operator)).append (ihg.enclosed _)

theorem text_length_pos (e : Expr) : 0 < e.text.length := by
  cases e with
  | constant value =>
      rw [text_constant, String.length_ofList]
      exact List.length_pos_iff.mpr (number_ne_nil value)
  | var => decide
  | negate f =>
      rw [text_negate, String.length_append]
      exact Nat.lt_add_right _ (by decide)
  | apply function f =>
      rw [text_apply, String.length_append]
      exact Nat.lt_add_left _ (by decide)
  | binary operator f g =>
      rw [text_binary, String.length_append, String.length_append]
      have hsymbol := symbol_length_pos operator
      omega

end Expr

end SymbolicCalculus
