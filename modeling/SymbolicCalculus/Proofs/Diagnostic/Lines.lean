import SymbolicCalculus.Diagnostic.Report
import SymbolicCalculus.Proofs.Expr.Characters

/-! # Lines of a report

Colours leave no trace in a report, and no other text is lost with them. A text
on one line that ends visibly is shown as it is, and infix text always is such
a text.
-/

namespace SymbolicCalculus

section Colors

variable {chars front rest text : List Char} {skipped : Nat}

theorem dropColors_length_append (front rest : List Char) :
    dropColors front.length (front ++ rest) = dropColors 0 rest := by
  induction front with
  | nil => rfl
  | cons c front ih => exact ih

theorem dropColors_cons_of_ne {c : Char} (hc : c ≠ '\x1b') (rest : List Char) :
    dropColors 0 (c :: rest) = c :: dropColors 0 rest := by
  rw [dropColors, if_neg (by simpa using hc)]

theorem dropColors_escape_of_some {length : Nat} (h : colorLength? rest = some length) :
    dropColors 0 ('\x1b' :: rest) = dropColors length rest := by
  rw [dropColors, if_pos (by decide), h]

theorem dropColors_escape_of_none (h : colorLength? rest = none) :
    dropColors 0 ('\x1b' :: rest) = '\x1b' :: dropColors 0 rest := by
  rw [dropColors, if_pos (by decide), h]

theorem dropColors_append (hfront : '\x1b' ∉ front) (rest : List Char) :
    dropColors 0 (front ++ rest) = front ++ dropColors 0 rest := by
  induction front with
  | nil => rfl
  | cons c front ih =>
      rw [List.mem_cons, not_or] at hfront
      rw [List.cons_append, dropColors_cons_of_ne (Ne.symm hfront.1), ih hfront.2,
        List.cons_append]

theorem dropColors_of_not_mem (htext : '\x1b' ∉ text) : dropColors 0 text = text := by
  have happend := dropColors_append htext []
  rwa [List.append_nil, dropColors, List.append_nil] at happend

theorem dropColors_sublist (skipped : Nat) (chars : List Char) :
    (dropColors skipped chars).Sublist chars := by
  fun_induction dropColors skipped chars with
  | case1 => exact .slnil
  | case2 skipped c rest ih => exact ih.cons c
  | case3 c rest length h ih => exact ih.cons c
  | case4 c rest h ih => exact ih.cons_cons c

/-- The characters of the numbers in a colour sequence. -/
def isParameter (c : Char) : Bool := c.isDigit || c == ';'

theorem colorLength?_cons (rest : List Char) :
    colorLength? ('[' :: rest) =
      if rest[(rest.takeWhile isParameter).length]? = some 'm' then
        some ((rest.takeWhile isParameter).length + 2)
      else none := rfl

theorem colorLength?_of_parameters {parameters : List Char}
    (hparameters : parameters.all isParameter) (rest : List Char) :
    colorLength? ('[' :: (parameters ++ 'm' :: rest)) = some (parameters.length + 2) := by
  have htake : (parameters ++ 'm' :: rest).takeWhile isParameter = parameters := by
    rw [List.takeWhile_append_of_pos (List.all_eq_true.mp hparameters),
      List.takeWhile_cons_of_neg (by decide), List.append_nil]
  rw [colorLength?_cons, htake, List.getElem?_append_right (Nat.le_refl _), Nat.sub_self]
  rfl

theorem dropColors_of_parameters {parameters : List Char}
    (hparameters : parameters.all isParameter) (rest : List Char) :
    dropColors 0 ('\x1b' :: '[' :: (parameters ++ 'm' :: rest)) = dropColors 0 rest := by
  rw [dropColors_escape_of_some (colorLength?_of_parameters hparameters rest)]
  have hlength := dropColors_length_append ('[' :: (parameters ++ ['m'])) rest
  simpa using hlength

/-- The numbers that choose a colour. -/
def colorParameters (red green blue : Nat) : List Char :=
  ['3', '8', ';', '2', ';'] ++ Nat.toDigits 10 red ++ [';'] ++ Nat.toDigits 10 green ++ [';'] ++
    Nat.toDigits 10 blue

theorem all_isParameter_colorParameters (red green blue : Nat) :
    (colorParameters red green blue).all isParameter := by
  have hdigits (n : Nat) : (Nat.toDigits 10 n).all isParameter := by
    rw [List.all_eq_true]
    intro c hc
    rw [isParameter, (isDigitRow_toDigits n).isDigit c hc, Bool.true_or]
  simp only [colorParameters, List.all_append, Bool.and_eq_true]
  exact ⟨⟨⟨⟨⟨by decide, hdigits red⟩, by decide⟩, hdigits green⟩, by decide⟩, hdigits blue⟩

theorem toList_colored (red green blue : Nat) (text : String) :
    (colored red green blue text).toList =
      '\x1b' :: '[' :: (colorParameters red green blue ++ 'm' :: text.toList) ++
        ['\x1b', '[', '0', 'm'] := by
  -- An equation of `colored` would be proved by comparing texts character by character.
  delta colored
  simp [colorParameters]

/-- A text in a colour looks as it does without one. -/
theorem dropColors_colored {text : String} (htext : '\x1b' ∉ text.toList) (red green blue : Nat)
    (rest : List Char) :
    dropColors 0 ((colored red green blue text).toList ++ rest) =
      text.toList ++ dropColors 0 rest := by
  have hreset : dropColors 0 (['\x1b', '[', '0', 'm'] ++ rest) = dropColors 0 rest :=
    @dropColors_of_parameters ['0'] (by decide) rest
  rw [toList_colored, List.append_assoc, List.cons_append, List.cons_append, List.append_assoc,
    List.cons_append, dropColors_of_parameters (all_isParameter_colorParameters red green blue),
    dropColors_append htext, hreset]

theorem takeWhile_append_colon (chars rest : List Char) :
    (chars ++ ':' :: rest).takeWhile isParameter = chars.takeWhile isParameter := by
  induction chars with
  | nil => rfl
  | cons c chars ih => rw [List.cons_append, List.takeWhile_cons, List.takeWhile_cons, ih]

theorem getElem?_append_colon (chars rest : List Char) {index : Nat} (h : index ≤ chars.length) :
    (chars ++ ':' :: rest)[index]? = some 'm' ↔ chars[index]? = some 'm' := by
  rcases Nat.lt_or_eq_of_le h with hlt | rfl
  · rw [List.getElem?_append_left hlt]
  · simp

/-- A colour sequence does not reach over a colon. -/
theorem colorLength?_append_colon (chars rest : List Char) :
    colorLength? (chars ++ ':' :: rest) = colorLength? chars := by
  cases chars with
  | nil => rfl
  | cons c chars =>
      by_cases hc : c = '['
      · subst hc
        have hlength := (chars.takeWhile_prefix isParameter).length_le
        simp only [List.cons_append, colorLength?_cons, takeWhile_append_colon,
          getElem?_append_colon chars rest hlength]
      · simp [colorLength?, hc]

theorem length_le_of_colorLength? {length : Nat} (h : colorLength? chars = some length) :
    length ≤ chars.length := by
  cases chars with
  | nil => cases h
  | cons c chars =>
      by_cases hc : c = '['
      · subst hc
        rw [colorLength?_cons] at h
        split at h
        next hletter =>
            obtain ⟨hlt, -⟩ := List.getElem?_eq_some_iff.mp hletter
            cases h
            rw [List.length_cons]
            omega
        next => cases h
      · simp [colorLength?, hc] at h

/-- Whatever comes before a colon has no effect after it. -/
theorem dropColors_append_colon (hskipped : skipped ≤ chars.length) (hrest : '\x1b' ∉ rest) :
    dropColors skipped (chars ++ ':' :: rest) = dropColors skipped chars ++ ':' :: rest := by
  fun_induction dropColors skipped chars with
  | case1 =>
      obtain rfl : _ = 0 := Nat.le_zero.mp hskipped
      exact dropColors_of_not_mem (by simpa using hrest)
  | case2 skipped c chars ih => exact ih (Nat.le_of_succ_le_succ hskipped)
  | case3 c chars length h ih =>
      -- A sequence begun before the colon also ends there, so nothing of the rest is skipped.
      split at h
      next hc =>
          have hc : c = '\x1b' := by simpa using hc
          subst hc
          rw [List.cons_append, dropColors_escape_of_some
            ((colorLength?_append_colon chars rest).trans h), ih (length_le_of_colorLength? h)]
      next => cases h
  | case4 c chars h ih =>
      by_cases hc : c = '\x1b'
      · subst hc
        rw [if_pos (by decide)] at h
        rw [List.cons_append, dropColors_escape_of_none
          ((colorLength?_append_colon chars rest).trans h), ih (Nat.zero_le _), List.cons_append]
      · rw [List.cons_append, dropColors_cons_of_ne hc, ih (Nat.zero_le _), List.cons_append]

end Colors

/-- A text on one line, with a character at its end that is seen. -/
structure IsLine (text : String) : Prop where
  feed : '\n' ∉ text.toList
  last : ∃ c ∈ text.toList.getLast?, c ≠ ' ' ∧ c ≠ '\r'

instance (text : String) : Decidable (IsLine text) :=
  decidable_of_iff ('\n' ∉ text.toList ∧
      text.toList.getLast?.any (fun c => c != ' ' && c != '\r') = true) <| by
    simp only [Option.any_eq_true, Bool.and_eq_true, bne_iff_ne]
    exact ⟨fun h => ⟨h.1, h.2⟩, fun h => ⟨h.feed, h.last⟩⟩

theorem cutLines_of_not_mem {line : List Char} (hfeed : '\n' ∉ line) : cutLines line = [line] := by
  induction line with
  | nil => rfl
  | cons c line ih =>
      rw [List.mem_cons, not_or] at hfeed
      rw [cutLines, ih hfeed.2]
      exact if_neg (by simpa using Ne.symm hfeed.1)

theorem trimLine_of_getLast? {line : List Char} {c : Char} (hlast : line.getLast? = some c)
    (hblank : c ≠ ' ') (hreturn : c ≠ '\r') : trimLine line = line := by
  obtain ⟨front, rfl⟩ := List.getLast?_eq_some_iff.mp hlast
  simp [trimLine, hblank, hreturn]

namespace IsLine

variable {front text line : String}

theorem append (hfront : '\n' ∉ front.toList) (h : IsLine text) : IsLine (front ++ text) := by
  obtain ⟨hfeed, c, hc, hvisible⟩ := h
  constructor
  · rw [String.toList_append, List.mem_append]
    exact not_or.mpr ⟨hfront, hfeed⟩
  · refine ⟨c, ?_, hvisible⟩
    rw [String.toList_append, List.getLast?_append, hc]
    rfl

theorem of_forall (hne : text.toList ≠ [])
    (h : ∀ c ∈ text.toList, c ≠ '\n' ∧ c ≠ ' ' ∧ c ≠ '\r') : IsLine text := by
  constructor
  · exact fun hfeed => (h _ hfeed).1 rfl
  · exact ⟨_, List.getLast?_eq_some_getLast hne, (h _ (List.getLast_mem hne)).2⟩

theorem visibleLines_eq (h : IsLine text) : visibleLines text = [text] := by
  obtain ⟨hfeed, c, hc, hblank, hreturn⟩ := h
  rw [visibleLines, cutLines_of_not_mem hfeed, List.map_singleton,
    trimLine_of_getLast? hc hblank hreturn, String.ofList_toList]

/-- What is left of a text without its colours is a line. -/
theorem plainLines_of_dropColors (h : IsLine line)
    (hcolors : dropColors 0 text.toList = line.toList) : plainLines text = [line] := by
  rw [plainLines, hcolors, String.ofList_toList, h.visibleLines_eq]

theorem plainLines_eq (h : IsLine text) (hescape : '\x1b' ∉ text.toList) :
    plainLines text = [text] :=
  h.plainLines_of_dropColors (dropColors_of_not_mem hescape)

theorem enclosed (h : IsLine text) (needed : Bool) : IsLine (enclosed needed text) := by
  cases needed with
  | false => exact h
  | true => exact (by decide : IsLine ")").append (h.append (by decide)).feed

end IsLine

theorem isLine_number (b : Binary64) : IsLine (String.ofList (NumberLayout.plain.number b)) := by
  have hdigits (c : Char) (hdigit : c.isDigit) : c ≠ '\n' ∧ c ≠ ' ' ∧ c ≠ '\r' := by
    refine ⟨?_, ?_, ?_⟩
    all_goals
      rintro rfl
      exact absurd hdigit (by decide)
  have hletters : numberLetters.all
      (fun c => decide (c ≠ '\n' ∧ c ≠ ' ' ∧ c ≠ '\r')) := by decide
  apply IsLine.of_forall
  · rw [String.toList_ofList]
    exact number_ne_nil b
  · rw [String.toList_ofList]
    intro c hc
    rcases isDigit_or_mem_of_mem_number hc with hdigit | hletter
    · exact hdigits c hdigit
    · exact of_decide_eq_true (List.all_eq_true.mp hletters c hletter)

theorem feed_not_mem_operator_symbol (operator : Operator) : '\n' ∉ operator.symbol.toList := by
  cases operator <;> decide

theorem isLine_function_symbol (function : NamedFunction) : IsLine function.symbol := by
  cases function <;> decide

namespace Expr

theorem isLine_text (e : Expr) : IsLine e.text := by
  induction e with
  | constant value =>
      rw [text_constant]
      exact isLine_number value
  | var => decide
  | negate f ih =>
      rw [text_negate]
      exact (ih.enclosed _).append (by decide)
  | apply function f ih =>
      rw [text_apply_eq_enclosed]
      exact (ih.enclosed true).append (isLine_function_symbol function).feed
  | binary operator f g ihf ihg =>
      rw [text_binary, String.append_assoc]
      exact ((ihg.enclosed _).append (feed_not_mem_operator_symbol operator)).append
        (ihf.enclosed _).feed

end Expr

end SymbolicCalculus
