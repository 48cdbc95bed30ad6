import SymbolicCalculus.Expr.Rendering
import SymbolicCalculus.Proofs.Number.Numeral

/-! # The grammar of infix text

A phrase is one way to read a text as an expression. Sums and products group to
the left, powers group to the right, and a minus stands before a power. No text
is read in two ways, because a phrase ends where its level cannot go on.
-/

namespace SymbolicCalculus

/-- A quiet NaN, which stands for all of them. -/
def Binary64.nan : Binary64 := ofCode false (infinityCode + fractionCount / 2)

/-- An operator as the grammar spells it. -/
def Operator.spelling : Operator → List Char
  | add => [' ', '+', ' ']
  | subtract => [' ', '-', ' ']
  | multiply => [' ', '*', ' ']
  | divide => [' ', '/', ' ']
  | power => ['^']

def NamedFunction.spelling : NamedFunction → List Char
  | sin => ['s', 'i', 'n']
  | cos => ['c', 'o', 's']
  | tan => ['t', 'a', 'n']
  | exp => ['e', 'x', 'p']
  | ln => ['l', 'n']
  | sqrt => ['s', 'q', 'r', 't']

/-- The ways to read a text at each level of the grammar, one constructor for
each production. -/
inductive Phrase : Binding → Type where
  | sum (operator : Operator) (hoperator : operator = .add ∨ operator = .subtract)
      (left : Phrase .sum) (right : Phrase .product) : Phrase .sum
  | ofProduct (operand : Phrase .product) : Phrase .sum
  | product (operator : Operator) (hoperator : operator = .multiply ∨ operator = .divide)
      (left : Phrase .product) (right : Phrase .signed) : Phrase .product
  | ofSigned (operand : Phrase .signed) : Phrase .product
  | minus (operand : Phrase .power) : Phrase .signed
  | ofPower (operand : Phrase .power) : Phrase .signed
  | power (base : Phrase .primary) (exponent : Phrase .power) : Phrase .power
  | ofPrimary (operand : Phrase .primary) : Phrase .power
  | number (numeral : Numeral) : Phrase .primary
  | infinity : Phrase .primary
  | nan : Phrase .primary
  | var : Phrase .primary
  | call (function : NamedFunction) (argument : Phrase .sum) : Phrase .primary
  | group (inner : Phrase .sum) : Phrase .primary

namespace Phrase

/-- The text that a phrase reads. -/
def chars {b : Binding} : Phrase b → List Char
  | sum operator _ left right => left.chars ++ (operator.spelling ++ right.chars)
  | ofProduct operand => operand.chars
  | product operator _ left right => left.chars ++ (operator.spelling ++ right.chars)
  | ofSigned operand => operand.chars
  | minus operand => '-' :: operand.chars
  | ofPower operand => operand.chars
  | power base exponent => base.chars ++ '^' :: exponent.chars
  | ofPrimary operand => operand.chars
  | number numeral => numeral.chars
  | infinity => ['i', 'n', 'f']
  | nan => ['N', 'a', 'N']
  | var => ['x']
  | call function argument => function.spelling ++ '(' :: (argument.chars ++ [')'])
  | group inner => '(' :: (inner.chars ++ [')'])

section Chars

variable {operator : Operator}

theorem chars_sum (h : operator = .add ∨ operator = .subtract) (left : Phrase .sum)
    (right : Phrase .product) :
    (sum operator h left right).chars = left.chars ++ (operator.spelling ++ right.chars) := rfl

theorem chars_product (h : operator = .multiply ∨ operator = .divide) (left : Phrase .product)
    (right : Phrase .signed) :
    (product operator h left right).chars = left.chars ++ (operator.spelling ++ right.chars) := rfl

theorem chars_minus (operand : Phrase .power) : (minus operand).chars = '-' :: operand.chars := rfl

theorem chars_power (base : Phrase .primary) (exponent : Phrase .power) :
    (power base exponent).chars = base.chars ++ '^' :: exponent.chars := rfl

theorem chars_call (function : NamedFunction) (argument : Phrase .sum) :
    (call function argument).chars =
      function.spelling ++ '(' :: (argument.chars ++ [')']) := rfl

theorem chars_group (inner : Phrase .sum) :
    (group inner).chars = '(' :: (inner.chars ++ [')']) := rfl

end Chars

/-- The expression that a phrase denotes. -/
def value {b : Binding} : Phrase b → Expr
  | sum operator _ left right => .binary operator left.value right.value
  | ofProduct operand => operand.value
  | product operator _ left right => .binary operator left.value right.value
  | ofSigned operand => operand.value
  | minus operand => .negate operand.value
  | ofPower operand => operand.value
  | power base exponent => .binary .power base.value exponent.value
  | ofPrimary operand => operand.value
  | number numeral => .constant numeral.value
  | infinity => .constant .infinity
  | nan => .constant .nan
  | var => .var
  | call function argument => .apply function argument.value
  | group inner => inner.value

-- The other levels of a phrase stay fixed here, which induction on the family
-- of all phrases would not allow.
theorem sum_induction {motive : Phrase .sum → Prop} (hunit : ∀ t, motive (ofProduct t))
    (hextend : ∀ operator h left right, motive left → motive (sum operator h left right)) :
    ∀ t, motive t
  | ofProduct operand => hunit operand
  | sum operator h left right =>
      hextend operator h left right (sum_induction hunit hextend left)

theorem product_induction {motive : Phrase .product → Prop} (hunit : ∀ t, motive (ofSigned t))
    (hextend : ∀ operator h left right, motive left → motive (product operator h left right)) :
    ∀ t, motive t
  | ofSigned operand => hunit operand
  | product operator h left right =>
      hextend operator h left right (product_induction hunit hextend left)

theorem power_induction {motive : Phrase .power → Prop} (hunit : ∀ t, motive (ofPrimary t))
    (hextend : ∀ base exponent, motive exponent → motive (power base exponent)) :
    ∀ t, motive t
  | ofPrimary operand => hunit operand
  | power base exponent => hextend base exponent (power_induction hunit hextend exponent)

end Phrase

/-- What may follow a phrase of a level in a text: nothing, a closing
parenthesis, or an operator that binds looser. -/
inductive Follows (b : Binding) : List Char → Prop where
  | nil : Follows b []
  | closing (rest : List Char) : Follows b (')' :: rest)
  | operator {operator : Operator} (hlt : operator.binding.strength < b.strength)
      (rest : List Char) : Follows b (operator.spelling ++ rest)

theorem spelling_append_inj {operator operator' : Operator} {rest rest' : List Char}
    (heq : operator.spelling ++ rest = operator'.spelling ++ rest') :
    operator = operator' ∧ rest = rest' := by
  cases operator <;> cases operator' <;> simp_all [Operator.spelling]

theorem call_append_inj {function function' : NamedFunction} {rest rest' : List Char}
    (heq : function.spelling ++ '(' :: rest = function'.spelling ++ '(' :: rest') :
    function = function' ∧ rest = rest' := by
  cases function <;> cases function' <;> simp_all [NamedFunction.spelling]

namespace Follows

variable {b b' : Binding} {rest : List Char}

theorem mono (h : Follows b rest) (hle : b.strength ≤ b'.strength) : Follows b' rest := by
  cases h with
  | nil => exact .nil
  | closing rest => exact .closing rest
  | operator hlt rest => exact .operator (Nat.lt_of_lt_of_le hlt hle) rest

theorem strength_lt {operator : Operator} (h : Follows b (operator.spelling ++ rest)) :
    operator.binding.strength < b.strength := by
  generalize htext : operator.spelling ++ rest = text at h
  cases h with
  | nil => cases operator <;> simp [Operator.spelling] at htext
  | closing rest => cases operator <;> simp [Operator.spelling] at htext
  | @operator operator' hlt rest =>
      obtain ⟨rfl, -⟩ := spelling_append_inj htext
      exact hlt

theorem endsNumeral (h : Follows .primary rest) : EndsNumeral rest := by
  cases h with
  | nil => nofun
  | closing rest => simp [EndsNumeral]
  | @operator operator _ rest => cases operator <;> simp [EndsNumeral, Operator.spelling]

end Follows

/-- Phrases of at most the given length are determined by any text that starts
with them and goes on with what may follow. -/
def Unambiguous (b : Binding) (bound : Nat) : Prop :=
  ∀ t t' : Phrase b, t.chars.length ≤ bound → ∀ rest rest', Follows b rest → Follows b rest' →
    t.chars ++ rest = t'.chars ++ rest' → t = t' ∧ rest = rest'

/-- A level whose operators group to the left: a phrase of the level is a phrase
of the next one, or a phrase of the level with an operator and one of the next. -/
structure LeftGrouping (b next : Binding) where
  unit : Phrase next → Phrase b
  extend : (operator : Operator) → operator.binding = b → Phrase b → Phrase next → Phrase b
  strength_lt : b.strength < next.strength
  chars_unit : ∀ t, (unit t).chars = t.chars
  chars_extend : ∀ operator h left right, (extend operator h left right).chars =
    left.chars ++ (operator.spelling ++ right.chars)
  induction : ∀ {motive : Phrase b → Prop}, (∀ t, motive (unit t)) →
    (∀ operator h left right, motive left → motive (extend operator h left right)) →
      ∀ t, motive t

namespace LeftGrouping

variable {b next : Binding} (level : LeftGrouping b next)

abbrev Item (b next : Binding) : Type := {operator : Operator // operator.binding = b} × Phrase next

/-- A phrase with operators applied to it, one after the other. -/
def chain (first : Phrase next) (items : List (Item b next)) : Phrase b :=
  items.foldl (fun left item => level.extend item.1.1 item.1.2 left item.2) (level.unit first)

def itemChars (items : List (Item b next)) : List Char :=
  items.flatMap fun item => item.1.1.spelling ++ item.2.chars

@[simp] theorem itemChars_nil : itemChars ([] : List (Item b next)) = [] := rfl

@[simp] theorem itemChars_cons (item : Item b next) (items : List (Item b next)) :
    itemChars (item :: items) = item.1.1.spelling ++ (item.2.chars ++ itemChars items) :=
  List.append_assoc ..

theorem itemChars_append (items : List (Item b next)) (item : Item b next) :
    itemChars (items ++ [item]) = itemChars items ++ (item.1.1.spelling ++ item.2.chars) := by
  simp [itemChars]

theorem chain_append (first : Phrase next) (items : List (Item b next)) (item : Item b next) :
    level.chain first (items ++ [item]) =
      level.extend item.1.1 item.1.2 (level.chain first items) item.2 :=
  List.foldl_append

theorem exists_chain (t : Phrase b) :
    ∃ first items, t = level.chain first items ∧ t.chars = first.chars ++ itemChars items := by
  refine level.induction
    (motive := fun t => ∃ first items, t = level.chain first items ∧
      t.chars = first.chars ++ itemChars items) ?_ ?_ t
  · intro t
    exact ⟨t, [], rfl, by rw [level.chars_unit, itemChars_nil, List.append_nil]⟩
  · intro operator h left right ih
    obtain ⟨first, items, hleft, hchars⟩ := ih
    refine ⟨first, items ++ [⟨⟨operator, h⟩, right⟩], ?_, ?_⟩
    · rw [chain_append, hleft]
    · rw [level.chars_extend, hchars, itemChars_append, List.append_assoc]

include level in
theorem follows_itemChars {rest : List Char} (hrest : Follows b rest) (items : List (Item b next)) :
    Follows next (itemChars items ++ rest) := by
  cases items with
  | nil => exact hrest.mono level.strength_lt.le
  | cons item items =>
      have hlt : item.1.1.binding.strength < next.strength := by
        rw [item.1.2]
        exact level.strength_lt
      rw [itemChars_cons, List.append_assoc]
      exact .operator hlt _

include level in
theorem items_unambiguous {bound : Nat} (hnext : Unambiguous next bound)
    {items items' : List (Item b next)} (hlength : (itemChars items).length ≤ bound)
    {rest rest' : List Char} (hrest : Follows b rest) (hrest' : Follows b rest')
    (heq : itemChars items ++ rest = itemChars items' ++ rest') :
    items = items' ∧ rest = rest' := by
  have hends {rest : List Char} (hrest : Follows b rest) (item : Item b next) (more : List Char) :
      rest ≠ item.1.1.spelling ++ more := by
    rintro rfl
    have hlt := hrest.strength_lt
    rw [item.1.2] at hlt
    exact Nat.lt_irrefl _ hlt
  -- The operators are compared from left to right: the text tells where each
  -- operand ends, and only an operator of the level goes on.
  induction items generalizing items' with
  | nil =>
      cases items' with
      | nil => exact ⟨rfl, heq⟩
      | cons item' items' =>
          rw [itemChars_nil, List.nil_append, itemChars_cons, List.append_assoc] at heq
          exact absurd heq (hends hrest item' _)
  | cons item items ih =>
      cases items' with
      | nil =>
          rw [itemChars_nil, List.nil_append, itemChars_cons, List.append_assoc] at heq
          exact absurd heq.symm (hends hrest' item _)
      | cons item' items' =>
          obtain ⟨⟨operator, h⟩, operand⟩ := item
          obtain ⟨⟨operator', h'⟩, operand'⟩ := item'
          simp only [itemChars_cons, List.append_assoc, List.length_append] at heq hlength
          obtain ⟨rfl, hoperand⟩ := spelling_append_inj heq
          obtain ⟨rfl, hitems⟩ := hnext operand operand' (by omega) _ _
            (level.follows_itemChars hrest items) (level.follows_itemChars hrest' items') hoperand
          obtain ⟨rfl, rfl⟩ := ih (by omega) hitems
          exact ⟨rfl, rfl⟩

include level in
/-- A level is unambiguous if the next one is. -/
theorem unambiguous {bound : Nat} (hnext : Unambiguous next bound) : Unambiguous b bound := by
  intro t t' hlength rest rest' hrest hrest' heq
  obtain ⟨first, items, rfl, hchars⟩ := level.exists_chain t
  obtain ⟨first', items', rfl, hchars'⟩ := level.exists_chain t'
  rw [hchars, List.length_append] at hlength
  rw [hchars, hchars', List.append_assoc, List.append_assoc] at heq
  obtain ⟨rfl, hitems⟩ := hnext first first' (by omega) _ _ (level.follows_itemChars hrest items)
    (level.follows_itemChars hrest' items') heq
  obtain ⟨rfl, rfl⟩ := level.items_unambiguous hnext (by omega) hrest hrest' hitems
  exact ⟨rfl, rfl⟩

end LeftGrouping

theorem binding_eq_sum_iff {operator : Operator} :
    operator.binding = .sum ↔ operator = .add ∨ operator = .subtract := by
  cases operator <;> simp [Operator.binding]

theorem binding_eq_product_iff {operator : Operator} :
    operator.binding = .product ↔ operator = .multiply ∨ operator = .divide := by
  cases operator <;> simp [Operator.binding]

def sumLevel : LeftGrouping .sum .product where
  unit := .ofProduct
  extend operator h := .sum operator (binding_eq_sum_iff.mp h)
  strength_lt := by decide
  chars_unit _ := rfl
  chars_extend _ _ _ _ := rfl
  induction hunit hextend :=
    Phrase.sum_induction hunit fun operator h => hextend operator (binding_eq_sum_iff.mpr h)

def productLevel : LeftGrouping .product .signed where
  unit := .ofSigned
  extend operator h := .product operator (binding_eq_product_iff.mp h)
  strength_lt := by decide
  chars_unit _ := rfl
  chars_extend _ _ _ _ := rfl
  induction hunit hextend :=
    Phrase.product_induction hunit fun operator h =>
      hextend operator (binding_eq_product_iff.mpr h)

namespace Phrase

def production : Phrase .primary → Nat
  | number _ => 0
  | infinity => 1
  | nan => 2
  | var => 3
  | call _ _ => 4
  | group _ => 5

/-- The production that the first character of a primary phrase gives away. -/
def productionOf (c : Char) : Option Nat :=
  if c.isDigit then some 0
  else [('i', 1), ('N', 2), ('x', 3), ('s', 4), ('c', 4), ('t', 4), ('e', 4), ('l', 4),
    ('(', 5)].lookup c

theorem exists_chars_eq_cons (t : Phrase .primary) :
    ∃ c rest, t.chars = c :: rest ∧ productionOf c = some t.production := by
  cases t with
  | number numeral =>
      obtain ⟨c, rest, hchars, hdigit⟩ := numeral.exists_chars_eq_cons
      exact ⟨c, rest, hchars, if_pos hdigit⟩
  | infinity => exact ⟨_, _, rfl, rfl⟩
  | nan => exact ⟨_, _, rfl, rfl⟩
  | var => exact ⟨_, _, rfl, rfl⟩
  | call function argument =>
      have hspelling : ∃ c rest, function.spelling = c :: rest ∧ productionOf c = some 4 := by
        cases function <;> exact ⟨_, _, rfl, rfl⟩
      obtain ⟨c, rest, hspelling, hproduction⟩ := hspelling
      exact ⟨c, _, by rw [chars, hspelling, List.cons_append], hproduction⟩
  | group inner => exact ⟨_, _, rfl, rfl⟩

theorem chars_primary_ne (t : Phrase .primary) (rest rest' : List Char) :
    t.chars ++ rest ≠ '-' :: rest' := by
  intro heq
  obtain ⟨c, more, hchars, hproduction⟩ := t.exists_chars_eq_cons
  rw [hchars, List.cons_append, List.cons.injEq] at heq
  rw [heq.1] at hproduction
  cases hproduction

theorem chars_power_ne (t : Phrase .power) (rest rest' : List Char) :
    t.chars ++ rest ≠ '-' :: rest' := by
  cases t with
  | power base exponent =>
      rw [chars, List.append_assoc]
      exact base.chars_primary_ne _ rest'
  | ofPrimary operand => exact operand.chars_primary_ne rest rest'

end Phrase

variable {bound : Nat}

/-- A phrase between parentheses is determined if it is determined where it ends. -/
theorem unambiguous_inner (hsum : ∀ bound' < bound, Unambiguous .sum bound')
    {inner inner' : Phrase .sum} (hlength : inner.chars.length < bound) {rest rest' : List Char}
    (heq : inner.chars ++ ')' :: rest = inner'.chars ++ ')' :: rest') :
    inner = inner' ∧ rest = rest' := by
  obtain ⟨rfl, htail⟩ := hsum _ hlength inner inner' le_rfl _ _ (.closing rest) (.closing rest') heq
  exact ⟨rfl, (List.cons.inj htail).2⟩

theorem unambiguous_primary (hsum : ∀ bound' < bound, Unambiguous .sum bound') :
    Unambiguous .primary bound := by
  intro t t' hlength rest rest' hrest hrest' heq
  -- No two productions share a first character, so only equal ones are compared.
  have hproduction : t.production = t'.production := by
    obtain ⟨c, more, hchars, hproduction⟩ := t.exists_chars_eq_cons
    obtain ⟨c', more', hchars', hproduction'⟩ := t'.exists_chars_eq_cons
    rw [hchars, hchars'] at heq
    rw [← Option.some.injEq, ← hproduction, ← hproduction', (List.cons.inj heq).1]
  cases t with
  | number numeral =>
      cases t' with
      | number numeral' =>
          obtain ⟨rfl, rfl⟩ :=
            Numeral.chars_append_inj hrest.endsNumeral hrest'.endsNumeral heq
          exact ⟨rfl, rfl⟩
      | _ => cases hproduction
  | infinity =>
      cases t' with
      | infinity => exact ⟨rfl, List.append_cancel_left heq⟩
      | _ => cases hproduction
  | nan =>
      cases t' with
      | nan => exact ⟨rfl, List.append_cancel_left heq⟩
      | _ => cases hproduction
  | var =>
      cases t' with
      | var => exact ⟨rfl, List.append_cancel_left heq⟩
      | _ => cases hproduction
  | call function argument =>
      cases t' with
      | call function' argument' =>
          simp only [Phrase.chars, List.append_assoc, List.cons_append, List.nil_append,
            List.length_append, List.length_cons] at heq hlength
          obtain ⟨rfl, hargument⟩ := call_append_inj heq
          obtain ⟨rfl, rfl⟩ := unambiguous_inner hsum (by omega) hargument
          exact ⟨rfl, rfl⟩
      | _ => cases hproduction
  | group inner =>
      cases t' with
      | group inner' =>
          simp only [Phrase.chars, List.append_assoc, List.cons_append, List.nil_append,
            List.length_append, List.length_cons] at heq hlength
          obtain ⟨rfl, rfl⟩ := unambiguous_inner hsum (by omega) (List.cons.inj heq).2
          exact ⟨rfl, rfl⟩
      | _ => cases hproduction

theorem follows_power_spelling (rest : List Char) : Follows .primary ('^' :: rest) :=
  @Follows.operator .primary .power (by decide) rest

theorem not_follows_power_spelling (rest : List Char) : ¬ Follows .power ('^' :: rest) :=
  fun h => absurd (@Follows.strength_lt .power rest .power h) (by decide)

theorem unambiguous_power (hprimary : Unambiguous .primary bound) : Unambiguous .power bound := by
  have hmono {rest : List Char} (hrest : Follows .power rest) : Follows .primary rest :=
    hrest.mono (by decide)
  intro t
  refine Phrase.power_induction
    (motive := fun t => ∀ t' : Phrase .power, t.chars.length ≤ bound → ∀ rest rest',
      Follows .power rest → Follows .power rest' → t.chars ++ rest = t'.chars ++ rest' →
        t = t' ∧ rest = rest') ?_ ?_ t
  · -- What follows a primary phrase decides whether it is a base.
    intro operand t' hlength rest rest' hrest hrest' heq
    cases t' with
    | ofPrimary operand' =>
        obtain ⟨rfl, rfl⟩ := hprimary operand operand' hlength rest rest' (hmono hrest)
          (hmono hrest') heq
        exact ⟨rfl, rfl⟩
    | power base' exponent' =>
        simp only [Phrase.chars, List.append_assoc, List.cons_append] at heq
        obtain ⟨-, rfl⟩ := hprimary operand base' hlength rest _ (hmono hrest)
          (follows_power_spelling _) heq
        exact absurd hrest (not_follows_power_spelling _)
  · intro base exponent ih t' hlength rest rest' hrest hrest' heq
    simp only [Phrase.chars, List.length_append, List.length_cons] at hlength
    cases t' with
    | ofPrimary operand' =>
        simp only [Phrase.chars, List.append_assoc, List.cons_append] at heq
        obtain ⟨-, rfl⟩ := hprimary base operand' (by omega) _ rest' (follows_power_spelling _)
          (hmono hrest') heq
        exact absurd hrest' (not_follows_power_spelling _)
    | power base' exponent' =>
        simp only [Phrase.chars, List.append_assoc, List.cons_append] at heq
        obtain ⟨rfl, htail⟩ := hprimary base base' (by omega) _ _ (follows_power_spelling _)
          (follows_power_spelling _) heq
        obtain ⟨rfl, rfl⟩ := ih exponent' (by omega) rest rest' hrest hrest'
          (List.cons.inj htail).2
        exact ⟨rfl, rfl⟩

theorem unambiguous_signed (hpower : Unambiguous .power bound) : Unambiguous .signed bound := by
  intro t t' hlength rest rest' hrest hrest' heq
  have hmono {rest : List Char} (hrest : Follows .signed rest) : Follows .power rest :=
    hrest.mono (by decide)
  cases t with
  | minus operand =>
      cases t' with
      | minus operand' =>
          obtain ⟨rfl, rfl⟩ := hpower operand operand' (Nat.le_of_succ_le hlength) rest rest'
            (hmono hrest) (hmono hrest') (List.cons.inj heq).2
          exact ⟨rfl, rfl⟩
      | ofPower operand' => exact absurd heq.symm (operand'.chars_power_ne rest' _)
  | ofPower operand =>
      cases t' with
      | minus operand' => exact absurd heq (operand.chars_power_ne rest _)
      | ofPower operand' =>
          obtain ⟨rfl, rfl⟩ := hpower operand operand' hlength rest rest' (hmono hrest)
            (hmono hrest') heq
          exact ⟨rfl, rfl⟩

theorem unambiguous_sum (bound : Nat) : Unambiguous .sum bound := by
  induction bound using Nat.strong_induction_on with
  | h bound ih =>
      -- Only parentheses lead back to sums, and they leave a shorter text.
      exact sumLevel.unambiguous (productLevel.unambiguous
        (unambiguous_signed (unambiguous_power (unambiguous_primary ih))))

/-- No text is read in two ways. -/
theorem Phrase.eq_of_chars_eq {t t' : Phrase .sum} (heq : t.chars = t'.chars) : t = t' := by
  have happend : t.chars ++ [] = t'.chars ++ [] := by rw [heq]
  exact (unambiguous_sum _ t t' le_rfl [] [] .nil .nil happend).1

end SymbolicCalculus
