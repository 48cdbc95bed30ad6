import SymbolicCalculus.Number.Layout
import SymbolicCalculus.Proofs.Number.ReadBack

/-! # Numerals

The plain text of a finite magnitude is a numeral: a whole number, possibly with
a fraction after a point. Reading the numeral gives the magnitude again.
-/

namespace SymbolicCalculus

/-- One or more decimal digits. -/
structure IsDigitRow (row : List Char) : Prop where
  ne_nil : row ≠ []
  isDigit : ∀ c ∈ row, c.isDigit

/-- A whole number, possibly with a fraction. -/
structure Numeral where
  whole : List Char
  fraction : Option (List Char)
  whole_row : IsDigitRow whole
  fraction_row : ∀ row ∈ fraction, IsDigitRow row

/-- A text that cannot continue a numeral. -/
def EndsNumeral (rest : List Char) : Prop := ∀ c ∈ rest.head?, ¬ c.isDigit ∧ c ≠ '.'

theorem append_inj_of_forall {p : Char → Bool} {row row' rest rest' : List Char}
    (hrow : ∀ c ∈ row, p c) (hrow' : ∀ c ∈ row', p c) (hrest : ∀ c ∈ rest.head?, ¬ p c)
    (hrest' : ∀ c ∈ rest'.head?, ¬ p c) (heq : row ++ rest = row' ++ rest') :
    row = row' ∧ rest = rest' := by
  have htake {rest : List Char} (hrest : ∀ c ∈ rest.head?, ¬ p c) : rest.takeWhile p = [] := by
    cases rest with
    | nil => rfl
    | cons c rest => exact List.takeWhile_cons_of_neg (hrest c rfl)
  have hfront := congrArg (List.takeWhile p) heq
  rw [List.takeWhile_append_of_pos hrow, List.takeWhile_append_of_pos hrow', htake hrest,
    htake hrest', List.append_nil, List.append_nil] at hfront
  exact ⟨hfront, List.append_cancel_left (hfront ▸ heq)⟩

theorem isDigitRow_toDigits (n : Nat) : IsDigitRow (Nat.toDigits 10 n) :=
  ⟨Nat.toDigits_ne_nil, fun _ hc => Nat.isDigit_of_mem_toDigits (by decide) (by decide) hc⟩

theorem isDigitRow_paddedDigits (width n : Nat) : IsDigitRow (paddedDigits 10 width n) := by
  have hdigits := isDigitRow_toDigits n
  constructor
  · exact List.append_ne_nil_of_right_ne_nil _ hdigits.ne_nil
  · intro c hc
    rcases List.mem_append.mp hc with hzero | hdigit
    · rw [List.eq_of_mem_replicate hzero]
      rfl
    · exact hdigits.isDigit c hdigit

theorem length_paddedDigits {width n : Nat} (hwidth : 0 < width) (hlt : n < 10 ^ width) :
    (paddedDigits 10 width n).length = width := by
  have hle := (Nat.length_toDigits_le_iff (by decide) hwidth).mpr hlt
  rw [paddedDigits, List.length_append, List.length_replicate]
  exact Nat.sub_add_cancel hle

theorem decimalValue_eq (digits : List Char) :
    decimalValue digits = Nat.ofDigitChars 10 digits 0 := by
  simp only [decimalValue, Nat.ofDigitChars_eq_foldl, Nat.mul_comm]

theorem decimalValue_toDigits (n : Nat) : decimalValue (Nat.toDigits 10 n) = n := by
  rw [decimalValue_eq, Nat.ofDigitChars_ten_toDigits]

/-- Digits of a quotient and of a remainder are the digits of the whole. -/
theorem decimalValue_append_paddedDigits {places n : Nat} (hplaces : 0 < places) :
    decimalValue (Nat.toDigits 10 (n / 10 ^ places) ++
      paddedDigits 10 places (n % 10 ^ places)) = n := by
  have hlength := length_paddedDigits hplaces (Nat.mod_lt n (Nat.pow_pos (by decide)))
  rw [decimalValue_eq, Nat.ofDigitChars_append, Nat.ofDigitChars_ten_toDigits,
    Nat.ofDigitChars_eq_ofDigitChars_zero, hlength, paddedDigits, Nat.ofDigitChars_append,
    Nat.ofDigitChars_replicate_zero, Nat.mul_zero, Nat.ofDigitChars_ten_toDigits]
  exact Nat.div_add_mod n (10 ^ places)

namespace Numeral

def chars (n : Numeral) : List Char :=
  match n.fraction with
  | none => n.whole
  | some row => n.whole ++ '.' :: row

/-- The number nearest to a numeral. -/
def value (n : Numeral) : Binary64 :=
  let places := n.fraction.getD []
  .ofDecimal false (decimalValue (n.whole ++ places)) (-(places.length : Int))

/-- Where a numeral ends is determined by what follows, and so is the numeral. -/
theorem chars_append_inj {n n' : Numeral} {rest rest' : List Char} (hrest : EndsNumeral rest)
    (hrest' : EndsNumeral rest') (heq : n.chars ++ rest = n'.chars ++ rest') :
    n = n' ∧ rest = rest' := by
  obtain ⟨whole, fraction, hwhole, hfraction⟩ := n
  obtain ⟨whole', fraction', hwhole', hfraction'⟩ := n'
  have hdigit {rest : List Char} (hrest : EndsNumeral rest) : ∀ c ∈ rest.head?, ¬ c.isDigit :=
    fun c hc => (hrest c hc).1
  have hpoint {rest : List Char} : ∀ c ∈ ('.' :: rest).head?, ¬ c.isDigit := by
    simp
  have hinj {rest rest' : List Char} (hrest : ∀ c ∈ rest.head?, ¬ c.isDigit)
      (hrest' : ∀ c ∈ rest'.head?, ¬ c.isDigit) (heq : whole ++ rest = whole' ++ rest') :
      whole = whole' ∧ rest = rest' :=
    append_inj_of_forall hwhole.isDigit hwhole'.isDigit hrest hrest' heq
  cases fraction with
  | none =>
      cases fraction' with
      | none =>
          obtain ⟨rfl, rfl⟩ := hinj (hdigit hrest) (hdigit hrest') heq
          exact ⟨rfl, rfl⟩
      | some row' =>
          -- The digits of both end together, and no point may follow the first.
          simp only [chars, List.append_assoc, List.cons_append] at heq
          obtain ⟨-, rfl⟩ := hinj (hdigit hrest) hpoint heq
          exact absurd rfl (hrest _ rfl).2
  | some row =>
      simp only [chars, List.append_assoc, List.cons_append] at heq
      cases fraction' with
      | none =>
          obtain ⟨-, rfl⟩ := hinj hpoint (hdigit hrest') heq
          exact absurd rfl (hrest' _ rfl).2
      | some row' =>
          simp only [List.append_assoc, List.cons_append] at heq
          obtain ⟨rfl, htail⟩ := hinj hpoint hpoint heq
          obtain ⟨rfl, rfl⟩ := append_inj_of_forall (hfraction row rfl).isDigit
            (hfraction' row' rfl).isDigit (hdigit hrest) (hdigit hrest') (List.cons.inj htail).2
          exact ⟨rfl, rfl⟩

theorem exists_chars_eq_cons (n : Numeral) : ∃ c rest, n.chars = c :: rest ∧ c.isDigit := by
  obtain ⟨whole, fraction, ⟨hne, hdigit⟩, -⟩ := n
  obtain ⟨c, rest, rfl⟩ := List.exists_cons_of_ne_nil hne
  cases fraction with
  | none => exact ⟨c, rest, rfl, hdigit c List.mem_cons_self⟩
  | some row => exact ⟨c, rest ++ '.' :: row, rfl, hdigit c List.mem_cons_self⟩

theorem isDigit_or_eq_of_mem_chars (n : Numeral) : ∀ c ∈ n.chars, c.isDigit ∨ c = '.' := by
  obtain ⟨whole, fraction, hwhole, hfraction⟩ := n
  intro c hc
  cases fraction with
  | none => exact .inl (hwhole.isDigit c hc)
  | some row =>
      rcases List.mem_append.mp hc with hc | hc
      · exact .inl (hwhole.isDigit c hc)
      · rcases List.mem_cons.mp hc with rfl | hc
        · exact .inr rfl
        · exact .inl ((hfraction row rfl).isDigit c hc)

end Numeral

namespace Binary64

variable {code : Nat}

theorem ten_pow_eq : 10 ^ 1074 = Nat.pow 2 1074 * decimalUnits := by decide +kernel

/-- A point, in units of `10 ^ -1074`, as a ratio in units of `2 ^ -1074`. -/
theorem Nearest.of_point {significand scale places : Nat} {significand' : Nat}
    (h : Nearest code (significand * 10 ^ scale) decimalUnits)
    (heq : significand * 10 ^ scale * 10 ^ places = significand' * 10 ^ 1074) :
    Nearest code (significand' * Nat.pow 2 1074) (10 ^ places) := by
  refine h.of_ratio_eq decimalUnits_pos (Nat.pow_pos (by decide)) ?_
  rw [mul_assoc significand', ← ten_pow_eq, heq]

/-- The positional text of a decimal is a numeral for the number nearest to it. -/
theorem exists_numeral_of_nearest (hcode : 0 < code) (hfinite : code < infinityCode) {d : Decimal}
    {scale : Nat} (hexponent : d.exponent = scale - 1074)
    (h : Nearest code (d.significand * 10 ^ scale) decimalUnits) :
    ∃ n : Numeral, n.chars = d.positional ∧ n.value = ofCode false code := by
  unfold Decimal.positional
  split
  next hwhole =>
      generalize hzeros : d.exponent.toNat = zeros
      have hscale : scale = zeros + 1074 := by omega
      refine ⟨⟨Nat.toDigits 10 (d.significand * 10 ^ zeros), none, isDigitRow_toDigits _, nofun⟩,
        rfl, ?_⟩
      have hnearest : Nearest code (d.significand * 10 ^ zeros * Nat.pow 2 1074) (10 ^ 0) := by
        refine h.of_point ?_
        rw [hscale, pow_zero, mul_one, pow_add, mul_assoc]
      simpa [Numeral.value, decimalValue_toDigits] using ofDecimal_eq hcode hfinite hnearest
  next hfraction =>
      generalize hplaces : (-d.exponent).toNat = places
      have hscale : scale + places = 1074 := by omega
      have hpos : 0 < places := by omega
      refine ⟨⟨Nat.toDigits 10 (d.significand / 10 ^ places),
        some (paddedDigits 10 places (d.significand % 10 ^ places)), isDigitRow_toDigits _, ?_⟩,
        rfl, ?_⟩
      · rintro row ⟨⟩
        exact isDigitRow_paddedDigits ..
      have hlength := length_paddedDigits hpos
        (Nat.mod_lt d.significand (Nat.pow_pos (by decide) : 0 < 10 ^ places))
      have hnearest : Nearest code (d.significand * Nat.pow 2 1074) (10 ^ places) := by
        refine h.of_point ?_
        rw [mul_assoc, ← pow_add, hscale]
      rw [Numeral.value, Option.getD_some, decimalValue_append_paddedDigits hpos, hlength]
      exact ofDecimal_eq hcode hfinite hnearest

theorem ofCode_code_abs (b : Binary64) : ofCode false b.code = b.abs := ofCode_code b.abs

theorem code_lt_infinityCode {b : Binary64} (hfinite : b.isFinite) : b.code < infinityCode := by
  have hexponent := b.exponent.isLt
  have hfraction := b.fraction.isLt
  have hne : b.exponent.val ≠ 2047 := by simpa [isFinite] using hfinite
  simp only [code, infinityCode, fractionCount]
  omega

theorem exists_numeral {b : Binary64} (hfinite : b.isFinite) :
    ∃ n : Numeral, n.chars = NumberLayout.plain.magnitude b ∧ n.value = b.abs := by
  rw [← ofCode_code_abs, NumberLayout.magnitude, if_pos hfinite]
  split
  next hzero =>
      have hcode : b.code = 0 := by simpa [isZero] using hzero
      refine ⟨⟨['0'], none, isDigitRow_toDigits 0, nofun⟩, rfl, ?_⟩
      rw [hcode]
      rfl
  next hzero =>
      have hcode : 0 < b.code := Nat.pos_of_ne_zero (by simpa [isZero] using hzero)
      obtain ⟨scale, hexponent, hnearest⟩ := nearest_searchGrids hcode (coarsestGrid b.code)
      obtain ⟨n, hchars, hvalue⟩ :=
        exists_numeral_of_nearest hcode (code_lt_infinityCode hfinite) hexponent hnearest
      refine ⟨n, ?_, hvalue⟩
      rw [hchars, NumberLayout.decimal, shortest]
      simp [NumberLayout.plain]

/-- The number beyond all finite numbers. -/
def infinity : Binary64 := ofCode false infinityCode

theorem abs_eq_infinity {b : Binary64} (hfinite : ¬ b.isFinite) (hnan : ¬ b.isNaN) :
    b.abs = infinity := by
  obtain ⟨negative, exponent, fraction⟩ := b
  simp only [isFinite, isNaN, bne_iff_ne, ne_eq, Decidable.not_not, Bool.and_eq_true, beq_iff_eq,
    not_and] at hfinite hnan
  obtain rfl : exponent = 2047 := Fin.ext hfinite
  obtain rfl : fraction = 0 := Fin.ext (hnan rfl)
  rfl

theorem number_cases (b : Binary64) :
    (b.isNaN ∧ NumberLayout.plain.number b = ['N', 'a', 'N']) ∨
      (¬ b.isNaN ∧ ∃ magnitude,
        NumberLayout.plain.number b = (if b.negative then ['-'] else []) ++ magnitude ∧
          ((b.abs = infinity ∧ magnitude = ['i', 'n', 'f']) ∨
            ∃ n : Numeral, n.value = b.abs ∧ magnitude = n.chars)) := by
  unfold NumberLayout.number
  by_cases hnan : b.isNaN
  · exact .inl ⟨hnan, if_pos hnan⟩
  · refine .inr ⟨hnan, NumberLayout.plain.magnitude b, ?_, ?_⟩
    · rw [if_neg hnan]
      split <;> rfl
    · by_cases hfinite : b.isFinite
      · obtain ⟨n, hchars, hvalue⟩ := exists_numeral hfinite
        exact .inr ⟨n, hvalue, hchars.symm⟩
      · exact .inl ⟨abs_eq_infinity hfinite hnan, if_neg hfinite⟩

end Binary64

end SymbolicCalculus
