import Mathlib.Algebra.Order.Ring.Nat
import SymbolicCalculus.Number.Rounding
import SymbolicCalculus.Number.Shortest

/-! # Nearest numbers

Magnitudes grow with their codes, so the midpoints between neighbours part all
magnitudes into one interval for each code. Rounding a ratio gives the code in
whose interval the ratio lies.
-/

namespace SymbolicCalculus

/-- Rounding moves a ratio by a half at most, and by a half only to an even
integer. -/
structure RoundedTo (rounded numerator denominator : Nat) : Prop where
  lower : 2 * (rounded * denominator) ≤ 2 * numerator + denominator
  upper : 2 * numerator ≤ 2 * (rounded * denominator) + denominator
  even_lower : 2 * (rounded * denominator) = 2 * numerator + denominator → rounded % 2 = 0
  even_upper : 2 * numerator = 2 * (rounded * denominator) + denominator → rounded % 2 = 0

theorem roundHalfEven_roundedTo (numerator : Nat) {denominator : Nat} (hpos : 0 < denominator) :
    RoundedTo (roundHalfEven numerator denominator) numerator denominator := by
  have hdiv := Nat.div_add_mod' numerator denominator
  have hmod := Nat.mod_lt numerator hpos
  rw [roundHalfEven]
  split
  next hcompare =>
      have hlt := Nat.compare_eq_lt.mp hcompare
      constructor <;> omega
  next hcompare =>
      have hgt := Nat.compare_eq_gt.mp hcompare
      constructor <;> simp only [Nat.add_mul, Nat.one_mul] <;> omega
  next hcompare =>
      have heq := Nat.compare_eq_eq.mp hcompare
      generalize numerator / denominator = below at hdiv
      rcases Nat.mod_two_eq_zero_or_one below with heven | hodd
      · rw [heven, Nat.add_zero]
        constructor <;> omega
      · rw [hodd]
        constructor <;> simp only [Nat.add_mul, Nat.one_mul] <;> omega

namespace RoundedTo

variable {rounded numerator denominator bound : Nat}

theorem le (h : RoundedTo rounded numerator denominator) (hlt : numerator < bound * denominator) :
    rounded ≤ bound := by
  have hlower := h.lower
  apply Nat.le_of_not_lt
  intro hbound
  have hmul := Nat.mul_le_mul_right denominator hbound
  rw [Nat.succ_mul] at hmul
  omega

theorem ge (h : RoundedTo rounded numerator denominator) (hpos : 0 < denominator)
    (hle : bound * denominator ≤ numerator) : bound ≤ rounded := by
  have hupper := h.upper
  apply Nat.le_of_not_lt
  intro hbound
  have hmul := Nat.mul_le_mul_right denominator hbound
  rw [Nat.succ_mul] at hmul
  omega

end RoundedTo

namespace Binary64

/-- The magnitude of a significand of at most 53 bits at the exponent `shift`,
which needs all its bits unless the exponent is the least one. -/
theorem unitsOfCode_add {shift significand : Nat} (hle : significand ≤ 2 * fractionCount)
    (hnormal : shift = 0 ∨ fractionCount ≤ significand) :
    unitsOfCode (shift * fractionCount + significand) = significand * 2 ^ shift := by
  unfold unitsOfCode
  simp only [fractionCount] at hle hnormal ⊢
  split
  next hsmall =>
      obtain rfl : shift = 0 := by omega
      rw [Nat.zero_mul, Nat.zero_add, Nat.pow_zero, Nat.mul_one]
  next hlarge =>
      generalize hcode : shift * 4503599627370496 + significand = code
      rcases Nat.lt_or_eq_of_le hle with hlt | hlargest
      · have hdiv : code / 4503599627370496 - 1 = shift := by omega
        have hmod : 4503599627370496 + code % 4503599627370496 = significand := by omega
        rw [hdiv, hmod, Nat.pow_eq]
      · -- A significand of 54 bits carries over into the exponent.
        have hdiv : code / 4503599627370496 - 1 = shift + 1 := by omega
        have hmod : 4503599627370496 + code % 4503599627370496 = 4503599627370496 := by omega
        rw [hdiv, hmod, hlargest, Nat.pow_eq, Nat.pow_succ', ← Nat.mul_assoc]

theorem exists_code_eq (code : Nat) :
    ∃ shift significand, code = shift * fractionCount + significand ∧
      significand < 2 * fractionCount ∧ (shift = 0 ∨ fractionCount ≤ significand) := by
  simp only [fractionCount]
  by_cases hsmall : code < 4503599627370496
  · exact ⟨0, code, by omega, by omega, .inl rfl⟩
  · exact ⟨code / 4503599627370496 - 1, 4503599627370496 + code % 4503599627370496,
      by omega, by omega, .inr (by omega)⟩

theorem unitsOfCode_add_succ {shift significand : Nat} (hlt : significand < 2 * fractionCount)
    (hnormal : shift = 0 ∨ fractionCount ≤ significand) :
    unitsOfCode (shift * fractionCount + significand + 1) =
      unitsOfCode (shift * fractionCount + significand) + 2 ^ shift := by
  rw [unitsOfCode_add hlt.le hnormal, Nat.add_assoc, unitsOfCode_add hlt (by omega), Nat.succ_mul]

theorem unitsOfCode_strictMono : StrictMono unitsOfCode := by
  apply strictMono_nat_of_lt_succ
  intro code
  obtain ⟨shift, significand, rfl, hlt, hnormal⟩ := exists_code_eq code
  rw [unitsOfCode_add_succ hlt hnormal]
  exact Nat.lt_add_of_pos_right (Nat.two_pow_pos _)

/-- A ratio, in units of `2 ^ -1074`, lies between the midpoints to both
neighbours of the number with this code. A midpoint belongs to the even one. -/
structure Nearest (code numerator denominator : Nat) : Prop where
  lower : (unitsOfCode (code - 1) + unitsOfCode code) * denominator ≤ 2 * numerator
  upper : 2 * numerator ≤ (unitsOfCode code + unitsOfCode (code + 1)) * denominator
  even_lower :
    (unitsOfCode (code - 1) + unitsOfCode code) * denominator = 2 * numerator → code % 2 = 0
  even_upper :
    2 * numerator = (unitsOfCode code + unitsOfCode (code + 1)) * denominator → code % 2 = 0

theorem Nearest.le {code code' numerator denominator : Nat} (hpos : 0 < denominator)
    (h : Nearest code numerator denominator) (h' : Nearest code' numerator denominator) :
    code' ≤ code := by
  apply Nat.le_of_not_lt
  intro hlt
  have hfirst : unitsOfCode code ≤ unitsOfCode (code' - 1) :=
    unitsOfCode_strictMono.monotone (by omega)
  have hsecond : unitsOfCode (code + 1) ≤ unitsOfCode code' := unitsOfCode_strictMono.monotone hlt
  have hmidpoints : (unitsOfCode code + unitsOfCode (code + 1)) * denominator ≤
      (unitsOfCode (code' - 1) + unitsOfCode code') * denominator :=
    Nat.mul_le_mul_right _ (Nat.add_le_add hfirst hsecond)
  have hupper := h.upper
  have hlower := h'.lower
  -- The two midpoints are the same, so both codes are even and not neighbours.
  have heven := h.even_upper (by omega)
  have heven' := h'.even_lower (by omega)
  have hbetween : unitsOfCode code < unitsOfCode (code' - 1) :=
    unitsOfCode_strictMono (by omega)
  have hstrict : (unitsOfCode code + unitsOfCode (code + 1)) * denominator <
      (unitsOfCode (code' - 1) + unitsOfCode code') * denominator :=
    Nat.mul_lt_mul_of_pos_right (Nat.add_lt_add_of_lt_of_le hbetween hsecond) hpos
  omega

/-- No ratio is nearest to two numbers. -/
theorem Nearest.unique {code code' numerator denominator : Nat} (hpos : 0 < denominator)
    (h : Nearest code numerator denominator) (h' : Nearest code' numerator denominator) :
    code = code' :=
  Nat.le_antisymm (h'.le hpos h) (h.le hpos h')

section Rounded

variable {shift significand numerator denominator : Nat}

theorem unitsOfCode_add_le_succ (hle : significand ≤ 2 * fractionCount)
    (hnormal : shift = 0 ∨ fractionCount ≤ significand) :
    unitsOfCode (shift * fractionCount + significand) + 2 ^ shift ≤
      unitsOfCode (shift * fractionCount + significand + 1) := by
  rcases Nat.lt_or_eq_of_le hle with hlt | rfl
  · exact (unitsOfCode_add_succ hlt hnormal).ge
  · have hcode : shift * fractionCount + 2 * fractionCount =
        (shift + 1) * fractionCount + fractionCount := by
      rw [Nat.two_mul, ← Nat.add_assoc, Nat.succ_mul]
    rw [hcode, unitsOfCode_add_succ (by decide) (.inr le_rfl)]
    exact Nat.add_le_add_left (Nat.pow_le_pow_right (by decide) (Nat.le_succ shift)) _

theorem code_even (heven : significand % 2 = 0) :
    (shift * fractionCount + significand) % 2 = 0 := by
  simp only [fractionCount]
  omega

/-- The previous magnitude is one unit in the last place away. Below a power of
two it is nearer. -/
theorem unitsOfCode_pred (hle : significand ≤ 2 * fractionCount)
    (hnormal : shift = 0 ∨ fractionCount < significand)
    (hpos : 0 < shift * fractionCount + significand) :
    unitsOfCode (shift * fractionCount + significand) =
      unitsOfCode (shift * fractionCount + significand - 1) + 2 ^ shift := by
  obtain ⟨previous, rfl⟩ : ∃ previous, significand = previous + 1 := by
    rcases hnormal with rfl | hnormal
    · exact Nat.exists_eq_add_one.mpr (by simpa using hpos)
    · exact Nat.exists_eq_add_one.mpr (Nat.zero_lt_of_lt hnormal)
  have hlt : previous < 2 * fractionCount := Nat.lt_of_succ_le hle
  rw [← Nat.add_assoc, Nat.add_sub_cancel]
  exact unitsOfCode_add_succ hlt (hnormal.imp_right Nat.le_of_lt_succ)

/-- The code of a significand rounded at the exponent `shift` is the nearest one,
if the ratio has no smaller exponent. -/
theorem nearest_of_roundedTo (hpos : 0 < denominator)
    (h : RoundedTo significand numerator (denominator * 2 ^ shift))
    (hle : significand ≤ 2 * fractionCount)
    (hnormal : shift = 0 ∨ fractionCount ≤ significand)
    (hratio : shift = 0 ∨ fractionCount * (denominator * 2 ^ shift) ≤ numerator) :
    Nearest (shift * fractionCount + significand) numerator denominator := by
  generalize hcode : shift * fractionCount + significand = code
  have heven (hsignificand : significand % 2 = 0) : code % 2 = 0 := by
    rw [← hcode]
    exact code_even hsignificand
  have hunits : unitsOfCode code * denominator = significand * (denominator * 2 ^ shift) := by
    rw [← hcode, unitsOfCode_add hle hnormal, Nat.mul_assoc, Nat.mul_comm denominator]
  have habove := Nat.mul_le_mul_right denominator (unitsOfCode_add_le_succ hle hnormal)
  rw [hcode, Nat.add_mul, Nat.mul_comm (2 ^ shift)] at habove
  have hbelow : code = 0 ∨
      unitsOfCode (code - 1) * denominator + denominator * 2 ^ shift =
        unitsOfCode code * denominator ∨
      (unitsOfCode (code - 1) + unitsOfCode code) * denominator < 2 * numerator := by
    rcases Nat.eq_zero_or_pos code with hzero | hcodePos
    · exact .inl hzero
    · by_cases hexact : shift = 0 ∨ fractionCount < significand
      · have hpred := unitsOfCode_pred hle hexact (by rwa [hcode])
        rw [hcode] at hpred
        rw [hpred, Nat.add_mul, Nat.mul_comm (2 ^ shift)]
        exact .inr (.inl rfl)
      · -- The significand is that of a power of two, which the ratio reaches.
        obtain ⟨hshift, hpower⟩ := not_or.mp hexact
        have hsignificand := Nat.le_antisymm (Nat.le_of_not_lt hpower) (hnormal.resolve_left hshift)
        rw [hsignificand] at hunits
        have hreached := hratio.resolve_left hshift
        have hpred := Nat.mul_lt_mul_of_pos_right
          (unitsOfCode_strictMono (Nat.sub_one_lt hcodePos.ne')) hpos
        rw [Nat.add_mul]
        exact .inr (.inr (by omega))
  have hupper := h.upper
  have hlower := h.lower
  constructor
  · rw [Nat.add_mul]
    rcases hbelow with rfl | hbelow | hbelow
    · simp [unitsOfCode]
    · omega
    · rw [← Nat.add_mul]
      exact hbelow.le
  · rw [Nat.add_mul]
    omega
  · intro heq
    rcases hbelow with rfl | hbelow | hbelow
    · rfl
    · rw [Nat.add_mul] at heq
      exact heven (h.even_lower (by omega))
    · exact absurd heq hbelow.ne
  · intro heq
    rw [Nat.add_mul] at heq
    exact heven (h.even_upper (by omega))

end Rounded

section Shift

variable {numerator denominator shift : Nat}

theorem lt_of_log2_sub (hpos : 0 < denominator)
    (hshift : (numerator / denominator).log2 - 52 = shift) :
    numerator < 2 * fractionCount * (denominator * 2 ^ shift) := by
  have hdiv : numerator / denominator < 2 ^ (shift + 53) :=
    (Nat.lt_log2_self).trans_le (Nat.pow_le_pow_right (by decide) (by omega))
  have hlt := (Nat.div_lt_iff_lt_mul hpos).mp hdiv
  calc
    numerator < 2 ^ (shift + 53) * denominator := hlt
    _ = 2 * fractionCount * (denominator * 2 ^ shift) := by
      have hbits : 2 ^ 53 = 2 * fractionCount := by decide
      rw [Nat.pow_add, Nat.mul_comm denominator, Nat.mul_comm (2 ^ shift), Nat.mul_assoc, hbits]

theorem le_of_log2_sub (hpos : 0 < denominator)
    (hshift : (numerator / denominator).log2 - 52 = shift) :
    shift = 0 ∨ fractionCount * (denominator * 2 ^ shift) ≤ numerator := by
  rcases Nat.eq_zero_or_pos shift with hzero | hshiftPos
  · exact .inl hzero
  · have hlog : (numerator / denominator).log2 = 52 + shift := by omega
    have hne : numerator / denominator ≠ 0 := by
      intro hzero
      rw [hzero, Nat.log2_zero] at hlog
      omega
    have hle := Nat.log2_self_le hne
    rw [hlog, Nat.le_div_iff_mul_le hpos, Nat.pow_add, Nat.mul_assoc,
      Nat.mul_comm (2 ^ shift)] at hle
    exact .inr hle

end Shift

/-- Every ratio has a nearest number, which rounding gives up to infinity. -/
theorem exists_nearest (numerator : Nat) {denominator : Nat} (hpos : 0 < denominator) :
    ∃ code, Nearest code (numerator * Nat.pow 2 1074) denominator ∧
      nearestCode numerator denominator = min infinityCode code := by
  rw [nearestCode]
  generalize numerator * Nat.pow 2 1074 = units
  generalize hshift : (units / denominator).log2 - 52 = shift
  rw [Nat.pow_eq]
  have hscale : 0 < denominator * 2 ^ shift := Nat.mul_pos hpos (Nat.two_pow_pos shift)
  have hrounded := roundHalfEven_roundedTo units hscale
  have hratio := le_of_log2_sub hpos hshift
  exact ⟨_, nearest_of_roundedTo hpos hrounded (hrounded.le (lt_of_log2_sub hpos hshift))
    (hratio.imp_right (hrounded.ge hscale)) hratio, rfl⟩

/-- Rounding gives the nearest number, up to infinity. -/
theorem nearestCode_eq {code numerator denominator : Nat} (hpos : 0 < denominator)
    (h : Nearest code (numerator * Nat.pow 2 1074) denominator) :
    nearestCode numerator denominator = min infinityCode code := by
  obtain ⟨code', hnearest, hcode⟩ := exists_nearest numerator hpos
  rw [hcode, hnearest.unique hpos h]

end Binary64

end SymbolicCalculus
