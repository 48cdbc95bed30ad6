import SymbolicCalculus.Proofs.Number.Nearest

/-! # Reading shortest decimals back

The search for a shortest decimal only stops at points whose nearest number is
the number searched for, and rounding is all that reading a decimal does. So
reading the decimal of a number gives that number again.
-/

namespace SymbolicCalculus.Binary64

variable {code numerator denominator numerator' denominator' : Nat}

theorem Nearest.of_ratio_eq (h : Nearest code numerator denominator) (hpos : 0 < denominator)
    (hpos' : 0 < denominator')
    (hratio : numerator * denominator' = numerator' * denominator) :
    Nearest code numerator' denominator' := by
  have hscale (units : Nat) :
      units * denominator' * denominator = units * denominator * denominator' :=
    Nat.mul_right_comm units denominator' denominator
  have hdouble : 2 * numerator' * denominator = 2 * numerator * denominator' := by
    rw [Nat.mul_assoc, Nat.mul_assoc, hratio]
  constructor
  · refine Nat.le_of_mul_le_mul_right ?_ hpos
    rw [hscale, hdouble]
    exact Nat.mul_le_mul_right _ h.lower
  · refine Nat.le_of_mul_le_mul_right ?_ hpos
    rw [hscale, hdouble]
    exact Nat.mul_le_mul_right _ h.upper
  · intro heq
    refine h.even_lower (Nat.eq_of_mul_eq_mul_right hpos' ?_)
    rw [← hscale, heq, hdouble]
  · intro heq
    refine h.even_upper (Nat.eq_of_mul_eq_mul_right hpos' ?_)
    rw [← hscale, ← heq, hdouble]

/-- A point reads back as the number that is nearest to it. -/
theorem readsBack_iff {point : Nat} :
    readsBack code point = true ↔ Nearest code point decimalUnits := by
  unfold readsBack
  split
  next heven =>
      simp only [Bool.and_eq_true, decide_eq_true_eq]
      exact ⟨fun h => ⟨h.1, h.2, fun _ => heven, fun _ => heven⟩, fun h => ⟨h.lower, h.upper⟩⟩
  next hodd =>
      simp only [Bool.and_eq_true, decide_eq_true_eq]
      constructor
      · intro h
        exact ⟨h.1.le, h.2.le, fun heq => absurd heq h.1.ne, fun heq => absurd heq h.2.ne⟩
      · intro h
        exact ⟨lt_of_le_of_ne h.lower (mt h.even_lower hodd),
          lt_of_le_of_ne h.upper (mt h.even_upper hodd)⟩

theorem decimalUnits_pos : 0 < decimalUnits := by
  unfold decimalUnits
  apply Nat.pow_pos
  decide

theorem nearest_self (hcode : 0 < code) (hpos : 0 < denominator) :
    Nearest code (unitsOfCode code * denominator) denominator := by
  have hbelow := Nat.mul_lt_mul_of_pos_right
    (unitsOfCode_strictMono (Nat.sub_one_lt hcode.ne')) hpos
  have habove := Nat.mul_lt_mul_of_pos_right (unitsOfCode_strictMono (Nat.lt_add_one code)) hpos
  constructor <;> rw [Nat.add_mul] <;> omega

theorem nearest_of_pointOnGrid? {grid point : Nat} (h : pointOnGrid? code grid = some point) :
    Nearest code (point * 10 ^ grid) decimalUnits := by
  rw [← readsBack_iff]
  rw [pointOnGrid?] at h
  split at h
  next => cases h
  next hbelow _ =>
      cases h
      exact hbelow
  next _ habove =>
      cases h
      exact habove
  next hbelow habove =>
      split at h
      next =>
          cases h
          exact hbelow
      next =>
          cases h
          exact habove

/-- Every decimal that the search can end with is nearest to the number. -/
theorem nearest_searchGrids (hcode : 0 < code) (grid : Nat) :
    ∃ scale : Nat, (searchGrids code grid).exponent = scale - 1074 ∧
      Nearest code ((searchGrids code grid).significand * 10 ^ scale) decimalUnits := by
  induction grid with
  | zero =>
      refine ⟨0, rfl, ?_⟩
      rw [searchGrids, Nat.pow_zero, Nat.mul_one]
      exact nearest_self hcode decimalUnits_pos
  | succ grid ih =>
      rw [searchGrids]
      cases hpoint : pointOnGrid? code (grid + 1) with
      | none => exact ih
      | some point => exact ⟨grid + 1, rfl, nearest_of_pointOnGrid? hpoint⟩

section OfDecimal

variable {significand places : Nat}

theorem le_of_nearest (hcode : 0 < code)
    (h : Nearest code (significand * Nat.pow 2 1074) (10 ^ places)) :
    10 ^ places ≤ 2 * (significand * Nat.pow 2 1074) := by
  have hunits : 1 ≤ unitsOfCode (code - 1) + unitsOfCode code :=
    Nat.le_add_left_of_le (Nat.one_le_of_lt (unitsOfCode_strictMono hcode))
  calc
    10 ^ places = 1 * 10 ^ places := (Nat.one_mul _).symm
    _ ≤ (unitsOfCode (code - 1) + unitsOfCode code) * 10 ^ places := Nat.mul_le_mul_right _ hunits
    _ ≤ 2 * (significand * Nat.pow 2 1074) := h.lower

/-- Such a decimal is not cut off as too small. -/
theorem places_le_of_nearest (hcode : 0 < code)
    (h : Nearest code (significand * Nat.pow 2 1074) (10 ^ places)) :
    places ≤ (Nat.toDigits 10 significand).length + 330 := by
  -- With more places the decimal is less than half the least magnitude.
  apply Nat.le_of_not_lt
  intro hlt
  generalize hdigits : (Nat.toDigits 10 significand).length = digits at hlt
  have hsignificand : significand < 10 ^ digits := by
    rw [← Nat.length_toDigits_le_iff (by decide) (hdigits ▸ Nat.length_toDigits_pos), hdigits]
  have hpowers : 2 * Nat.pow 2 1074 ≤ 10 ^ 331 := by decide +kernel
  have hplaces : 2 * (significand * Nat.pow 2 1074) < 10 ^ places := calc
    2 * (significand * Nat.pow 2 1074) = significand * (2 * Nat.pow 2 1074) := Nat.mul_left_comm ..
    _ < 10 ^ digits * 10 ^ 331 := by
      apply Nat.mul_lt_mul_of_lt_of_le hsignificand hpowers
      apply Nat.pow_pos
      decide
    _ = 10 ^ (digits + 331) := (pow_add 10 digits 331).symm
    _ ≤ 10 ^ places := Nat.pow_le_pow_right (by decide) hlt
  exact Nat.not_lt_of_le (le_of_nearest hcode h) hplaces

/-- Reading a decimal gives the finite number nearest to it. -/
theorem ofDecimal_eq (hcode : 0 < code) (hfinite : code < infinityCode)
    (h : Nearest code (significand * Nat.pow 2 1074) (10 ^ places)) :
    ofDecimal false significand (-places) = ofCode false code := by
  have hsignificand : significand ≠ 0 := by
    rintro rfl
    have hle := le_of_nearest hcode h
    simp only [Nat.zero_mul, Nat.mul_zero] at hle
    exact Nat.not_lt_of_le hle (Nat.pow_pos (by decide))
  have hplaces := places_le_of_nearest hcode h
  have hnearest : nearestCode significand (10 ^ places) = code := by
    rw [nearestCode_eq (Nat.pow_pos (by decide)) h, Nat.min_eq_right hfinite.le]
  rw [ofDecimal, if_neg (by omega), if_neg (by omega)]
  congr 1
  split
  next hinteger =>
      obtain rfl : places = 0 := by omega
      simpa using hnearest
  next =>
      rw [Int.neg_neg, Int.toNat_natCast]
      exact hnearest

end OfDecimal

end SymbolicCalculus.Binary64
