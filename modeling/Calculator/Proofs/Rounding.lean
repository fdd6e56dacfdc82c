import Calculator.Proofs.Parts
import Mathlib

/-!
# Rounding what needs no rounding

A quotient of naturals that equals a finite nonnegative number is rounded to that number (`ofRatio_eq_of_value`).  The
logarithm by which `ofRatio` places the significand is the true one (`floorLog2_eq_log`); so it finds the exponent of
the number again, where the quotient is a whole number of units: the significand.
-/

namespace Calculator.Binary64

/-- The number that a magnitude stands for. -/
def Magnitude.value (a : Magnitude) : ℚ :=
  a.significand * 2 ^ a.exponent

/-! ### Quotients of shifted naturals -/

theorem two_zpow_mul (e : ℤ) : (2 : ℚ) ^ e * 2 ^ (-e).toNat = 2 ^ e.toNat := by
  rw [← zpow_natCast, ← zpow_natCast, ← zpow_add₀ two_ne_zero]
  congr 1
  omega

section Shifts

variable {num den : Nat} (e : ℤ)

/-- Shifting one side of a quotient divides it by a power of two. -/
theorem cast_shiftLeft_div :
    ((num <<< (-e).toNat : ℕ) : ℚ) / (den <<< e.toNat : ℕ) = (num : ℚ) / den / 2 ^ e := by
  rw [Nat.shiftLeft_eq, Nat.shiftLeft_eq, Nat.cast_mul, Nat.cast_mul, Nat.cast_pow, Nat.cast_pow, Nat.cast_ofNat]
  calc (num : ℚ) * 2 ^ (-e).toNat / (den * 2 ^ e.toNat)
      = num * 2 ^ (-e).toNat / (den * 2 ^ e * 2 ^ (-e).toNat) := by rw [mul_assoc, two_zpow_mul]
    _ = num / (den * 2 ^ e) := mul_div_mul_right _ _ (by positivity)
    _ = num / den / 2 ^ e := (div_div _ _ _).symm

theorem shiftLeft_pos (h : 0 < den) (n : Nat) : 0 < den <<< n := by
  rw [Nat.shiftLeft_eq]
  exact Nat.mul_pos h (Nat.two_pow_pos n)

theorem shiftLeft_lt_shiftLeft_iff (h : 0 < den) :
    num <<< (-e).toNat < den <<< e.toNat ↔ (num : ℚ) / den < 2 ^ e := by
  have hden : (0 : ℚ) < (den <<< e.toNat : ℕ) := Nat.cast_pos.2 (shiftLeft_pos h _)
  rw [← div_lt_one (zpow_pos two_pos e : (0 : ℚ) < 2 ^ e), ← cast_shiftLeft_div, div_lt_one hden, Nat.cast_lt]

theorem shiftLeft_eq_mul_shiftLeft_iff (h : 0 < den) (m : Nat) :
    num <<< (-e).toNat = m * den <<< e.toNat ↔ (num : ℚ) / den = m * 2 ^ e := by
  have hden : ((den <<< e.toNat : ℕ) : ℚ) ≠ 0 := Nat.cast_ne_zero.2 (shiftLeft_pos h _).ne'
  rw [← div_eq_iff (zpow_ne_zero e two_ne_zero : (2 : ℚ) ^ e ≠ 0), ← cast_shiftLeft_div, div_eq_iff hden,
    ← Nat.cast_mul, Nat.cast_inj]

end Shifts

/-! ### The logarithm -/

theorem two_pow_log2_le {n : Nat} (h : 0 < n) : (2 : ℚ) ^ (n.log2 : ℤ) ≤ n := by
  rw [zpow_natCast]
  exact_mod_cast Nat.log2_self_le h.ne'

theorem lt_two_pow_log2 (n : Nat) : (n : ℚ) < 2 ^ ((n.log2 : ℤ) + 1) := by
  exact_mod_cast Nat.lt_log2_self

theorem log_eq_of_le_of_lt {q : ℚ} {e : ℤ} (hle : 2 ^ e ≤ q) (hlt : q < 2 ^ (e + 1)) : Int.log 2 q = e := by
  have hq : 0 < q := (zpow_pos two_pos e).trans_le hle
  have hlow : e ≤ Int.log 2 q := (Int.zpow_le_iff_le_log one_lt_two hq).1 (by exact_mod_cast hle)
  have hhigh : Int.log 2 q < e + 1 := (Int.lt_zpow_iff_log_lt one_lt_two hq).1 (by exact_mod_cast hlt)
  omega

theorem floorLog2_eq_log {num den : Nat} (hnum : 0 < num) (hden : 0 < den) :
    floorLog2 num den = Int.log 2 ((num : ℚ) / den) := by
  have hden' : (0 : ℚ) < den := Nat.cast_pos.2 hden
  -- the quotient lies within a factor of two of the difference of the logarithms
  have hlow : (2 : ℚ) ^ ((num.log2 : ℤ) - den.log2 - 1) ≤ num / den := by
    rw [le_div_iff₀ hden']
    calc (2 : ℚ) ^ ((num.log2 : ℤ) - den.log2 - 1) * den
        ≤ 2 ^ ((num.log2 : ℤ) - den.log2 - 1) * 2 ^ ((den.log2 : ℤ) + 1) := by
          gcongr
          exact (lt_two_pow_log2 den).le
      _ = 2 ^ (num.log2 : ℤ) := by
          rw [← zpow_add₀ two_ne_zero]
          congr 1
          omega
      _ ≤ num := two_pow_log2_le hnum
  have hhigh : (num : ℚ) / den < 2 ^ ((num.log2 : ℤ) - den.log2 + 1) := by
    rw [div_lt_iff₀ hden']
    calc (num : ℚ) < 2 ^ ((num.log2 : ℤ) + 1) := lt_two_pow_log2 num
      _ = 2 ^ ((num.log2 : ℤ) - den.log2 + 1) * 2 ^ (den.log2 : ℤ) := by
          rw [← zpow_add₀ two_ne_zero]
          congr 1
          omega
      _ ≤ 2 ^ ((num.log2 : ℤ) - den.log2 + 1) * den := by
          gcongr
          exact two_pow_log2_le hden
  rw [floorLog2]
  by_cases hlt : (num : ℚ) / den < 2 ^ ((num.log2 : ℤ) - den.log2)
  · rw [if_pos ((shiftLeft_lt_shiftLeft_iff _ hden).2 hlt)]
    exact (log_eq_of_le_of_lt hlow (by rwa [sub_add_cancel])).symm
  · rw [if_neg fun h => hlt ((shiftLeft_lt_shiftLeft_iff _ hden).1 h)]
    exact (log_eq_of_le_of_lt (not_lt.1 hlt) hhigh).symm

theorem log_mul_two_zpow {m : Nat} (hm : 0 < m) (e : ℤ) : Int.log 2 ((m : ℚ) * 2 ^ e) = m.log2 + e := by
  have he : (0 : ℚ) < 2 ^ e := zpow_pos two_pos e
  refine log_eq_of_le_of_lt ?_ ?_
  · rw [zpow_add₀ two_ne_zero]
    exact mul_le_mul_of_nonneg_right (two_pow_log2_le hm) he.le
  · rw [add_right_comm, zpow_add₀ two_ne_zero]
    exact mul_lt_mul_of_pos_right (lt_two_pow_log2 m) he

/-! ### Exact quotients -/

/-- The significand has at most 53 bits, and the exponent lies in the range of finite numbers; with fewer bits it is
the least one. -/
structure Magnitude.Canonical (a : Magnitude) : Prop where
  significand_lt : a.significand < 2 ^ 53
  exponent_le : a.exponent ≤ 971
  exponent_eq : 2 ^ 52 ≤ a.significand ∧ -1074 ≤ a.exponent ∨ a.exponent = -1074

theorem roundQuotient_mul (m : Nat) {den : Nat} (h : 0 < den) : roundQuotient (m * den) den = m := by
  rw [roundQuotient, Nat.mul_div_cancel m h, Nat.mul_mod_left]
  exact if_pos h

section Exact

variable {a : Magnitude} {num den : Nat}

theorem pos_of_value (hpos : 0 < a.significand) (h : (num : ℚ) / den = a.value) : 0 < num := by
  apply Nat.pos_of_ne_zero
  rintro rfl
  have hvalue : a.value ≠ 0 :=
    mul_ne_zero (Nat.cast_ne_zero.2 hpos.ne') (zpow_ne_zero a.exponent two_ne_zero)
  rw [Nat.cast_zero, zero_div] at h
  exact hvalue h.symm

/-- The last place of a number is where the number has it. -/
theorem lastPlace_eq_of_value (ha : a.Canonical) (hpos : 0 < a.significand) (hden : 0 < den)
    (h : (num : ℚ) / den = a.value) : lastPlace num den = a.exponent := by
  have hlog : floorLog2 num den = a.significand.log2 + a.exponent := by
    rw [floorLog2_eq_log (pos_of_value hpos h) hden, h, Magnitude.value, log_mul_two_zpow hpos]
  have hbits : a.significand.log2 < 53 := (Nat.log2_lt hpos.ne').2 ha.significand_lt
  rw [lastPlace, hlog]
  rcases ha.exponent_eq with ⟨hlarge, hexponent⟩ | hexponent
  · have hlog2 : ¬ a.significand.log2 < 52 := fun hlt => absurd ((Nat.log2_lt hpos.ne').1 hlt) (by omega)
    rw [if_neg (by omega)]
    omega
  · split <;> omega

/-- The bits of a number are its significand and, above it, how far its exponent is from the least one. -/
theorem bitsOfRatio_eq_of_value (ha : a.Canonical) (hden : 0 < den) (h : (num : ℚ) / den = a.value) :
    bitsOfRatio num den = a.significand + (a.exponent + 1074).toNat * 2 ^ 52 := by
  rcases Nat.eq_zero_or_pos a.significand with hzero | hpos
  · have hexponent : a.exponent = -1074 := ha.exponent_eq.resolve_left (by omega)
    have hnum : num = 0 := by
      rw [Magnitude.value, hzero, Nat.cast_zero, zero_mul, div_eq_zero_iff] at h
      exact Nat.cast_eq_zero.1 (h.resolve_right (Nat.cast_ne_zero.2 hden.ne'))
    rw [bitsOfRatio, if_pos hnum, hzero, hexponent]
    rfl
  · have hsignificand : num <<< (-a.exponent).toNat = a.significand * den <<< a.exponent.toNat :=
      (shiftLeft_eq_mul_shiftLeft_iff _ hden _).2 h
    have hlt := ha.significand_lt
    have hle := ha.exponent_le
    have hfinite : a.significand + (a.exponent + 1074).toNat * 2 ^ 52 < infinityBits := by
      rw [infinityBits, Nat.shiftLeft_eq]
      omega
    rw [bitsOfRatio, if_neg (pos_of_value hpos h).ne', lastPlace_eq_of_value ha hpos hden h]
    dsimp only
    rw [hsignificand, roundQuotient_mul _ (shiftLeft_pos hden _), Nat.shiftLeft_eq, if_pos hfinite]

end Exact

/-! ### Finite numbers -/

namespace Parts

variable (p : Parts)

theorem canonical_magnitude : (magnitude p.toFloat).Canonical := by
  have hexponent := p.toNat_exponent_lt
  have hfraction := p.fraction.isLt
  rw [magnitude_toFloat]
  split
  · refine ⟨?_, ?_, .inr rfl⟩ <;> dsimp only <;> omega
  · refine ⟨?_, ?_, .inl ?_⟩ <;> dsimp only <;> omega

/-- The bits of a nonnegative number from its magnitude. -/
theorem toNat_toBits_of_positive (h : p.sign = .positive) :
    p.toFloat.toBits.toNat =
      (magnitude p.toFloat).significand + ((magnitude p.toFloat).exponent + 1074).toNat * 2 ^ 52 := by
  have hsign : p.sign.toBitVec.toNat = 0 := by
    rw [h]
    rfl
  rw [toNat_toBits_toFloat, magnitude_toFloat, hsign]
  split
  · dsimp only
    omega
  · dsimp only
    omega

end Parts

/-- A quotient that equals a finite nonnegative number is rounded to that number. -/
theorem ofRatio_eq_of_value {x : Float} (hfinite : x.isFinite = true) (hpos : isNegative x = false) {num den : Nat}
    (hden : 0 < den) (h : (num : ℚ) / den = (magnitude x).value) : ofRatio num den = x := by
  obtain ⟨p, rfl⟩ := exists_parts hfinite
  have hsign : p.sign = .positive := by
    cases hsign : p.sign with
    | positive => rfl
    | negative =>
      rw [p.isNegative_toFloat.2 hsign] at hpos
      cases hpos
  rw [ofRatio, bitsOfRatio_eq_of_value p.canonical_magnitude hden h, ← p.toNat_toBits_of_positive hsign,
    UInt64.ofNat_toNat, p.ofBits_toBits_toFloat]

end Calculator.Binary64
