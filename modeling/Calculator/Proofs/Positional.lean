import Calculator.Numeral.Shortest
import Calculator.Proofs.Numerals
import Calculator.Proofs.Rounding
import Mathlib

/-!
# Positional notation

The text of a decimal is a numeral that says exactly the decimal (`Decimal.exists_parse?_text`): digits with as many of
them behind the point as the exponent asks for, padded with zeros.  The decimal of a magnitude equals the magnitude, so a
finite nonnegative number is read back from its exact decimal (`value?_text_ofMagnitude`).
-/

namespace Calculator.Numeral

open Binary64 (Magnitude)

/-! ### Digits -/

theorem isDigits_digits (n : Nat) : IsDigits (digits n) :=
  ⟨Nat.toDigits_ne_nil, fun _ hc => Nat.isDigit_of_mem_toDigits (by decide) (by decide) hc⟩

theorem ofDigits_digits (n : Nat) : ofDigits (digits n) = n :=
  Nat.ofDigitChars_ten_toDigits

/-- Digits behind others move them up by as many places. -/
theorem ofDigits_append (s t : List Char) : ofDigits (s ++ t) = ofDigits s * 10 ^ t.length + ofDigits t := by
  show Nat.ofDigitChars 10 (s ++ t) 0 = ofDigits s * 10 ^ t.length + Nat.ofDigitChars 10 t 0
  rw [Nat.ofDigitChars_append, Nat.ofDigitChars_eq_ofDigitChars_zero, Nat.mul_comm]
  rfl

/-- The digits of a number with zeros before them, so that there are `places` of them. -/
abbrev padded (places n : Nat) : List Char :=
  List.replicate (places - (digits n).length) '0' ++ digits n

theorem isDigits_padded (places n : Nat) : IsDigits (padded places n) := by
  refine ⟨List.append_ne_nil_of_right_ne_nil _ (isDigits_digits n).1, fun c hc => ?_⟩
  rcases List.mem_append.1 hc with hc | hc
  · rw [List.eq_of_mem_replicate hc]
    decide
  · exact (isDigits_digits n).2 c hc

theorem length_padded {places n : Nat} (hplaces : 0 < places) (h : n < 10 ^ places) :
    (padded places n).length = places := by
  have hlength : (digits n).length ≤ places := (Nat.length_toDigits_le_iff (by decide) hplaces).2 h
  rw [List.length_append, List.length_replicate]
  omega

theorem ofDigits_padded (places n : Nat) : ofDigits (padded places n) = n := by
  have hzeros : ofDigits (List.replicate (places - (digits n).length) '0') = 0 :=
    Nat.ofDigitChars_replicate_zero.trans (Nat.mul_zero _)
  rw [ofDigits_append, hzeros, Nat.zero_mul, Nat.zero_add, ofDigits_digits]

/-! ### Decimals -/

namespace Decimal

/-- The number that a decimal stands for. -/
def value (d : Decimal) : ℚ :=
  d.coefficient * 10 ^ d.exponent

/-- The text of a decimal says exactly the decimal. -/
theorem exists_parse?_text (d : Decimal) :
    ∃ digits places, parse? d.text = some (digits, places) ∧ (digits : ℚ) / (10 ^ places : ℕ) = d.value := by
  rw [text, value]
  by_cases hexponent : 0 ≤ d.exponent
  · have hpower : (10 : ℚ) ^ d.exponent = (10 ^ d.exponent.toNat : ℕ) := by
      rw [Nat.cast_pow, ← zpow_natCast, Int.toNat_of_nonneg hexponent]
      rfl
    rw [if_pos hexponent, parse?_of_isDigits (isDigits_digits _), ofDigits_digits]
    refine ⟨_, _, rfl, ?_⟩
    rw [pow_zero, Nat.cast_one, div_one, hpower, ← Nat.cast_mul]
    rfl
  · obtain ⟨places, hplaces⟩ : ∃ places : Nat, d.exponent = -places := ⟨(-d.exponent).toNat, by omega⟩
    have hpos : 0 < places := by omega
    have hlt : d.coefficient % 10 ^ places < 10 ^ places := Nat.mod_lt _ (by positivity)
    have hcut : d.coefficient / 10 ^ places * 10 ^ places + d.coefficient % 10 ^ places = d.coefficient :=
      Nat.div_add_mod' d.coefficient (10 ^ places)
    rw [if_neg hexponent, hplaces, neg_neg, Int.toNat_natCast]
    dsimp only [Nat.pow_eq]
    rw [parse?_point (isDigits_digits _) (isDigits_padded places _), ofDigits_append, length_padded hpos hlt,
      ofDigits_digits, ofDigits_padded, hcut]
    refine ⟨_, _, rfl, ?_⟩
    rw [zpow_neg, zpow_natCast, Nat.cast_pow, div_eq_mul_inv]
    rfl

/-- The decimal of a magnitude equals the magnitude. -/
theorem value_ofMagnitude (a : Magnitude) : (ofMagnitude a).value = a.value := by
  rw [ofMagnitude, Magnitude.value]
  by_cases hexponent : 0 ≤ a.exponent
  · rw [if_pos hexponent, value, zpow_zero, mul_one, Nat.shiftLeft_eq, Nat.cast_mul, Nat.cast_pow, Nat.cast_ofNat,
      ← zpow_natCast, Int.toNat_of_nonneg hexponent]
  · obtain ⟨places, hplaces⟩ : ∃ places : Nat, a.exponent = -places := ⟨(-a.exponent).toNat, by omega⟩
    have hten : (10 : ℚ) = 5 * 2 := by norm_num
    rw [if_neg hexponent, value, hplaces, neg_neg, Int.toNat_natCast, Nat.pow_eq, Nat.cast_mul, Nat.cast_pow,
      Nat.cast_ofNat, hten, mul_zpow, zpow_neg, zpow_natCast, mul_assoc, ← mul_assoc (5 ^ places),
      mul_inv_cancel₀ (by positivity), one_mul]

end Decimal

/-- A finite nonnegative number is read back from the decimal that equals it. -/
theorem value?_text_ofMagnitude {x : Float} (hfinite : x.isFinite = true) (hpos : Binary64.isNegative x = false) :
    value? (String.ofList (Decimal.ofMagnitude (Binary64.magnitude x)).text) = some x := by
  obtain ⟨digits, places, hparse, hvalue⟩ := (Decimal.ofMagnitude (Binary64.magnitude x)).exists_parse?_text
  rw [Decimal.value_ofMagnitude] at hvalue
  rw [value?, String.toList_ofList, hparse, Option.map_some]
  exact congrArg some (Binary64.ofRatio_eq_of_value hfinite hpos (Nat.pow_pos (by decide)) hvalue)

end Calculator.Numeral
