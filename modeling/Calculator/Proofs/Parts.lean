import Calculator.Binary64.Basic
import Mathlib

/-!
# The parts of a finite number

A finite number is its sign, its exponent field and its fraction, and every number that is neither infinite nor NaN has
these parts (`exists_parts`).  Negation and absolute value act on the sign alone, so the two together give every finite
number back, a negative zero included (`neg_abs_of_isNegative`).
-/

namespace Calculator.Binary64

open Float.Model (Format UnpackedFloat)
open Float.Model.UnpackedFloat

/-! ### Three fields of bits -/

section Fields

variable (sign : UnpackedFloat.Sign) (exponent : BitVec 11) (fraction : BitVec 52)

/-- The bits of a number with the given fields. -/
abbrev bits : BitVec Format.binary64.numBits :=
  packComponents Format.binary64 sign exponent fraction

theorem toNat_bits :
    (bits sign exponent fraction).toNat = 2 ^ 63 * sign.toBitVec.toNat + 2 ^ 52 * exponent.toNat + fraction.toNat := by
  have hfraction := fraction.isLt
  have hexponent := exponent.isLt
  show (sign.toBitVec ++ exponent ++ fraction).toNat = _
  rw [BitVec.toNat_append, BitVec.toNat_append, ← Nat.shiftLeft_add_eq_or_of_lt hfraction,
    ← Nat.shiftLeft_add_eq_or_of_lt hexponent, Nat.shiftLeft_eq, Nat.shiftLeft_eq]
  omega

theorem toBitVec_ofBitVec (b : BitVec 1) : (UnpackedFloat.Sign.ofBitVec b).toBitVec = b := by
  revert b
  decide

theorem ofBitVec_toBitVec (s : UnpackedFloat.Sign) : UnpackedFloat.Sign.ofBitVec s.toBitVec = s := by
  cases s <;> rfl

theorem toNat_unpackSign (b : BitVec Format.binary64.numBits) : (unpackSign b).toNat = b.toNat / 2 ^ 63 := by
  have hb : b.toNat < 2 ^ 64 := b.isLt
  show (b.toNat >>> 63) % 2 ^ 1 = _
  rw [Nat.shiftRight_eq_div_pow]
  omega

theorem toNat_unpackExponent (b : BitVec Format.binary64.numBits) :
    (unpackExponent b).toNat = b.toNat / 2 ^ 52 % 2 ^ 11 := by
  show (b.toNat >>> 52) % 2 ^ 11 = _
  rw [Nat.shiftRight_eq_div_pow]

theorem toNat_unpackMantissa (b : BitVec Format.binary64.numBits) : (unpackMantissa b).toNat = b.toNat % 2 ^ 52 := rfl

theorem unpackSign_bits : unpackSign (bits sign exponent fraction) = sign.toBitVec := by
  have hfraction := fraction.isLt
  have hexponent := exponent.isLt
  apply BitVec.eq_of_toNat_eq
  rw [toNat_unpackSign, toNat_bits]
  omega

theorem bits_unpack (b : BitVec Format.binary64.numBits) :
    bits (UnpackedFloat.Sign.ofBitVec (unpackSign b)) (unpackExponent b) (unpackMantissa b) = b := by
  have hb : b.toNat < 2 ^ 64 := b.isLt
  apply BitVec.eq_of_toNat_eq
  rw [toNat_bits, toBitVec_ofBitVec, toNat_unpackSign, toNat_unpackExponent, toNat_unpackMantissa]
  omega

end Fields

/-! ### Finite numbers -/

/-- The sign, the exponent field and the fraction of a finite number.  The greatest exponent field is that of the
infinities and of NaN. -/
structure Parts where
  sign : UnpackedFloat.Sign
  exponent : BitVec 11
  fraction : BitVec 52
  finite : exponent ≠ -1#11

namespace Parts

variable (p : Parts)

/-- The number with the given parts. -/
def toFloat : Float :=
  ⟨⟨UInt64.ofBitVec (bits p.sign p.exponent p.fraction),
    ⟨fun h _ => absurd (unpackExponent_packComponents.symm.trans h) p.finite⟩⟩⟩

/-- The parts with another sign. -/
def withSign (s : UnpackedFloat.Sign) : Parts :=
  { p with sign := s }

theorem toNat_exponent_lt : p.exponent.toNat < 2047 := by
  have hlt := p.exponent.isLt
  have hne : p.exponent.toNat ≠ 2047 := fun h => p.finite (BitVec.eq_of_toNat_eq h)
  omega

theorem toNat_fraction_pos (h : p.fraction ≠ 0#52) : 0 < p.fraction.toNat :=
  Nat.pos_of_ne_zero fun hzero => h (BitVec.eq_of_toNat_eq hzero)

/-- What the parts stand for.  An exponent field of zero is read like one of one, but without a leading one. -/
def unpacked : UnpackedFloat :=
  if p.exponent = 0#11 then
    if h : p.fraction = 0#52 then .zero p.sign
    else .finite p.sign p.fraction.toNat (-1074) (p.toNat_fraction_pos h)
  else .finite p.sign (2 ^ 52 + p.fraction.toNat) (p.exponent.toNat - 1075) (by omega)

theorem unpack_bits : unpack Format.binary64 (bits p.sign p.exponent p.fraction) = p.unpacked := by
  have hleading : (1#1 ++ p.fraction).toNat = 2 ^ 52 + p.fraction.toNat := by
    rw [BitVec.toNat_append, ← Nat.shiftLeft_add_eq_or_of_lt p.fraction.isLt]
    rfl
  have hbias : ((Format.binary64.exponentBias : Nat) : Int) + Format.binary64.mantissaBitsWithoutImplicit = 1075 := rfl
  unfold unpack unpacked
  simp only [unpackExponent_packComponents, unpackMantissa_packComponents, unpackSign_bits, ofBitVec_toBitVec,
    if_neg p.finite, hleading, hbias]
  by_cases hexponent : p.exponent = 0#11
  · rw [if_pos hexponent, if_pos hexponent, hexponent]
    rfl
  · rw [if_neg hexponent, if_neg hexponent]

theorem pack_unpacked : pack Format.binary64 p.unpacked = bits p.sign p.exponent p.fraction := by
  have hexponent := p.toNat_exponent_lt
  have hfraction := p.fraction.isLt
  have hbias : ((Format.binary64.exponentBias : Nat) : Int) = 1023 := rfl
  have hplaces : ((Format.binary64.mantissaBitsWithoutImplicit : Nat) : Int) = 52 := rfl
  have hbits : Format.binary64.mantissaBits = 53 := rfl
  unfold unpacked
  by_cases hzero : p.exponent = 0#11
  · rw [if_pos hzero]
    by_cases hnone : p.fraction = 0#52
    · rw [dif_pos hnone, pack, bits, hzero, hnone]
      rfl
    · have hlog : p.fraction.toNat.log2 < 52 := (Nat.log2_lt (p.toNat_fraction_pos hnone).ne').2 hfraction
      rw [dif_neg hnone, pack, hbias, hbits]
      dsimp only
      rw [if_neg (by decide), if_neg (by omega), BitVec.ofNat_toNat, BitVec.setWidth_eq, bits, hzero]
  · have hlog : (2 ^ 52 + p.fraction.toNat).log2 = 52 := (Nat.log2_eq_iff (by omega)).2 (by omega)
    have hbiased : ((p.exponent.toNat : Int) - 1075 + 1023 + 52).toNat = p.exponent.toNat := by omega
    have hmantissa : BitVec.ofNat 52 (2 ^ 52 + p.fraction.toNat) = p.fraction := by
      apply BitVec.eq_of_toNat_eq
      rw [BitVec.toNat_ofNat]
      omega
    have hfits : ¬ 2 ^ 11 ≤ p.exponent.toNat + 1 := by omega
    rw [if_neg hzero, pack, hbias, hplaces, hbits, hlog, hbiased]
    dsimp only
    rw [if_neg hfits, if_pos rfl, hmantissa, BitVec.ofNat_toNat, BitVec.setWidth_eq]

theorem abs_unpacked : p.unpacked.abs = (p.withSign .positive).unpacked := by
  unfold unpacked withSign
  split
  · split <;> rfl
  · rfl

theorem neg_unpacked : p.unpacked.neg = (p.withSign (-p.sign)).unpacked := by
  unfold unpacked withSign
  split
  · split <;> rfl
  · rfl

/-! ### Numbers and their parts -/

theorem unpack_toFloat : p.toFloat.toModel.unpack = p.unpacked :=
  p.unpack_bits

theorem ofModel_pack_unpacked : Float.ofModel (.pack p.unpacked) = p.toFloat := by
  rw [toFloat, Float.ofModel.injEq, Float.Model.mk.injEq, Float.Model.pack]
  exact congrArg UInt64.ofBitVec p.pack_unpacked

theorem abs_toFloat : p.toFloat.abs = (p.withSign .positive).toFloat := by
  rw [← (p.withSign .positive).ofModel_pack_unpacked, ← abs_unpacked, ← unpack_toFloat]
  rfl

theorem neg_toFloat : -p.toFloat = (p.withSign (-p.sign)).toFloat := by
  rw [← (p.withSign (-p.sign)).ofModel_pack_unpacked, ← neg_unpacked, ← unpack_toFloat]
  rfl

theorem toNat_toBits_toFloat :
    p.toFloat.toBits.toNat = 2 ^ 63 * p.sign.toBitVec.toNat + 2 ^ 52 * p.exponent.toNat + p.fraction.toNat :=
  toNat_bits p.sign p.exponent p.fraction

theorem ofBits_toBits_toFloat : Float.ofBits p.toFloat.toBits = p.toFloat := by
  show Float.ofModel (.pack (unpack Format.binary64 (bits p.sign p.exponent p.fraction))) = p.toFloat
  rw [unpack_bits, ofModel_pack_unpacked]

theorem isFinite_toFloat : p.toFloat.isFinite = true := by
  show p.toFloat.toModel.unpack.isFinite = true
  rw [unpack_toFloat, unpacked]
  split
  · split <;> rfl
  · rfl

theorem isNegative_toFloat : isNegative p.toFloat = true ↔ p.sign = .negative := by
  have hexponent := p.toNat_exponent_lt
  have hfraction := p.fraction.isLt
  have hone : 1 <<< 63 = 2 ^ 63 := rfl
  rw [isNegative, decide_eq_true_iff, toNat_toBits_toFloat, hone]
  cases hsign : p.sign with
  | negative =>
    refine iff_of_true ?_ rfl
    show 2 ^ 63 ≤ 2 ^ 63 * 1 + _ + _
    omega
  | positive =>
    refine iff_of_false ?_ (by simp)
    show ¬ 2 ^ 63 ≤ 2 ^ 63 * 0 + _ + _
    omega

/-- The magnitude of a number, from its exponent field and its fraction. -/
theorem magnitude_toFloat : magnitude p.toFloat =
    if p.exponent.toNat = 0 then ⟨p.fraction.toNat, -1074⟩
    else ⟨2 ^ 52 + p.fraction.toNat, p.exponent.toNat - 1075⟩ := by
  have hexponent := p.toNat_exponent_lt
  have hfraction := p.fraction.isLt
  have hlow : p.toFloat.toBits.toNat % (1 <<< 52) = p.fraction.toNat := by
    rw [toNat_toBits_toFloat, Nat.shiftLeft_eq]
    omega
  have hfield : (p.toFloat.toBits.toNat >>> 52) % (1 <<< 11) = p.exponent.toNat := by
    rw [toNat_toBits_toFloat, Nat.shiftRight_eq_div_pow, Nat.shiftLeft_eq]
    omega
  rw [magnitude, hlow, hfield]
  rfl

end Parts

/-- The bits of a finite number are those of its parts. -/
theorem exists_bits_eq {b : BitVec Format.binary64.numBits} (h : (unpack Format.binary64 b).isFinite = true) :
    ∃ p : Parts, bits p.sign p.exponent p.fraction = b := by
  have hexponent : unpackExponent b ≠ -1#11 := by
    intro hexponent
    -- the number would be an infinity or NaN
    have hunpack : (unpack Format.binary64 b).isFinite = false := by
      rw [unpack, if_pos hexponent]
      split <;> rfl
    rw [h] at hunpack
    cases hunpack
  exact ⟨⟨UnpackedFloat.Sign.ofBitVec (unpackSign b), unpackExponent b, unpackMantissa b, hexponent⟩, bits_unpack b⟩

/-- A finite number has parts. -/
theorem exists_parts {x : Float} (h : x.isFinite = true) : ∃ p : Parts, p.toFloat = x := by
  obtain ⟨b, hvalid⟩ := x
  obtain ⟨p, hp⟩ := exists_bits_eq h
  refine ⟨p, ?_⟩
  rw [Parts.toFloat, Float.ofModel.injEq, Float.Model.mk.injEq]
  exact congrArg UInt64.ofBitVec hp

/-- A finite number is its absolute value with its sign, also if it is zero. -/
theorem neg_abs_of_isNegative {x : Float} (h : x.isFinite = true) :
    (if isNegative x = true then -x.abs else x.abs) = x := by
  obtain ⟨p, rfl⟩ := exists_parts h
  rw [Parts.abs_toFloat, Parts.neg_toFloat]
  by_cases hneg : p.sign = .negative
  · have hsign : (p.withSign .positive).withSign (-(p.withSign .positive).sign) = p.withSign p.sign := by
      rw [hneg]
      rfl
    rw [if_pos (p.isNegative_toFloat.2 hneg), hsign]
    rfl
  · have hpos : p.sign = .positive := by
      cases hsign : p.sign with
      | positive => rfl
      | negative => exact absurd hsign hneg
    rw [if_neg (fun hn => hneg (p.isNegative_toFloat.1 hn)), ← hpos]
    rfl

theorem isFinite_abs {x : Float} (h : x.isFinite = true) : x.abs.isFinite = true := by
  obtain ⟨p, rfl⟩ := exists_parts h
  rw [Parts.abs_toFloat]
  exact Parts.isFinite_toFloat _

theorem isNegative_abs {x : Float} (h : x.isFinite = true) : isNegative x.abs = false := by
  obtain ⟨p, rfl⟩ := exists_parts h
  rw [Parts.abs_toFloat, Bool.eq_false_iff, ne_eq, Parts.isNegative_toFloat]
  exact UnpackedFloat.Sign.noConfusion

/-! ### Numbers that are not finite -/

/-- A number is finite, infinite or NaN. -/
theorem isFinite_iff {x : Float} : x.isFinite = true ↔ x.isNaN = false ∧ x.isInf = false := by
  show x.toModel.unpack.isFinite = true ↔ x.toModel.unpack.isNaN = false ∧ x.toModel.unpack.isInf = false
  cases x.toModel.unpack <;> simp [isFinite, isNaN, isInf]

theorem isNaN_of_isInf {x : Float} (h : x.isInf = true) : x.isNaN = false := by
  change x.toModel.unpack.isInf = true at h
  show x.toModel.unpack.isNaN = false
  cases hu : x.toModel.unpack <;> rw [hu] at h <;> first | rfl | cases h

theorem eq_of_toBits {x y : Float} (h : x.toBits = y.toBits) : x = y := by
  obtain ⟨b, hb⟩ := x
  obtain ⟨c, hc⟩ := y
  rw [Float.ofModel.injEq, Float.Model.mk.injEq]
  exact h

/-- The sign bit of NaN is not set. -/
theorem isNegative_of_isNaN {x : Float} (h : x.isNaN = true) : isNegative x = false := by
  obtain ⟨b, hvalid⟩ := x
  have hnan : b.toBitVec = packedNaN Format.binary64 := by
    change (unpack Format.binary64 b.toBitVec).isNaN = true at h
    rw [unpack] at h
    split at h
    · rename_i hexponent
      split at h
      · cases h
      · rename_i hmantissa
        exact hvalid.eq_packedNaN hexponent hmantissa
    · split at h
      · split at h <;> cases h
      · cases h
  show decide (1 <<< 63 ≤ b.toBitVec.toNat) = false
  rw [hnan]
  decide

end Calculator.Binary64
