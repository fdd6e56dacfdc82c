import Calculator.Binary64.Basic
import Mathlib

/-!
# The order of numbers

Every number but NaN has a place in a linear order, in which the two zeros have the same place (`place`).  Comparing two
numbers is comparing their places, and a comparison with NaN fails: `le_iff`, `lt_iff`, `beq_iff`.  So the order of
numbers is transitive, and without NaN it is total.
-/

namespace Calculator.Binary64

open Float.Model (UnpackedFloat)

/-- The place of an unpacked number: what decides first is whether it is infinite and its sign, then its exponent, then
its significand. -/
def unpackedPlace : UnpackedFloat → Int ×ₗ Int ×ₗ Int
  | .infinity .negative => toLex (-2, toLex (0, 0))
  | .finite .negative significand exponent _ => toLex (-1, toLex (-exponent, -significand))
  | .zero _ | .notANumber => toLex (0, toLex (0, 0))
  | .finite .positive significand exponent _ => toLex (1, toLex (exponent, significand))
  | .infinity .positive => toLex (2, toLex (0, 0))

theorem compare_toLex (c e e' m m' : Int) :
    compare (toLex (c, toLex (e, m))) (toLex (c, toLex (e', m'))) = (compare e e').then (compare m m') := by
  rw [Prod.Lex.compare_def]
  simp [compareLex, compareOn, Prod.Lex.compare_def]

theorem compare_neg_neg (a b : Int) : compare (-a) (-b) = (compare a b).swap := by
  rcases lt_trichotomy a b with h | h | h
  · rw [compare_lt_iff_lt.2 h, compare_gt_iff_gt.2 (neg_lt_neg h)]
    rfl
  · rw [compare_eq_iff_eq.2 h, compare_eq_iff_eq.2 (congrArg Neg.neg h)]
    rfl
  · rw [compare_gt_iff_gt.2 h, compare_lt_iff_lt.2 (neg_lt_neg h)]
    rfl

theorem compare_natCast (m m' : Nat) : compare (m : Int) (m' : Int) = compare m m' := by
  rcases lt_trichotomy m m' with h | h | h
  · rw [compare_lt_iff_lt.2 h, compare_lt_iff_lt.2 (Int.ofNat_lt.2 h)]
  · rw [compare_eq_iff_eq.2 h, compare_eq_iff_eq.2 (congrArg Nat.cast h)]
  · rw [compare_gt_iff_gt.2 h, compare_gt_iff_gt.2 (Int.ofNat_lt.2 h)]

/-- Comparing unpacked numbers is comparing their places. -/
theorem unpacked_compare {a b : UnpackedFloat} (ha : a ≠ .notANumber) (hb : b ≠ .notANumber) :
    a.compare b = some (compare (unpackedPlace a) (unpackedPlace b)) := by
  cases a with
  | notANumber => exact absurd rfl ha
  | infinity s =>
    cases b with
    | notANumber => exact absurd rfl hb
    | infinity s' => cases s <;> cases s' <;> rfl
    | zero s' => cases s <;> rfl
    | finite s' m' e' h' => cases s <;> cases s' <;> rfl
  | zero s =>
    cases b with
    | notANumber => exact absurd rfl hb
    | infinity s' => cases s' <;> rfl
    | zero s' => rfl
    | finite s' m' e' h' => cases s' <;> rfl
  | finite s m e h =>
    cases b with
    | notANumber => exact absurd rfl hb
    | infinity s' => cases s <;> cases s' <;> rfl
    | zero s' => cases s <;> rfl
    | finite s' m' e' h' =>
      cases s <;> cases s'
      case negative.negative =>
        show _ = some (compare (toLex (-1, toLex (-e, -(m : Int)))) (toLex (-1, toLex (-e', -(m' : Int)))))
        rw [compare_toLex, compare_neg_neg, compare_neg_neg, compare_natCast, ← Ordering.swap_then]
        rfl
      case positive.positive =>
        show _ = some (compare (toLex (1, toLex (e, (m : Int)))) (toLex (1, toLex (e', (m' : Int)))))
        rw [compare_toLex, compare_natCast]
        rfl
      case negative.positive => rfl
      case positive.negative => rfl

/-- The place of a number in the order. -/
def place (x : Float) : Int ×ₗ Int ×ₗ Int :=
  unpackedPlace x.toModel.unpack

theorem unpack_eq_notANumber {x : Float} : x.toModel.unpack = .notANumber ↔ x.isNaN = true := by
  show _ ↔ x.toModel.unpack.isNaN = true
  cases x.toModel.unpack <;> simp [UnpackedFloat.isNaN]

/-- NaN has no place in the order. -/
theorem compare_unpack (x y : Float) :
    x.toModel.unpack.compare y.toModel.unpack =
      if x.isNaN = true ∨ y.isNaN = true then none else some (compare (place x) (place y)) := by
  by_cases hx : x.isNaN = true
  · rw [if_pos (Or.inl hx), unpack_eq_notANumber.2 hx]
    rfl
  · by_cases hy : y.isNaN = true
    · rw [if_pos (Or.inr hy), unpack_eq_notANumber.2 hy]
      cases x.toModel.unpack <;> rfl
    · rw [if_neg (not_or.2 ⟨hx, hy⟩)]
      exact unpacked_compare (fun h => hx (unpack_eq_notANumber.1 h)) fun h => hy (unpack_eq_notANumber.1 h)

variable {x y z : Float}

theorem le_iff : x ≤ y ↔ x.isNaN = false ∧ y.isNaN = false ∧ place x ≤ place y := by
  have hle : x ≤ y ↔ (x.toModel.unpack.compare y.toModel.unpack).any (·.isLE) = true := decide_eq_true_iff
  rw [hle, compare_unpack]
  cases x.isNaN <;> cases y.isNaN <;> simp [Ordering.isLE_iff_ne_gt, compare_le_iff_le]

theorem lt_iff : x < y ↔ x.isNaN = false ∧ y.isNaN = false ∧ place x < place y := by
  have hlt : x < y ↔ (x.toModel.unpack.compare y.toModel.unpack == some .lt) = true := decide_eq_true_iff
  rw [hlt, compare_unpack]
  cases x.isNaN <;> cases y.isNaN <;> simp [compare_lt_iff_lt]

theorem beq_iff : (x == y) = true ↔ x.isNaN = false ∧ y.isNaN = false ∧ place x = place y := by
  have hbeq : (x == y) = true ↔ (x.toModel.unpack.compare y.toModel.unpack == some .eq) = true := Iff.rfl
  rw [hbeq, compare_unpack]
  cases x.isNaN <;> cases y.isNaN <;> simp [compare_eq_iff_eq]

protected theorem le_refl (h : x.isNaN = false) : x ≤ x :=
  le_iff.2 ⟨h, h, le_rfl⟩

protected theorem le_of_lt (h : x < y) : x ≤ y := by
  obtain ⟨hx, hy, hlt⟩ := lt_iff.1 h
  exact le_iff.2 ⟨hx, hy, hlt.le⟩

protected theorem le_of_not_lt (hx : x.isNaN = false) (hy : y.isNaN = false) (h : ¬ x < y) : y ≤ x :=
  le_iff.2 ⟨hy, hx, not_lt.1 fun hlt => h (lt_iff.2 ⟨hx, hy, hlt⟩)⟩

protected theorem le_trans (h : x ≤ y) (h' : y ≤ z) : x ≤ z := by
  obtain ⟨hx, -, hxy⟩ := le_iff.1 h
  obtain ⟨-, hz, hyz⟩ := le_iff.1 h'
  exact le_iff.2 ⟨hx, hz, hxy.trans hyz⟩

/-- Numbers that do not exceed one another are equal, though they may be zeros of different sign. -/
theorem beq_of_le_of_le (h : x ≤ y) (h' : y ≤ x) : (x == y) = true := by
  obtain ⟨hx, hy, hxy⟩ := le_iff.1 h
  obtain ⟨-, -, hyx⟩ := le_iff.1 h'
  exact beq_iff.2 ⟨hx, hy, le_antisymm hxy hyx⟩

end Calculator.Binary64
