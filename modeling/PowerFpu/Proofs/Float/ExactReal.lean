import Mathlib.Analysis.Real.Sqrt
import PowerFpu.Float.Arithmetic
import PowerFpu.Proofs.Float.CorrectRounding

/-! The exact operations on numbers are those on their real values.

A quotient and a root are magnitudes with enough bits, which hold the real quotient
and the real root. -/

set_option autoImplicit false

namespace PowerFpu

theorem alignedSignificand_value (negative : Bool) (significand : Nat) {exponent unit : Int}
    (smaller : unit ≤ exponent) :
    (alignedSignificand negative significand exponent unit : ℝ) * 2 ^ unit =
      (Number.finite negative significand exponent).toReal := by
  obtain ⟨distance, isDistance⟩ := Int.eq_ofNat_of_zero_le (sub_nonneg.mpr smaller)
  have exponents : exponent = distance + unit := by omega
  have scaled : dyadic significand exponent = (significand <<< distance : Nat) * 2 ^ unit := by
    rw [exponents, dyadic_add, dyadic]
  unfold alignedSignificand
  rw [isDistance, Int.toNat_natCast]
  cases negative with
  | false =>
    rw [Number.toReal, scaled, if_neg Bool.false_ne_true, Int.cast_natCast]
  | true =>
    rw [Number.toReal, scaled, if_pos rfl, Int.cast_neg, Int.cast_natCast, neg_mul]

namespace Number

/-- The sign of a sum: of an exact zero it depends on the addends and the mode. -/
noncomputable def sumNegative (mode : RoundingMode) (a b : Number) : Bool :=
  if a.toReal + b.toReal = 0 then
    if a.isZero && b.isZero && a.negative == b.negative then a.negative else mode = .towardNegInf
  else a.toReal + b.toReal < 0

theorem toReal_natAbs (value unit : Int) :
    (Number.finite (value < 0) value.natAbs unit).toReal = value * 2 ^ unit := by
  rcases lt_or_ge value 0 with below | nonneg
  · rw [decide_eq_true below, toReal, dyadic, Nat.cast_natAbs, abs_of_neg below, Int.cast_neg, neg_mul, neg_neg]
  · rw [decide_eq_false nonneg.not_gt, toReal, dyadic, Nat.cast_natAbs, abs_of_nonneg nonneg]

theorem zero_of_aligned_add {negative : Bool} {m n : Nat} {e f unit : Int}
    (zero : alignedSignificand negative m e unit + alignedSignificand negative n f unit = 0) : m = 0 ∧ n = 0 := by
  have scaled : m <<< (e - unit).toNat = 0 ∧ n <<< (f - unit).toNat = 0 := by
    unfold alignedSignificand at zero
    generalize m <<< (e - unit).toNat = scaledM at *
    generalize n <<< (f - unit).toNat = scaledN at *
    cases negative with
    | false =>
      simp only [Bool.false_eq_true, if_false] at zero
      omega
    | true =>
      simp only [if_true] at zero
      omega
  rw [Nat.shiftLeft_eq, Nat.shiftLeft_eq] at scaled
  have positive (k : Nat) : 2 ^ k ≠ 0 := (Nat.two_pow_pos k).ne'
  exact ⟨(Nat.mul_eq_zero.mp scaled.1).resolve_right (positive _),
    (Nat.mul_eq_zero.mp scaled.2).resolve_right (positive _)⟩

section Exact
variable {a b : Number} (isFiniteA : a.isFinite = true) (isFiniteB : b.isFinite = true)
include isFiniteA isFiniteB

theorem add_exact (mode : RoundingMode) :
    (a.add mode b).isFinite = true ∧ (a.add mode b).toReal = a.toReal + b.toReal ∧
      (a.add mode b).negative = sumNegative mode a b := by
  cases a with
  | nan | infinity negative => cases isFiniteA
  | finite negativeA m e =>
    cases b with
    | nan | infinity negative => cases isFiniteB
    | finite negativeB n f =>
      have valueA := alignedSignificand_value negativeA m (min_le_left e f)
      have valueB := alignedSignificand_value negativeB n (min_le_right e f)
      have unitPositive : (0 : ℝ) < 2 ^ min e f := zpow_pos two_pos _
      simp only [add, sumNegative, ← valueA, ← valueB, ← add_mul, ← Int.cast_add, mul_eq_zero, Int.cast_eq_zero,
        unitPositive.ne', or_false]
      split
      next zero =>
        refine ⟨rfl, ?_, ?_⟩
        · rw [zero, Int.cast_zero, zero_mul]
          cases (if negativeA = negativeB then negativeA else decide (mode = .towardNegInf)) with
          | false => simp [toReal]
          | true => simp [toReal]
        · by_cases same : negativeA = negativeB
          · rw [same] at zero ⊢
            obtain ⟨zeroA, zeroB⟩ := zero_of_aligned_add zero
            rw [zeroA, zeroB]
            simp [isZero]
          · simp [isZero, same]
      next nonzero =>
        refine ⟨rfl, toReal_natAbs _ _, ?_⟩
        simp only [negative_finite, decide_eq_decide]
        rw [← not_le, ← not_le, mul_nonneg_iff_of_pos_right unitPositive, Int.cast_nonneg_iff]

theorem mul_exact :
    (a.mul b).isFinite = true ∧ (a.mul b).toReal = a.toReal * b.toReal ∧
      (a.mul b).negative = (a.negative != b.negative) := by
  cases a with
  | nan | infinity negative => cases isFiniteA
  | finite negativeA m e =>
    cases b with
    | nan | infinity negative => cases isFiniteB
    | finite negativeB n f =>
      have product : dyadic (m * n) (e + f) = dyadic m e * dyadic n f := by
        rw [dyadic, dyadic, dyadic, Nat.cast_mul, zpow_add₀ two_ne_zero]
        ring
      refine ⟨rfl, ?_, rfl⟩
      cases negativeA <;> cases negativeB <;> simp [mul, toReal, product]

end Exact

end Number

namespace Magnitude

/-- A value in units of a power of two is held as its integer part. -/
theorem holds_of_floor {significand : Nat} {exponent : Int} {inexact : Bool} {value : ℝ}
    (exact : inexact = false → value = significand)
    (between : inexact = true → significand < value ∧ value < significand + 1) :
    Holds ⟨significand, exponent, inexact⟩ (value * 2 ^ exponent) := by
  have positive : (0 : ℝ) < 2 ^ exponent := zpow_pos two_pos _
  cases inexact with
  | false =>
    change value * 2 ^ exponent = dyadic significand exponent
    rw [exact rfl, dyadic]
  | true =>
    obtain ⟨above, below⟩ := between rfl
    rw [← Nat.cast_succ] at below
    exact ⟨mul_lt_mul_of_pos_right above positive, mul_lt_mul_of_pos_right below positive⟩

theorem quotient_holds (bits m : Nat) (e : Int) {n : Nat} (f : Int) (nonzero : n ≠ 0) :
    (quotient bits m e n f).Holds (dyadic m e / dyadic n f) := by
  have positive : (0 : ℝ) < n := Nat.cast_pos.mpr (Nat.pos_of_ne_zero nonzero)
  generalize isShift : bits + n.log2 + 1 = shift
  generalize isScaled : m <<< shift = scaled
  have value : dyadic m e / dyadic n f = scaled / n * 2 ^ (e - f - shift) := by
    rw [dyadic, dyadic, ← isScaled, Nat.shiftLeft_eq, zpow_sub₀ two_ne_zero, zpow_sub₀ two_ne_zero, zpow_natCast]
    push_cast
    field_simp
  have division : ((scaled / n : Nat) : ℝ) * n + (scaled % n : Nat) = scaled := by
    exact_mod_cast Nat.div_add_mod' scaled n
  have small : ((scaled % n : Nat) : ℝ) < n := Nat.cast_lt.mpr (Nat.mod_lt _ (Nat.pos_of_ne_zero nonzero))
  have isQuotient : quotient bits m e n f = ⟨scaled / n, e - f - shift, scaled % n != 0⟩ := by
    rw [quotient, isShift, isScaled]
  rw [isQuotient, value]
  refine holds_of_floor ?_ ?_
  · intro isExact
    have rest : ((scaled % n : Nat) : ℝ) = 0 := by
      rw [Nat.cast_eq_zero]
      simpa using isExact
    rw [div_eq_iff positive.ne', ← division, rest, add_zero]
  · intro isInexact
    have rest : (0 : ℝ) < (scaled % n : Nat) := by
      rw [Nat.cast_pos]
      exact Nat.pos_of_ne_zero (by simpa using isInexact)
    rw [lt_div_iff₀ positive, div_lt_iff₀ positive, add_mul]
    exact ⟨by linarith, by linarith⟩

/-- The divisor is below two to its bit count, so a nonzero dividend leaves the bits asked for. -/
theorem quotient_wide (bits m : Nat) (e : Int) {n : Nat} (f : Int) (nonzero : n ≠ 0)
    (isInexact : (quotient bits m e n f).inexact = true) :
    (quotient bits m e n f).significand ≠ 0 ∧ bits ≤ (quotient bits m e n f).significand.log2 := by
  have some : m ≠ 0 := by
    intro zero
    rw [quotient, zero] at isInexact
    simp at isInexact
  have divisor : n < 2 ^ (n.log2 + 1) := Nat.lt_log2_self
  have wide : 2 ^ bits ≤ (quotient bits m e n f).significand := by
    change 2 ^ bits ≤ m <<< (bits + n.log2 + 1) / n
    rw [Nat.le_div_iff_mul_le (Nat.pos_of_ne_zero nonzero), Nat.shiftLeft_eq, add_assoc, pow_add]
    calc 2 ^ bits * n
      _ ≤ 2 ^ bits * 2 ^ (n.log2 + 1) := Nat.mul_le_mul_left _ divisor.le
      _ ≤ m * (2 ^ bits * 2 ^ (n.log2 + 1)) := Nat.le_mul_of_pos_left _ (Nat.pos_of_ne_zero some)
  have nonzeroResult : (quotient bits m e n f).significand ≠ 0 :=
    (lt_of_lt_of_le (Nat.two_pow_pos bits) wide).ne'
  exact ⟨nonzeroResult, (Nat.le_log2 nonzeroResult).mpr wide⟩

theorem root_holds (bits m : Nat) (e : Int) : (root bits m e).Holds (√(dyadic m e)) := by
  generalize isShift : 2 * bits + (e % 2).toNat = shift
  generalize isScaled : m <<< shift = scaled
  -- The shift takes the parity of the exponent, so that half of what is left is a whole exponent.
  obtain ⟨half, isHalf⟩ : ∃ half, e - shift = 2 * half := ⟨(e - shift) / 2, by omega⟩
  have exponent : (e - shift) / 2 = half := by omega
  have value : √(dyadic m e) = √scaled * 2 ^ half := by
    have exponents : e = shift + half * (2 : Nat) := by
      push_cast
      omega
    have square : dyadic m e = scaled * (2 ^ half) ^ 2 := by
      rw [exponents, dyadic_add, isScaled, dyadic, zpow_mul, zpow_natCast]
    rw [square, Real.sqrt_mul (Nat.cast_nonneg scaled), Real.sqrt_sq (zpow_pos two_pos half).le]
  have isRoot : root bits m e = ⟨integerRoot scaled, half, integerRoot scaled * integerRoot scaled != scaled⟩ := by
    rw [root, isShift, isScaled, exponent]
  obtain ⟨lower, upper⟩ := integerRoot_spec scaled
  rw [isRoot, value]
  generalize integerRoot scaled = digits at *
  refine holds_of_floor ?_ ?_
  · intro isExact
    have square : digits * digits = scaled := by simpa using isExact
    rw [← square, Nat.cast_mul, Real.sqrt_mul_self (Nat.cast_nonneg _)]
  · intro isInexact
    have differs : digits * digits ≠ scaled := by simpa using isInexact
    constructor
    · rw [Real.lt_sqrt (Nat.cast_nonneg _), pow_two]
      exact_mod_cast lt_of_le_of_ne lower differs
    · rw [Real.sqrt_lt' (by positivity), pow_two]
      exact_mod_cast upper

theorem root_wide (bits : Nat) {m : Nat} (e : Int) (nonzero : m ≠ 0) :
    (root bits m e).significand ≠ 0 ∧ bits ≤ (root bits m e).significand.log2 := by
  have wide : 2 ^ bits ≤ (root bits m e).significand := by
    change 2 ^ bits ≤ integerRoot (m <<< (2 * bits + (e % 2).toNat))
    obtain ⟨-, upper⟩ := integerRoot_spec (m <<< (2 * bits + (e % 2).toNat))
    have large : 2 ^ bits * 2 ^ bits ≤ m <<< (2 * bits + (e % 2).toNat) := by
      rw [Nat.shiftLeft_eq, ← pow_add, ← two_mul]
      calc 2 ^ (2 * bits)
        _ ≤ 2 ^ (2 * bits + (e % 2).toNat) := Nat.pow_le_pow_right two_pos (Nat.le_add_right _ _)
        _ ≤ m * 2 ^ (2 * bits + (e % 2).toNat) := Nat.le_mul_of_pos_left _ (Nat.pos_of_ne_zero nonzero)
    exact Nat.lt_succ_iff.mp (Nat.mul_self_lt_mul_self_iff.mp (large.trans_lt upper))
  have nonzeroResult : (root bits m e).significand ≠ 0 := (lt_of_lt_of_le (Nat.two_pow_pos bits) wide).ne'
  exact ⟨nonzeroResult, (Nat.le_log2 nonzeroResult).mpr wide⟩

end Magnitude

end PowerFpu
