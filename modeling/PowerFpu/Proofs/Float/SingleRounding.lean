import PowerFpu.Proofs.Float.Negation

/-! On operands that are singles, rounding to double and then to single rounds once.

Every sum, product, quotient and root of singles is settled, so the double in between
does no harm. -/

set_option autoImplicit false

namespace PowerFpu

section

open BinaryFormat (double single)

/-- The value does not contradict the sign; a zero may have either. -/
def HasSign (negative : Bool) (x : ℝ) : Prop :=
  if negative then x ≤ 0 else 0 ≤ x

theorem HasSign.eq_abs {negative : Bool} {x : ℝ} (sign : HasSign negative x) :
    x = if negative then -|x| else |x| := by
  cases negative with
  | false => exact (abs_of_nonneg sign).symm
  | true => exact (neg_eq_iff_eq_neg.mpr (abs_of_nonpos sign)).symm

theorem HasSign.mul {negativeX negativeY : Bool} {x y : ℝ} (signX : HasSign negativeX x)
    (signY : HasSign negativeY y) : HasSign (negativeX != negativeY) (x * y) := by
  cases negativeX with
  | false =>
    cases negativeY with
    | false => exact mul_nonneg signX signY
    | true => exact mul_nonpos_of_nonneg_of_nonpos signX signY
  | true =>
    cases negativeY with
    | false => exact mul_nonpos_of_nonpos_of_nonneg signX signY
    | true => exact mul_nonneg_of_nonpos_of_nonpos signX signY

theorem HasSign.inv {negative : Bool} {x : ℝ} (sign : HasSign negative x) : HasSign negative x⁻¹ := by
  cases negative with
  | false => exact inv_nonneg.mpr sign
  | true => exact inv_nonpos.mpr sign

theorem hasSign_zero (negative : Bool) : HasSign negative 0 := by
  cases negative <;> exact le_rfl

theorem RoundingMode.hasSign_sum (mode : RoundingMode) (x y : ℝ) (negativeX negativeY : Bool) :
    HasSign (mode.sumNegative x y negativeX negativeY) (x + y) := by
  unfold sumNegative
  split
  next zero =>
    rw [zero]
    exact hasSign_zero _
  next =>
    by_cases below : x + y < 0
    · rw [decide_eq_true below]
      exact below.le
    · rw [decide_eq_false below]
      exact not_lt.mp below

namespace Number

theorem hasSign (x : Number) : HasSign x.negative x.toReal := by
  cases x with
  | nan => exact le_rfl
  | infinity negative => cases negative <;> exact le_rfl
  | finite negative significand exponent =>
    cases negative with
    | false => exact dyadic_nonneg significand exponent
    | true => exact neg_nonpos.mpr (dyadic_nonneg significand exponent)

def FitsSingle (x : Number) : Prop :=
  x.isFinite = true → x.toReal ∈ single.finiteValues

theorem FitsSingle.negate {x : Number} (fits : x.FitsSingle) : x.negate.FitsSingle := by
  intro isFinite
  rw [toReal_negate]
  refine BinaryFormat.neg_mem_finiteValues (fits ?_)
  rw [← x.negate_negate]
  exact isFinite_negate isFinite

end Number

/-- A real result survives a rounding to double. -/
def Ideal.Settled : Ideal → Prop
  | .invalid | .infinite _ => True
  | .real x negative => HasSign negative x ∧ BinaryFormat.Settled |x|

namespace Number

variable {x y : Number} (fitsX : x.FitsSingle) (fitsY : y.FitsSingle)

include fitsX in
theorem idealRoot_settled : x.idealRoot.Settled := by
  cases x with
  | nan => trivial
  | infinity negative => cases negative <;> trivial
  | finite negative m e =>
    by_cases below : (Number.finite negative m e).toReal < 0
    · simp only [idealRoot, if_pos below]
      trivial
    · simp only [idealRoot, if_neg below]
      refine ⟨?_, BinaryFormat.settled_sqrt (fitsX rfl) (not_lt.mp below)⟩
      cases negative with
      | false => exact Real.sqrt_nonneg _
      | true => exact (Real.sqrt_eq_zero_of_nonpos (hasSign (.finite true m e))).le

include fitsX fitsY

theorem idealSum_settled (mode : RoundingMode) : (x.idealSum mode y).Settled := by
  cases x with
  | nan => trivial
  | infinity a =>
    cases y with
    | nan | finite b n f => trivial
    | infinity b =>
      simp only [idealSum]
      split <;> trivial
  | finite a m e =>
    cases y with
    | nan | infinity b => trivial
    | finite b n f => exact ⟨mode.hasSign_sum _ _ _ _, BinaryFormat.settled_add (fitsX rfl) (fitsY rfl)⟩

theorem idealProduct_settled : (x.idealProduct y).Settled := by
  cases x with
  | nan => trivial
  | infinity a =>
    cases y with
    | nan | infinity b => trivial
    | finite b n f =>
      simp only [idealProduct]
      split <;> trivial
  | finite a m e =>
    cases y with
    | nan => trivial
    | infinity b =>
      simp only [idealProduct]
      split <;> trivial
    | finite b n f =>
      exact ⟨(hasSign _).mul (hasSign _), BinaryFormat.settled_mul (fitsX rfl) (fitsY rfl)⟩

theorem idealQuotient_settled : (x.idealQuotient y).Settled := by
  cases x with
  | nan => trivial
  | infinity a => cases y <;> trivial
  | finite a m e =>
    cases y with
    | nan => trivial
    | infinity b => exact ⟨hasSign_zero _, BinaryFormat.settled_zero⟩
    | finite b n f =>
      simp only [idealQuotient]
      split
      next => split <;> trivial
      next nonzero =>
        exact ⟨(hasSign _).mul (hasSign _).inv, BinaryFormat.settled_div (fitsX rfl) (fitsY rfl) nonzero⟩

end Number

theorem BinaryKind.ideal_settled (kind : BinaryKind) (mode : RoundingMode) {x y : Number} (fitsX : x.FitsSingle)
    (fitsY : y.FitsSingle) : (kind.ideal mode x y).Settled := by
  cases kind with
  | add => exact Number.idealSum_settled fitsX fitsY mode
  | sub => exact Number.idealSum_settled fitsX fitsY.negate mode
  | mul => exact Number.idealProduct_settled fitsX fitsY
  | div => exact Number.idealQuotient_settled fitsX fitsY

namespace Double

/-- The exact result as a single in a double: the default NaN, an infinity, or the real
number rounded once to single. -/
def DeliversSingle (mode : RoundingMode) (ideal : Ideal) (bits : Doubleword) : Prop :=
  match ideal with
  | .invalid => bits = defaultNan
  | .infinite negative => value bits = .infinity negative
  | .real x negative => ∃ rounded, Single.RoundsTo mode x negative rounded ∧ Represents bits rounded

variable {mode : RoundingMode} {ideal : Ideal}

theorem Delivers.narrow {bits : Doubleword} (delivers : Delivers mode ideal bits) (settled : ideal.Settled) :
    DeliversSingle mode ideal (narrow mode bits) := by
  cases ideal with
  | invalid =>
    cases delivers
    exact narrow_of_nan mode (by decide)
  | infinite negative => exact value_narrow_of_infinity mode delivers
  | real x negative => exact ⟨_, narrow_represents settled.1.eq_abs settled.2 delivers⟩

theorem DeliversSingle.unique {first second : Doubleword} (delivers : DeliversSingle mode ideal first)
    (deliversSecond : DeliversSingle mode ideal second) : first = second := by
  cases ideal with
  | invalid => exact Eq.trans delivers (Eq.symm deliversSecond)
  | infinite negative =>
    have same : value first = value second := Eq.trans delivers (Eq.symm deliversSecond)
    have isNumber : value second ≠ .nan := by
      rw [show value second = .infinity negative from deliversSecond]
      exact Number.noConfusion
    exact eq_of_value isNumber same
  | real x negative =>
    obtain ⟨rounded, rounds, represents⟩ := delivers
    obtain ⟨roundedSecond, roundsSecond, representsSecond⟩ := deliversSecond
    rw [rounds.unique roundsSecond] at represents
    exact represents.unique representsSecond

end Double

end

/-! Rounding keeps the order of what it rounds, and so does narrowing to single.

A number that was narrowed once is not moved again, in whatever mode. -/

namespace BinaryFormat

variable {format : BinaryFormat} {mode : RoundingMode} {x y : ℝ} {lower upper : Number}

theorem IsAbove.mono (ordered : x ≤ y) (above : format.IsAbove x lower) (aboveUpper : format.IsAbove y upper) :
    lower.toEReal ≤ upper.toEReal :=
  above.2.2 ⟨aboveUpper.2.1.1, (EReal.coe_le_coe_iff.mpr ordered).trans aboveUpper.2.1.2⟩

theorem IsBelow.mono (ordered : x ≤ y) (below : format.IsBelow x lower) (belowUpper : format.IsBelow y upper) :
    lower.toEReal ≤ upper.toEReal :=
  belowUpper.2.2 ⟨below.2.1.1, below.2.1.2.trans (EReal.coe_le_coe_iff.mpr ordered)⟩

theorem overflowThreshold_pos (valid : format.Valid) : 0 < format.overflowThreshold :=
  lt_overflowThreshold_of_mem valid (zero_mem_finiteValues valid)

/-- Two results in the wrong order would each be closer to the number of the other. -/
theorem IsNearest.mono (valid : format.Valid) (less : x < y) (nearest : format.IsNearest x lower)
    (nearestUpper : format.IsNearest y upper) (mem : lower.isFinite = true → lower.toReal ∈ format.finiteValues)
    (memUpper : upper.isFinite = true → upper.toReal ∈ format.finiteValues) : lower.toEReal ≤ upper.toEReal := by
  have positive := overflowThreshold_pos valid
  cases nearest with
  | negativeInfinity below => exact bot_le
  | positiveInfinity above =>
    cases nearestUpper with
    | positiveInfinity aboveUpper => exact le_rfl
    | negativeInfinity below => linarith
    | finite negative significand exponent within closest even =>
      exact absurd (above.trans (less.le.trans (le_abs_self y))) within.not_ge
  | finite negative significand exponent within closest even =>
    cases nearestUpper with
    | positiveInfinity above => exact le_top
    | negativeInfinity below =>
      have far : format.overflowThreshold ≤ -x := by linarith
      exact absurd (far.trans (neg_le_abs x)) within.not_ge
    | finite negativeUpper significandUpper exponentUpper withinUpper closestUpper evenUpper =>
      have noCloser := closest _ (memUpper rfl)
      have noCloserUpper := closestUpper _ (mem rfl)
      apply EReal.coe_le_coe_iff.mpr
      by_contra! greater
      rw [← sq_le_sq] at noCloser noCloserUpper
      generalize (Number.finite negative significand exponent).toReal = lower at *
      generalize (Number.finite negativeUpper significandUpper exponentUpper).toReal = upper at *
      -- Each number is on the side of its own result of what lies halfway between the results.
      have above : upper + lower ≤ 2 * x := by nlinarith
      have below : 2 * y ≤ upper + lower := by nlinarith
      linarith

theorem IsRounded.mono (valid : format.Valid) (less : x < y) (rounded : format.IsRounded mode x lower)
    (roundedUpper : format.IsRounded mode y upper)
    (mem : lower.isFinite = true → lower.toReal ∈ format.finiteValues)
    (memUpper : upper.isFinite = true → upper.toReal ∈ format.finiteValues) : lower.toEReal ≤ upper.toEReal := by
  cases mode with
  | nearest => exact IsNearest.mono valid less rounded roundedUpper mem memUpper
  | towardPosInf => exact IsAbove.mono less.le rounded roundedUpper
  | towardNegInf => exact IsBelow.mono less.le rounded roundedUpper
  | towardZero =>
    rcases le_total 0 x with nonneg | nonpos
    · exact IsBelow.mono less.le (rounded.1 nonneg) (roundedUpper.1 (nonneg.trans less.le))
    · rcases le_total y 0 with nonposUpper | nonnegUpper
      · exact IsAbove.mono less.le (rounded.2 nonpos) (roundedUpper.2 nonposUpper)
      · -- Zero lies between the numbers, and neither result passes it.
        have zero := zero_mem_finiteValues valid
        exact (rounded.le_of_le valid zero nonpos).trans (roundedUpper.ge_of_ge valid zero nonnegUpper)

end BinaryFormat

noncomputable def Number.ideal : Number → Ideal
  | .nan => .invalid
  | .infinity negative => .infinite negative
  | x => .real x.toReal x.negative

namespace Double

variable (mode : RoundingMode) {bits x y : Doubleword}

theorem toSingle_ne_nan (isNumber : value bits ≠ .nan) : Single.value (toSingle mode bits) ≠ .nan :=
  BinaryFormat.decode_round_ne_nan Single.isWidth mode isNumber

theorem narrow_represents_toSingle (isNumber : value bits ≠ .nan) :
    Represents (narrow mode bits) (toSingle mode bits) :=
  ofSingle_represents (toSingle_ne_nan mode isNumber)

theorem narrow_delivers (bits : Doubleword) : DeliversSingle mode (value bits).ideal (narrow mode bits) := by
  cases isValue : value bits with
  | nan => exact narrow_of_nan mode isValue
  | infinity negative => exact value_narrow_of_infinity mode isValue
  | finite negative significand exponent =>
    have isNumber : value bits ≠ .nan := by simp [isValue]
    have isFinite : (value bits).isFinite = true := by simp [isValue, Number.isFinite]
    have sign : bits.msb = (value bits).negative := BinaryFormat.msb_eq_negative isWidth isNumber
    have rounds := toSingle_roundsTo mode isFinite
    rw [sign, isValue] at rounds
    exact ⟨_, rounds, narrow_represents_toSingle mode isNumber⟩

theorem narrow_narrow (other : RoundingMode) (bits : Doubleword) :
    narrow other (narrow mode bits) = narrow mode bits := by
  by_cases isNan : value bits = .nan
  · rw [narrow_of_nan mode isNan]
    exact narrow_of_nan other (by decide)
  · have represents := narrow_represents_toSingle mode isNan
    have back := represents.toSingle_eq other (toSingle_ne_nan mode isNan)
    exact congrArg ofSingle back

theorem eq_or_zero_of_toReal (isFiniteX : (value x).isFinite = true) (isFiniteY : (value y).isFinite = true)
    (same : (value x).toReal = (value y).toReal) : x = y ∨ (value x).toReal = 0 := by
  have isNumberX := Number.ne_nan_of_isFinite isFiniteX
  have isNumberY := Number.ne_nan_of_isFinite isFiniteY
  by_cases sign : x.msb = y.msb
  · refine .inl (BinaryFormat.eq_of_toEReal isWidth sign isNumberX isNumberY ?_)
    rw [← value, ← value, Number.toEReal_of_isFinite isFiniteX, Number.toEReal_of_isFinite isFiniteY, same]
  · have signX : x.msb = (value x).negative := BinaryFormat.msb_eq_negative isWidth isNumberX
    have signY : y.msb = (value y).negative := BinaryFormat.msb_eq_negative isWidth isNumberY
    have hasSignX := (value x).hasSign
    have hasSignY := (value y).hasSign
    rw [signX, signY] at sign
    rw [← same] at hasSignY
    right
    cases negativeX : (value x).negative <;> cases negativeY : (value y).negative <;>
      simp_all [HasSign, le_antisymm_iff]

theorem toEReal_narrow (isFinite : (value bits).isFinite = true) :
    (value (narrow mode bits)).toEReal = (Single.value (toSingle mode bits)).toEReal :=
  (narrow_represents_toSingle mode (Number.ne_nan_of_isFinite isFinite)).same

theorem narrow_mono_of_isFinite (isFiniteX : (value x).isFinite = true) (isFiniteY : (value y).isFinite = true)
    (ordered : (value x).toReal ≤ (value y).toReal) :
    (value (narrow mode x)).toEReal ≤ (value (narrow mode y)).toEReal := by
  rcases ordered.lt_or_eq with less | same
  · have roundedX := (toSingle_roundsTo mode isFiniteX).1
    have roundedY := (toSingle_roundsTo mode isFiniteY).1
    rw [toEReal_narrow mode isFiniteX, toEReal_narrow mode isFiniteY]
    apply roundedX.mono BinaryFormat.single_valid less roundedY
    · exact fun isFinite => ⟨_, isFinite, rfl⟩
    · exact fun isFinite => ⟨_, isFinite, rfl⟩
  · rcases eq_or_zero_of_toReal isFiniteX isFiniteY same with rfl | zero
    · exact le_rfl
    · have mem := BinaryFormat.zero_mem_finiteValues BinaryFormat.single_valid
      have roundedX := (toSingle_roundsTo mode isFiniteX).1.eq_of_mem BinaryFormat.single_valid (zero ▸ mem)
      have roundedY := (toSingle_roundsTo mode isFiniteY).1.eq_of_mem BinaryFormat.single_valid (same ▸ zero ▸ mem)
      rw [toEReal_narrow mode isFiniteX, toEReal_narrow mode isFiniteY, roundedX, roundedY, same]

theorem narrow_mono (isNumberX : value x ≠ .nan) (isNumberY : value y ≠ .nan)
    (ordered : (value x).toEReal ≤ (value y).toEReal) :
    (value (narrow mode x)).toEReal ≤ (value (narrow mode y)).toEReal := by
  cases isValueX : value x with
  | nan => contradiction
  | infinity negative =>
    rw [value_narrow_of_infinity mode isValueX]
    rw [isValueX] at ordered
    cases isValueY : value y with
    | nan => contradiction
    | infinity negativeY => rwa [value_narrow_of_infinity mode isValueY, ← isValueY]
    | finite negativeY significand exponent =>
      cases negative with
      | true => exact bot_le
      | false => simp [isValueY, Number.toEReal] at ordered
  | finite negative significand exponent =>
    have isFiniteX : (value x).isFinite = true := by simp [isValueX, Number.isFinite]
    cases isValueY : value y with
    | nan => contradiction
    | infinity negativeY =>
      rw [value_narrow_of_infinity mode isValueY]
      cases negativeY with
      | false => exact le_top
      | true => simp [isValueX, isValueY, Number.toEReal] at ordered
    | finite negativeY significandY exponentY =>
      have isFiniteY : (value y).isFinite = true := by simp [isValueY, Number.isFinite]
      rw [Number.toEReal_of_isFinite isFiniteX, Number.toEReal_of_isFinite isFiniteY] at ordered
      exact narrow_mono_of_isFinite mode isFiniteX isFiniteY (EReal.coe_le_coe_iff.mp ordered)

end Double

end PowerFpu
