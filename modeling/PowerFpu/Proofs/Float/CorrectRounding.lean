import PowerFpu.Proofs.Float.Value

/-! Cutting a magnitude at the spacing of a format.

The multiple that is kept is a pattern of the format, and the remainder tells where
the value lies between that pattern and the next. -/

set_option autoImplicit false

namespace PowerFpu

/-- What a remainder says of a value between two neighbours. -/
def Remainder.Splits (remainder : Remainder) (lower upper value : ℝ) : Prop :=
  match remainder with
  | .zero => value = lower
  | .belowHalf => lower < value ∧ value - lower < upper - value
  | .half => value - lower = upper - value
  | .aboveHalf => upper - value < value - lower ∧ value < upper

namespace Remainder.Splits

variable {remainder : Remainder} {lower upper value : ℝ}

theorem between (splits : remainder.Splits lower upper value) (gap : lower < upper) :
    lower ≤ value ∧ value < upper := by
  cases remainder with
  | zero =>
    change value = lower at splits
    exact ⟨splits.ge, splits.trans_lt gap⟩
  | belowHalf =>
    obtain ⟨above, closer⟩ := splits
    exact ⟨above.le, by linarith⟩
  | half =>
    change value - lower = upper - value at splits
    exact ⟨by linarith, by linarith⟩
  | aboveHalf =>
    obtain ⟨closer, below⟩ := splits
    exact ⟨by linarith, below⟩

theorem scaled {unit : ℝ} (splits : remainder.Splits lower upper value) (positive : 0 < unit) :
    remainder.Splits (lower * unit) (upper * unit) (value * unit) := by
  cases remainder with
  | zero => exact congrArg (· * unit) splits
  | belowHalf =>
    obtain ⟨above, closer⟩ := splits
    constructor
    · exact mul_lt_mul_of_pos_right above positive
    · rw [← sub_mul, ← sub_mul]
      exact mul_lt_mul_of_pos_right closer positive
  | half =>
    change value - lower = upper - value at splits
    change value * unit - lower * unit = upper * unit - value * unit
    rw [← sub_mul, ← sub_mul, splits]
  | aboveHalf =>
    obtain ⟨closer, below⟩ := splits
    constructor
    · rw [← sub_mul, ← sub_mul]
      exact mul_lt_mul_of_pos_right closer positive
    · exact mul_lt_mul_of_pos_right below positive

end Remainder.Splits

namespace Magnitude

/-- The real numbers that a magnitude stands for. -/
def Holds (x : Magnitude) (value : ℝ) : Prop :=
  if x.inexact then
    dyadic x.significand x.exponent < value ∧ value < dyadic (x.significand + 1) x.exponent
  else
    value = dyadic x.significand x.exponent

variable {format : BinaryFormat} {x : Magnitude}

theorem minExponent_le_quantum (format : BinaryFormat) (x : Magnitude) : format.minExponent ≤ x.quantum format := by
  unfold quantum
  split
  · exact le_refl _
  · exact le_max_left _ _

/-- The kept multiple has no more bits than a significand, and all of them above the
subnormal spacing. -/
theorem kept_bounds (format : BinaryFormat) (x : Magnitude) :
    x.kept (x.quantum format) < 2 ^ (format.fractionBits + 1) ∧
      (x.quantum format = format.minExponent ∨
        2 ^ format.fractionBits ≤ x.kept (x.quantum format)) := by
  unfold quantum kept
  split
  next zero =>
    have positive : 0 < 2 ^ (format.fractionBits + 1) := Nat.two_pow_pos _
    simp only [zero, Nat.zero_shiftLeft, Nat.zero_shiftRight, ite_self, true_or, and_true]
    exact positive
  next nonzero =>
    have lower : 2 ^ x.significand.log2 ≤ x.significand := Nat.log2_self_le nonzero
    have upper : x.significand < 2 ^ (x.significand.log2 + 1) := Nat.lt_log2_self
    -- What is left is about the bit count and the two exponents alone.
    generalize format.minExponent = least
    generalize x.significand.log2 = digits at *
    generalize quantumIs : max least (x.exponent + digits - format.fractionBits) = quantum
    have apart : x.exponent + digits - format.fractionBits ≤ quantum := by omega
    split
    next coarse =>
      rw [Nat.shiftLeft_eq]
      constructor
      · calc x.significand * 2 ^ (x.exponent - quantum).toNat
          _ < 2 ^ (digits + 1) * 2 ^ (x.exponent - quantum).toNat :=
            Nat.mul_lt_mul_of_pos_right upper (Nat.two_pow_pos _)
          _ = 2 ^ (digits + 1 + (x.exponent - quantum).toNat) := (pow_add _ _ _).symm
          _ ≤ 2 ^ (format.fractionBits + 1) := Nat.pow_le_pow_right (by omega) (by omega)
      · rcases eq_or_ne quantum least with same | higher
        · exact .inl same
        · right
          calc 2 ^ format.fractionBits
            _ ≤ 2 ^ (digits + (x.exponent - quantum).toNat) := Nat.pow_le_pow_right (by omega) (by omega)
            _ = 2 ^ digits * 2 ^ (x.exponent - quantum).toNat := pow_add _ _ _
            _ ≤ x.significand * 2 ^ (x.exponent - quantum).toNat := Nat.mul_le_mul_right _ lower
    next fine =>
      rw [Nat.shiftRight_eq_div_pow]
      constructor
      · rw [Nat.div_lt_iff_lt_mul (Nat.two_pow_pos _), ← pow_add]
        exact lt_of_lt_of_le upper (Nat.pow_le_pow_right (by omega) (by omega))
      · rcases eq_or_ne quantum least with same | higher
        · exact .inl same
        · right
          rw [Nat.le_div_iff_mul_le (Nat.two_pow_pos _), ← pow_add]
          exact le_trans (Nat.pow_le_pow_right (by omega) (by omega)) lower

/-- The remainder of an even unit. An inexact magnitude moves a remainder up, but by less
than one and so never past half of the unit. -/
theorem remainder_splits_unit {m unit : Nat} {inexact : Bool} {value : ℝ} (even : 2 ∣ unit) (positive : 0 < unit)
    (exact : inexact = false → value = m) (between : inexact = true → m < value ∧ value < m + 1) :
    (if m % unit = 0 then if inexact then Remainder.belowHalf else .zero
      else if 2 * (m % unit) < unit then .belowHalf
      else if 2 * (m % unit) = unit then if inexact then .aboveHalf else .half
      else .aboveHalf : Remainder).Splits
        ((m / unit : Nat) * unit) (((m / unit : Nat) + 1) * unit) value := by
  have quotient : ((m / unit : Nat) : ℝ) * unit + (m % unit : Nat) = m := by
    exact_mod_cast Nat.div_add_mod' m unit
  have small := Nat.mod_lt m positive
  have interval : (m : ℝ) ≤ value ∧ value < m + 1 := by
    cases inexact with
    | false =>
      rw [exact rfl]
      exact ⟨le_rfl, lt_add_one _⟩
    | true => exact ⟨(between rfl).1.le, (between rfl).2⟩
  obtain ⟨least, most⟩ := interval
  obtain ⟨half, isDouble⟩ := even
  generalize (m / unit : Nat) = multiple at *
  generalize m % unit = rest at *
  have unitCast : (unit : ℝ) = 2 * half := by exact_mod_cast isDouble
  split_ifs with none isInexact belowHalf atHalf isInexact
  · have halfPositive : (1 : ℝ) ≤ half := by exact_mod_cast (show 1 ≤ half by omega)
    have restZero : (rest : ℝ) = 0 := by exact_mod_cast none
    have above := (between isInexact).1
    exact ⟨by linarith, by linarith⟩
  · have restZero : (rest : ℝ) = 0 := by exact_mod_cast none
    have isExact := exact (Bool.eq_false_iff.mpr isInexact)
    change value = _
    linarith
  · have restPositive : (0 : ℝ) < rest := by exact_mod_cast Nat.pos_of_ne_zero none
    have restSmall : (rest : ℝ) + 1 ≤ half := by exact_mod_cast (show rest + 1 ≤ half by omega)
    exact ⟨by linarith, by linarith⟩
  · have restHalf : (rest : ℝ) = half := by exact_mod_cast (show rest = half by omega)
    have restSmall : (rest : ℝ) + 1 ≤ unit := by exact_mod_cast small
    have above := (between isInexact).1
    exact ⟨by linarith, by linarith⟩
  · have restHalf : (rest : ℝ) = half := by exact_mod_cast (show rest = half by omega)
    have isExact := exact (Bool.eq_false_iff.mpr isInexact)
    change value - _ = _ - value
    linarith
  · have restLarge : (half : ℝ) < rest := by exact_mod_cast (show half < rest by omega)
    have restSmall : (rest : ℝ) + 1 ≤ unit := by exact_mod_cast small
    exact ⟨by linarith, by linarith⟩

/-- The remainder tells where the value lies between the multiple that is kept and the next.
An inexact magnitude has to reach below the spacing. -/
theorem remainder_splits {quantum : Int} {value : ℝ} (holds : x.Holds value)
    (guarded : x.inexact = true → x.exponent < quantum) :
    (x.remainder quantum).Splits
      (dyadic (x.kept quantum) quantum) (dyadic (x.kept quantum + 1) quantum) value := by
  unfold remainder kept
  split
  next coarse =>
    have isExact : x.inexact = false := Bool.eq_false_iff.mpr fun isInexact => (guarded isInexact).not_ge coarse
    simp only [Holds, isExact, Bool.false_eq_true, if_false] at holds ⊢
    obtain ⟨distance, isDistance⟩ := Int.eq_ofNat_of_zero_le (sub_nonneg.mpr coarse)
    have exponents : x.exponent = distance + quantum := by omega
    change value = _
    rw [isDistance, Int.toNat_natCast, holds, exponents, dyadic_add]
  next fine =>
    obtain ⟨distance, isDistance⟩ := Int.eq_ofNat_of_zero_le (sub_nonneg.mpr (not_le.mp fine).le)
    have exponents : quantum = distance + x.exponent := by omega
    have apart : distance ≠ 0 := by omega
    have unitPositive : (0 : ℝ) < 2 ^ x.exponent := zpow_pos two_pos _
    have exact : x.inexact = false → value / 2 ^ x.exponent = x.significand := by
      intro isExact
      simp only [Holds, isExact, Bool.false_eq_true, if_false] at holds
      rw [holds, dyadic, mul_div_cancel_right₀ _ unitPositive.ne']
    have between : x.inexact = true →
        x.significand < value / 2 ^ x.exponent ∧ value / 2 ^ x.exponent < x.significand + 1 := by
      intro isInexact
      simp only [Holds, isInexact, if_true, dyadic, Nat.cast_succ] at holds
      exact ⟨(lt_div_iff₀ unitPositive).mpr holds.1, (div_lt_iff₀ unitPositive).mpr holds.2⟩
    -- In units of its own exponent the magnitude is a natural number cut at a power of two.
    have splits := (remainder_splits_unit (dvd_pow_self 2 apart) (Nat.two_pow_pos distance) exact between).scaled
      unitPositive
    have scale (multiple : Nat) :
        dyadic multiple quantum = multiple * ((2 ^ distance : Nat) : ℝ) * 2 ^ x.exponent := by
      rw [exponents, dyadic_add, dyadic, Nat.shiftLeft_eq, Nat.cast_mul]
    rw [div_mul_cancel₀ _ unitPositive.ne', ← Nat.cast_succ, ← scale, ← scale] at splits
    rw [isDistance, Int.toNat_natCast, Nat.shiftRight_eq_div_pow, Nat.one_shiftLeft]
    exact splits

def lowerPattern (format : BinaryFormat) (x : Magnitude) : Nat :=
  ((x.quantum format - format.minExponent).toNat <<< format.fractionBits) + x.kept (x.quantum format)

theorem lowerPattern_mod_two (valid : format.Valid) (x : Magnitude) :
    x.lowerPattern format % 2 = x.kept (x.quantum format) % 2 := by
  have even : 2 ∣ 2 ^ format.fractionBits := dvd_pow_self 2 (Nat.one_le_iff_ne_zero.mp valid.fraction)
  rw [lowerPattern, Nat.shiftLeft_eq, Nat.add_mod, Nat.mod_eq_zero_of_dvd (even.mul_left _), Nat.zero_add, Nat.mod_mod]

/-- The pattern and the one after it are the neighbours of the value, and the remainder
tells where it lies between them. -/
theorem splits_neighbours {value : ℝ} (holds : x.Holds value)
    (guarded : x.inexact = true → x.significand ≠ 0 ∧ format.fractionBits < x.significand.log2) :
    (x.remainder (x.quantum format)).Splits
      (format.magnitude (x.lowerPattern format)) (format.magnitude (x.lowerPattern format + 1)) value := by
  have least := minExponent_le_quantum format x
  obtain ⟨small, normal⟩ := kept_bounds format x
  have reaches : x.inexact = true → x.exponent < x.quantum format := by
    intro isInexact
    obtain ⟨nonzero, wide⟩ := guarded isInexact
    rw [quantum, if_neg nonzero]
    omega
  have splits := remainder_splits holds reaches
  unfold lowerPattern
  generalize x.quantum format = quantum at *
  obtain ⟨steps, isSteps⟩ := Int.eq_ofNat_of_zero_le (sub_nonneg.mpr least)
  have exponents : quantum = format.minExponent + steps := by omega
  have normalSteps : steps = 0 ∨ 2 ^ format.fractionBits ≤ x.kept quantum := by
    rcases normal with same | normal
    · exact .inl (by omega)
    · exact .inr normal
  have lower : format.magnitude (steps * 2 ^ format.fractionBits + x.kept quantum) =
      dyadic (x.kept quantum) quantum := by
    rw [BinaryFormat.magnitude_add small.le normalSteps, exponents]
  have upper : format.magnitude (steps * 2 ^ format.fractionBits + (x.kept quantum + 1)) =
      dyadic (x.kept quantum + 1) quantum := by
    rw [BinaryFormat.magnitude_add (Nat.succ_le_of_lt small) (by omega), exponents]
  rw [isSteps, Int.toNat_natCast, Nat.shiftLeft_eq, add_assoc, lower, upper]
  exact splits

end Magnitude

/-! What it means to round a real number to a format, and that rounding does it.

The directed modes choose the least value above or the greatest below, infinities
included. Nearest chooses a closest finite value, of two the one with the even
significand, and an infinity from half a spacing past the largest number on. -/

namespace BinaryFormat

variable (format : BinaryFormat)

def values : Set EReal :=
  {value | ∃ pattern, format.decode pattern ≠ .nan ∧ (format.decode pattern).toEReal = value}

def finiteValues : Set ℝ :=
  {value | ∃ pattern, (format.decode pattern).isFinite = true ∧ (format.decode pattern).toReal = value}

/-- Half a spacing past the largest number. -/
noncomputable def overflowThreshold : ℝ :=
  dyadic (2 ^ (format.fractionBits + 2) - 1) (format.minExponent + format.maxBiased - 3)

/-- A closest finite value, and of two closest ones the one with the even significand. From
the threshold on it is an infinity. -/
inductive IsNearest (x : ℝ) : Number → Prop where
  | positiveInfinity (above : format.overflowThreshold ≤ x) : IsNearest x (.infinity false)
  | negativeInfinity (below : x ≤ -format.overflowThreshold) : IsNearest x (.infinity true)
  | finite (negative : Bool) (significand : Nat) (exponent : Int)
      (within : |x| < format.overflowThreshold)
      (closest : ∀ value ∈ format.finiteValues,
        |(Number.finite negative significand exponent).toReal - x| ≤ |value - x|)
      (even : ∀ value ∈ format.finiteValues, value ≠ (Number.finite negative significand exponent).toReal →
        |value - x| = |(Number.finite negative significand exponent).toReal - x| → significand % 2 = 0) :
      IsNearest x (.finite negative significand exponent)

/-- The least value that is not below. -/
def IsAbove (x : ℝ) (result : Number) : Prop :=
  result ≠ .nan ∧ IsLeast {value ∈ format.values | (x : EReal) ≤ value} result.toEReal

/-- The greatest value that is not above. -/
def IsBelow (x : ℝ) (result : Number) : Prop :=
  result ≠ .nan ∧ IsGreatest {value ∈ format.values | value ≤ (x : EReal)} result.toEReal

/-- The result is the real number rounded once to the format. -/
def IsRounded (mode : RoundingMode) (x : ℝ) (result : Number) : Prop :=
  match mode with
  | .nearest => format.IsNearest x result
  | .towardZero => (0 ≤ x → format.IsBelow x result) ∧ (x ≤ 0 → format.IsAbove x result)
  | .towardPosInf => format.IsAbove x result
  | .towardNegInf => format.IsBelow x result

variable {format}

theorem assemble_ne_nan {pattern : Nat} (bound : pattern ≤ format.infinity) (negative : Bool) :
    format.assemble negative pattern ≠ .nan := by
  rcases bound.lt_or_eq with finite | isInfinity
  · rw [assemble_finite finite]
    exact Number.noConfusion
  · rw [isInfinity, assemble_infinity]
    exact Number.noConfusion

theorem isFinite_assemble {pattern : Nat} (finite : pattern < format.infinity) (negative : Bool) :
    (format.assemble negative pattern).isFinite = true := by
  rw [assemble_finite finite]
  rfl

theorem toReal_assemble_true (pattern : Nat) :
    (format.assemble true pattern).toReal = -(format.assemble false pattern).toReal := by
  rw [← Number.toReal_negate, negate_assemble]
  rfl

theorem toEReal_assemble {pattern : Nat} (finite : pattern < format.infinity) :
    (format.assemble false pattern).toEReal = format.magnitude pattern := by
  rw [Number.toEReal_of_isFinite (isFinite_assemble finite _), toReal_assemble finite]

theorem mem_values {value : EReal} :
    value ∈ format.values ↔
      ∃ negative, ∃ pattern ≤ format.infinity, (format.assemble negative pattern).toEReal = value := by
  constructor
  · rintro ⟨pattern, isNumber, same⟩
    obtain ⟨negative, magnitude, bound, assembled⟩ := exists_assemble isNumber
    exact ⟨negative, magnitude, bound, by rw [← assembled, same]⟩
  · rintro ⟨negative, pattern, bound, same⟩
    have decoded := decode_signed (bound.trans_lt format.infinity_lt_signBit) negative
    refine ⟨format.signed negative pattern, ?_, by rw [decoded, same]⟩
    rw [decoded]
    exact assemble_ne_nan bound negative

theorem values_cases {value : EReal} (mem : value ∈ format.values) :
    value = ⊤ ∨ value = ⊥ ∨ ∃ finite ∈ format.finiteValues, value = (finite : EReal) := by
  obtain ⟨pattern, isNumber, same⟩ := mem
  cases decoded : format.decode pattern with
  | nan => exact absurd decoded isNumber
  | infinity negative =>
    rw [decoded] at same
    cases negative with
    | false => exact .inl same.symm
    | true => exact .inr (.inl same.symm)
  | finite negative significand exponent =>
    rw [decoded] at same
    exact .inr (.inr ⟨_, ⟨pattern, by rw [decoded]; rfl, by rw [decoded]⟩, same.symm⟩)

theorem mem_finiteValues {value : ℝ} :
    value ∈ format.finiteValues ↔
      ∃ pattern < format.infinity, value = format.magnitude pattern ∨ value = -format.magnitude pattern := by
  constructor
  · rintro ⟨pattern, isFinite, same⟩
    have isNumber : format.decode pattern ≠ .nan := by
      intro isNan
      rw [isNan] at isFinite
      cases isFinite
    obtain ⟨negative, magnitude, bound, assembled⟩ := exists_assemble isNumber
    rcases bound.lt_or_eq with finite | isInfinity
    · refine ⟨magnitude, finite, ?_⟩
      rw [← same, assembled]
      cases negative with
      | false => exact .inl (toReal_assemble finite)
      | true => exact .inr (by rw [toReal_assemble_true, toReal_assemble finite])
    · rw [assembled, isInfinity, assemble_infinity] at isFinite
      cases isFinite
  · rintro ⟨pattern, finite, same⟩
    have bound := finite.trans format.infinity_lt_signBit
    rcases same with same | same
    · refine ⟨format.signed false pattern, ?_, ?_⟩
      · rw [decode_signed bound, isFinite_assemble finite]
      · rw [decode_signed bound, toReal_assemble finite, same]
    · refine ⟨format.signed true pattern, ?_, ?_⟩
      · rw [decode_signed bound, isFinite_assemble finite]
      · rw [decode_signed bound, toReal_assemble_true, toReal_assemble finite, same]

/-! Rounding commutes with a change of sign, which exchanges two modes. -/

theorem neg_mem_values {value : EReal} (mem : value ∈ format.values) : -value ∈ format.values := by
  obtain ⟨negative, pattern, bound, same⟩ := mem_values.mp mem
  refine mem_values.mpr ⟨!negative, pattern, bound, ?_⟩
  rw [← negate_assemble, Number.toEReal_negate, same]

theorem neg_mem_finiteValues {value : ℝ} (mem : value ∈ format.finiteValues) : -value ∈ format.finiteValues := by
  obtain ⟨pattern, finite, same⟩ := mem_finiteValues.mp mem
  refine mem_finiteValues.mpr ⟨pattern, finite, ?_⟩
  rcases same with same | same
  · exact .inr (by rw [same])
  · exact .inl (by rw [same, neg_neg])

theorem negate_ne_nan {x : Number} (isNumber : x ≠ .nan) : x.negate ≠ .nan := by
  intro isNan
  apply isNumber
  rw [← x.negate_negate, isNan]
  rfl

variable {x : ℝ} {result : Number}

theorem IsAbove.negate (above : format.IsAbove x result) : format.IsBelow (-x) result.negate := by
  obtain ⟨isNumber, ⟨mem, bound⟩, least⟩ := above
  refine ⟨negate_ne_nan isNumber, ⟨?_, ?_⟩, ?_⟩
  · rw [Number.toEReal_negate]
    exact neg_mem_values mem
  · rw [Number.toEReal_negate, EReal.coe_neg]
    exact EReal.neg_le_neg_iff.mpr bound
  · rintro value ⟨memValue, below⟩
    rw [Number.toEReal_negate]
    refine EReal.le_neg_of_le_neg (least ⟨neg_mem_values memValue, ?_⟩)
    rw [EReal.coe_neg] at below
    exact EReal.le_neg_of_le_neg below

theorem IsBelow.negate (below : format.IsBelow x result) : format.IsAbove (-x) result.negate := by
  obtain ⟨isNumber, ⟨mem, bound⟩, greatest⟩ := below
  refine ⟨negate_ne_nan isNumber, ⟨?_, ?_⟩, ?_⟩
  · rw [Number.toEReal_negate]
    exact neg_mem_values mem
  · rw [Number.toEReal_negate, EReal.coe_neg]
    exact EReal.neg_le_neg_iff.mpr bound
  · rintro value ⟨memValue, above⟩
    rw [Number.toEReal_negate]
    refine EReal.neg_le_of_neg_le (greatest ⟨neg_mem_values memValue, ?_⟩)
    rw [EReal.coe_neg] at above
    exact EReal.neg_le_of_neg_le above

theorem IsNearest.negate (nearest : format.IsNearest x result) : format.IsNearest (-x) result.negate := by
  cases nearest with
  | positiveInfinity above => exact .negativeInfinity (neg_le_neg above)
  | negativeInfinity below => exact .positiveInfinity (le_neg_of_le_neg below)
  | finite negative significand exponent within closest even =>
    -- The mirrored candidates are as far from the mirrored value.
    have distance (value other : ℝ) : |value - -other| = |-value - other| := by
      rw [← abs_neg]
      ring_nf
    refine .finite (!negative) significand exponent (by rwa [abs_neg]) ?_ ?_
    · intro value mem
      rw [Number.toReal_finite_not, distance, neg_neg, distance]
      exact closest (-value) (neg_mem_finiteValues mem)
    · intro value mem differs
      rw [Number.toReal_finite_not, distance, distance, neg_neg]
      refine even (-value) (neg_mem_finiteValues mem) ?_
      intro same
      apply differs
      rw [Number.toReal_finite_not, ← same, neg_neg]

end BinaryFormat

/-- The mode that does for negative numbers what a mode does for positive ones. -/
def RoundingMode.mirror : RoundingMode → RoundingMode
  | .nearest => .nearest
  | .towardZero => .towardZero
  | .towardPosInf => .towardNegInf
  | .towardNegInf => .towardPosInf

namespace BinaryFormat

variable {format : BinaryFormat}

theorem IsRounded.negate {mode : RoundingMode} {x : ℝ} {result : Number}
    (rounded : format.IsRounded mode.mirror x result) : format.IsRounded mode (-x) result.negate := by
  cases mode with
  | nearest => exact IsNearest.negate rounded
  | towardZero =>
    obtain ⟨below, above⟩ := rounded
    exact ⟨fun nonneg => (above (neg_nonneg.mp nonneg)).negate, fun nonpos => (below (neg_nonpos.mp nonpos)).negate⟩
  | towardPosInf => exact IsBelow.negate rounded
  | towardNegInf => exact IsAbove.negate rounded

end BinaryFormat

end PowerFpu
