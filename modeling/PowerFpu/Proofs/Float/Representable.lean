import PowerFpu.Proofs.Float.DoubleArithmetic

/-! Numbers that a format has, and how rounding respects them.

A multiple of the least spacing with few enough bits is a value of the format. Rounding
passes no value on its way, so it is monotone and leaves values as they are. -/

set_option autoImplicit false

namespace PowerFpu

theorem abs_mul_zpow (multiple exponent : ℤ) :
    |(multiple : ℝ) * 2 ^ exponent| = (|multiple| : ℤ) * 2 ^ exponent := by
  rw [abs_mul, abs_of_pos (zpow_pos (two_pos : (0 : ℝ) < 2) exponent), Int.cast_abs]

namespace BinaryFormat

variable {format : BinaryFormat}

/-- A significand of no more bits than the format keeps is a rung, whatever its leading zeros. -/
theorem exists_magnitude_eq_dyadic {significand : Nat} {exponent : Int}
    (narrow : significand < 2 ^ (format.fractionBits + 1)) (coarse : format.minExponent ≤ exponent) :
    ∃ pattern, format.magnitude pattern = dyadic significand exponent := by
  let x : Magnitude := ⟨significand, exponent, false⟩
  have reached : x.quantum format ≤ exponent := by
    unfold Magnitude.quantum
    split
    next => exact coarse
    next nonzero =>
      have bits : significand.log2 < format.fractionBits + 1 := (Nat.log2_lt nonzero).mpr narrow
      change max _ (exponent + significand.log2 - format.fractionBits) ≤ exponent
      omega
  have nothingLeft : x.remainder (x.quantum format) = .zero := by
    rw [Magnitude.remainder, if_pos reached]
    rfl
  have splits : (x.remainder (x.quantum format)).Splits _ _ (dyadic significand exponent) :=
    Magnitude.splits_neighbours rfl (fun inexact => by cases inexact)
  rw [nothingLeft] at splits
  exact ⟨x.lowerPattern format, splits.symm⟩

theorem dyadic_mem_finiteValues {significand : Nat} {exponent : Int}
    (narrow : significand < 2 ^ (format.fractionBits + 1)) (coarse : format.minExponent ≤ exponent)
    (below : dyadic significand exponent < format.magnitude format.infinity) :
    dyadic significand exponent ∈ format.finiteValues := by
  obtain ⟨pattern, same⟩ := exists_magnitude_eq_dyadic narrow coarse
  rw [← same] at below ⊢
  exact mem_finiteValues.mpr ⟨pattern, format.magnitude_strictMono.lt_iff_lt.mp below, .inl rfl⟩

theorem magnitude_infinity (valid : format.Valid) :
    format.magnitude format.infinity =
      dyadic (2 ^ (format.fractionBits + 1)) (format.minExponent + (format.maxBiased - 2 : Nat)) := by
  have several : 2 ^ 2 ≤ 2 ^ format.exponentBits := Nat.pow_le_pow_right two_pos valid.exponent
  obtain ⟨steps, isSteps⟩ : ∃ steps, format.maxBiased = steps + 2 := ⟨format.maxBiased - 2, by
    rw [maxBiased_eq]
    omega⟩
  have top : format.infinity = steps * 2 ^ format.fractionBits + 2 ^ (format.fractionBits + 1) := by
    rw [infinity_eq, isSteps, pow_succ]
    ring
  rw [top, isSteps, Nat.add_sub_cancel]
  exact magnitude_add le_rfl (.inr (Nat.pow_le_pow_right two_pos (Nat.le_succ _)))

theorem double_magnitude_infinity : double.magnitude double.infinity = 2 ^ 1024 := by
  have exponent : double.minExponent + (double.maxBiased - 2 : Nat) = (971 : Nat) := by decide
  have bits : double.fractionBits + 1 = 53 := rfl
  rw [magnitude_infinity double_valid, exponent, bits, dyadic, zpow_natCast, Nat.cast_pow, Nat.cast_ofNat, ← pow_add]

theorem single_magnitude_infinity : single.magnitude single.infinity = 2 ^ 128 := by
  have exponent : single.minExponent + (single.maxBiased - 2 : Nat) = (104 : Nat) := by decide
  have bits : single.fractionBits + 1 = 24 := rfl
  rw [magnitude_infinity single_valid, exponent, bits, dyadic, zpow_natCast, Nat.cast_pow, Nat.cast_ofNat, ← pow_add]

theorem two_pow_mem_double {power : Nat} (bound : power < 1024) : (2 : ℝ) ^ power ∈ double.finiteValues := by
  have isDyadic : dyadic 1 power = (2 : ℝ) ^ power := by
    rw [dyadic, Nat.cast_one, one_mul, zpow_natCast]
  rw [← isDyadic]
  refine dyadic_mem_finiteValues (by decide) ?_ ?_
  · have least : double.minExponent ≤ 0 := by decide
    omega
  · rw [isDyadic, double_magnitude_infinity]
    exact pow_lt_pow_right₀ one_lt_two bound

theorem exists_abs_rung {value : ℝ} (mem : value ∈ format.finiteValues) :
    ∃ pattern < format.infinity, format.magnitude pattern = |value| := by
  obtain ⟨pattern, finite, rfl | rfl⟩ := mem_finiteValues.mp mem
  · exact ⟨pattern, finite, (abs_of_nonneg (format.magnitude_nonneg pattern)).symm⟩
  · exact ⟨pattern, finite, by rw [abs_neg, abs_of_nonneg (format.magnitude_nonneg pattern)]⟩

theorem abs_lt_of_mem_finiteValues {value : ℝ} (mem : value ∈ format.finiteValues) :
    |value| < format.magnitude format.infinity := by
  obtain ⟨pattern, finite, same⟩ := exists_abs_rung mem
  rw [← same]
  exact format.magnitude_strictMono finite

/-- A finite value as an integer multiple of a power of two. Only below the normal numbers
are there leading zeros. -/
theorem exists_multiple_of_mem {value : ℝ} (mem : value ∈ format.finiteValues) :
    ∃ multiple exponent : ℤ, value = multiple * 2 ^ exponent ∧ |multiple| < 2 ^ (format.fractionBits + 1) ∧
      format.minExponent ≤ exponent ∧ exponent < format.minExponent + format.maxBiased ∧
      (exponent = format.minExponent ∨ 2 ^ format.fractionBits ≤ |multiple|) := by
  obtain ⟨pattern, finite, same⟩ := mem_finiteValues.mp mem
  obtain ⟨-, bound, normal⟩ := significand_bounds format pattern
  have steps : format.scale pattern < format.maxBiased := by
    rw [infinity_eq] at finite
    have digits : pattern / 2 ^ format.fractionBits < format.maxBiased := Nat.div_lt_of_lt_mul (by rwa [mul_comm])
    exact (Nat.sub_le _ 1).trans_lt digits
  have few : |(format.significand pattern : ℤ)| < 2 ^ (format.fractionBits + 1) := by
    rw [abs_of_nonneg (Int.natCast_nonneg _)]
    exact_mod_cast bound
  have leading : format.minExponent + format.scale pattern = format.minExponent ∨
      (2 : ℤ) ^ format.fractionBits ≤ |(format.significand pattern : ℤ)| := by
    rw [abs_of_nonneg (Int.natCast_nonneg _)]
    refine normal.imp (fun subnormal => ?_) (fun leading => by exact_mod_cast leading)
    rw [subnormal, Nat.cast_zero, add_zero]
  rcases same with rfl | rfl
  · refine ⟨format.significand pattern, format.minExponent + format.scale pattern, ?_, few, by omega, by omega,
      leading⟩
    rw [magnitude, dyadic, Int.cast_natCast]
  · rw [← abs_neg] at few leading
    refine ⟨-format.significand pattern, format.minExponent + format.scale pattern, ?_, few, by omega, by omega,
      leading⟩
    rw [magnitude, dyadic, Int.cast_neg, Int.cast_natCast, neg_mul]

theorem abs_mem_finiteValues {value : ℝ} : |value| ∈ format.finiteValues ↔ value ∈ format.finiteValues := by
  rcases abs_choice value with same | opposite
  · rw [same]
  · rw [opposite]
    exact ⟨fun mem => neg_neg value ▸ neg_mem_finiteValues mem, neg_mem_finiteValues⟩

theorem multiple_mem_finiteValues {multiple exponent : ℤ} (bits : |multiple| < 2 ^ (format.fractionBits + 1))
    (coarse : format.minExponent ≤ exponent)
    (below : |(multiple : ℝ) * 2 ^ exponent| < format.magnitude format.infinity) :
    (multiple : ℝ) * 2 ^ exponent ∈ format.finiteValues := by
  have isDyadic : |(multiple : ℝ) * 2 ^ exponent| = dyadic multiple.natAbs exponent := by
    rw [dyadic, abs_mul_zpow, Nat.cast_natAbs]
  have narrow : multiple.natAbs < 2 ^ (format.fractionBits + 1) := by
    rw [Int.abs_eq_natAbs] at bits
    exact_mod_cast bits
  rw [← abs_mem_finiteValues]
  rw [isDyadic] at below ⊢
  exact dyadic_mem_finiteValues narrow coarse below

theorem zero_mem_finiteValues (valid : format.Valid) : (0 : ℝ) ∈ format.finiteValues :=
  mem_finiteValues.mpr ⟨0, infinity_pos valid, .inl magnitude_zero.symm⟩

theorem coe_mem_values {value : ℝ} (mem : value ∈ format.finiteValues) : (value : EReal) ∈ format.values := by
  obtain ⟨pattern, isFinite, rfl⟩ := mem
  refine ⟨pattern, ?_, Number.toEReal_of_isFinite isFinite⟩
  intro isNan
  rw [isNan] at isFinite
  cases isFinite

theorem lt_overflowThreshold_of_mem (valid : format.Valid) {value : ℝ} (mem : value ∈ format.finiteValues) :
    value < format.overflowThreshold := by
  obtain ⟨pattern, finite, same⟩ := mem_finiteValues.mp mem
  have largest := format.magnitude_strictMono.monotone (show pattern ≤ format.infinity - 1 by omega)
  have top := format.magnitude_strictMono (show format.infinity - 1 < format.infinity by omega)
  have threshold := two_mul_overflowThreshold valid
  have nonneg := format.magnitude_nonneg pattern
  rcases same with rfl | rfl
  · linarith
  · linarith

variable {mode : RoundingMode} {x value : ℝ} {result : Number}

theorem IsNearest.le_of_le (valid : format.Valid) (nearest : format.IsNearest x result)
    (mem : value ∈ format.finiteValues) (bound : x ≤ value) : result.toEReal ≤ value := by
  cases nearest with
  | positiveInfinity above => exact absurd (lt_overflowThreshold_of_mem valid mem) (above.trans bound).not_gt
  | negativeInfinity below => exact bot_le
  | finite negative significand exponent within closest even =>
    have closer := (le_abs_self _).trans (closest value mem)
    rw [abs_of_nonneg (sub_nonneg.mpr bound)] at closer
    exact EReal.coe_le_coe_iff.mpr (by linarith)

/-- Rounding a number does not take it past a value that is not below it. -/
theorem IsRounded.le_of_le (valid : format.Valid) (rounded : format.IsRounded mode x result)
    (mem : value ∈ format.finiteValues) (bound : x ≤ value) : result.toEReal ≤ value := by
  have above (isAbove : format.IsAbove x result) : result.toEReal ≤ value :=
    isAbove.2.2 ⟨coe_mem_values mem, EReal.coe_le_coe_iff.mpr bound⟩
  have below (isBelow : format.IsBelow x result) : result.toEReal ≤ value :=
    isBelow.2.1.2.trans (EReal.coe_le_coe_iff.mpr bound)
  cases mode with
  | nearest => exact IsNearest.le_of_le valid rounded mem bound
  | towardZero =>
    rcases le_total 0 x with nonneg | nonpos
    · exact below (rounded.1 nonneg)
    · exact above (rounded.2 nonpos)
  | towardPosInf => exact above rounded
  | towardNegInf => exact below rounded

theorem IsRounded.ge_of_ge (valid : format.Valid) (rounded : format.IsRounded mode x result)
    (mem : value ∈ format.finiteValues) (bound : value ≤ x) : value ≤ result.toEReal := by
  rw [← mode.mirror_mirror] at rounded
  have mirrored := rounded.negate.le_of_le valid (neg_mem_finiteValues mem) (neg_le_neg bound)
  rw [Number.toEReal_negate, EReal.coe_neg] at mirrored
  exact EReal.neg_le_neg_iff.mp mirrored

theorem IsRounded.eq_of_mem (valid : format.Valid) (rounded : format.IsRounded mode x result)
    (mem : x ∈ format.finiteValues) : result.toEReal = x :=
  le_antisymm (rounded.le_of_le valid mem le_rfl) (rounded.ge_of_ge valid mem le_rfl)

theorem IsRounded.isFinite (valid : format.Valid) (rounded : format.IsRounded mode x result)
    (mem : value ∈ format.finiteValues) (bound : |x| ≤ value) : result.isFinite = true := by
  have above := rounded.le_of_le valid mem ((le_abs_self x).trans bound)
  have below := rounded.ge_of_ge valid (neg_mem_finiteValues mem) (neg_le.mp ((neg_le_abs x).trans bound))
  cases result with
  | nan => exact absurd rfl rounded.ne_nan
  | finite negative significand exponent => rfl
  | infinity negative =>
    cases negative with
    | false => exact absurd above (EReal.coe_lt_top value).not_ge
    | true => exact absurd below (EReal.bot_lt_coe _).not_ge

theorem IsRounded.between {least most : ℝ} (valid : format.Valid) (rounded : format.IsRounded mode x result)
    (memLeast : least ∈ format.finiteValues) (memMost : most ∈ format.finiteValues) (nonneg : 0 ≤ least)
    (above : least ≤ x) (below : x ≤ most) :
    result.isFinite = true ∧ least ≤ result.toReal ∧ result.toReal ≤ most := by
  have isFinite : result.isFinite = true := by
    apply rounded.isFinite valid memMost
    rwa [abs_of_nonneg (nonneg.trans above)]
  have aboveResult := rounded.ge_of_ge valid memLeast above
  have belowResult := rounded.le_of_le valid memMost below
  rw [Number.toEReal_of_isFinite isFinite, EReal.coe_le_coe_iff] at aboveResult belowResult
  exact ⟨isFinite, aboveResult, belowResult⟩

end BinaryFormat

end PowerFpu
