import PowerFpu.Proofs.Float.SingleRounding
import PowerFpu.Statistics

/-! How far rounding moves a number, in every mode.

A result lies between the rungs around the number, whatever the mode. Among the normal
numbers the gap of these rungs is small compared with the number, and among the subnormal
ones it is the least of all. -/

set_option autoImplicit false

namespace PowerFpu

namespace BinaryFormat

variable {format : BinaryFormat} {mode : RoundingMode} {x most : ℝ} {result : Number}

theorem exists_neighbours (nonneg : 0 ≤ x) {top : Nat} (below : x < format.magnitude top) :
    ∃ pattern < top, format.magnitude pattern ≤ x ∧ x < format.magnitude (pattern + 1) := by
  induction top with
  | zero =>
    rw [magnitude_zero] at below
    exact absurd below nonneg.not_gt
  | succ top ih =>
    rcases lt_or_ge x (format.magnitude top) with lower | above
    · obtain ⟨pattern, less, between⟩ := ih lower
      exact ⟨pattern, less.trans (Nat.lt_succ_self top), between⟩
    · exact ⟨top, Nat.lt_succ_self top, above, below⟩

theorem gap_le (format : BinaryFormat) (pattern : Nat) :
    2 ^ format.fractionBits * 2 ^ (format.minExponent + format.scale pattern) ≤
      format.magnitude pattern + dyadic (2 ^ format.fractionBits) format.minExponent := by
  rcases lt_or_ge pattern (2 ^ format.fractionBits) with subnormal | normal
  · have least : format.scale pattern = 0 := by rw [scale, Nat.div_eq_of_lt subnormal]
    rw [least, Nat.cast_zero, add_zero, dyadic, Nat.cast_pow, Nat.cast_ofNat]
    exact le_add_of_nonneg_left (format.magnitude_nonneg pattern)
  · exact (gap_le_of_normal normal).trans (le_add_of_nonneg_right (dyadic_nonneg _ _))

/-- Below some finite value a result is off by the last place of the number, or by the least
spacing. -/
theorem IsRounded.error (valid : format.Valid) (rounded : format.IsRounded mode x result) (nonneg : 0 ≤ x)
    (mem : most ∈ format.finiteValues) (below : x < most) :
    2 ^ format.fractionBits * |result.toReal - x| ≤ x + dyadic (2 ^ format.fractionBits) format.minExponent := by
  obtain ⟨top, finite, isTop⟩ := exists_abs_rung mem
  rw [abs_of_pos (nonneg.trans_lt below)] at isTop
  rw [← isTop] at below
  obtain ⟨pattern, less, least, upper⟩ := exists_neighbours nonneg below
  -- No mode passes a rung, so that the result stays between the neighbours.
  have memRung {rung : Nat} (bound : rung ≤ top) : format.magnitude rung ∈ format.finiteValues :=
    mem_finiteValues.mpr ⟨rung, bound.trans_lt finite, .inl rfl⟩
  obtain ⟨-, leastResult, upperResult⟩ :=
    rounded.between valid (memRung less.le) (memRung less) (format.magnitude_nonneg pattern) least upper.le
  have gap := format.magnitude_succ pattern
  have distance : |result.toReal - x| ≤ 2 ^ (format.minExponent + format.scale pattern) :=
    abs_le.mpr ⟨by linarith, by linarith⟩
  calc 2 ^ format.fractionBits * |result.toReal - x|
    _ ≤ 2 ^ format.fractionBits * 2 ^ (format.minExponent + format.scale pattern) :=
      mul_le_mul_of_nonneg_left distance (by positivity)
    _ ≤ format.magnitude pattern + dyadic (2 ^ format.fractionBits) format.minExponent := format.gap_le pattern
    _ ≤ x + dyadic (2 ^ format.fractionBits) format.minExponent := by linarith

end BinaryFormat

namespace Double

open BinaryFormat (double double_valid)

variable {mode : RoundingMode} {x y most : ℝ} {bits other : Doubleword} {negative : Bool}

theorem RoundsTo.negative_eq (rounds : RoundsTo mode x negative bits) : (value bits).negative = negative :=
  (BinaryFormat.msb_eq_negative isWidth rounds.1.ne_nan).symm.trans rounds.2

theorem RoundsTo.mono (ordered : x ≤ y) (rounds : RoundsTo mode x negative bits)
    (roundsOther : RoundsTo mode y negative other) : (value bits).toEReal ≤ (value other).toEReal := by
  rcases ordered.lt_or_eq with less | rfl
  · exact rounds.1.mono double_valid less roundsOther.1 (fun isFinite => ⟨_, isFinite, rfl⟩)
      (fun isFinite => ⟨_, isFinite, rfl⟩)
  · rw [rounds.unique roundsOther]

/-- Against a bound of the number that is not below one the least spacing does not count. -/
theorem RoundsTo.error (rounds : RoundsTo mode x negative bits) (nonneg : 0 ≤ x) (below : x ≤ most)
    (atLeastOne : 1 ≤ most) (bounded : most ≤ 2 ^ 64) : 2 ^ 51 * |(value bits).toReal - x| ≤ most := by
  have wide : x < 2 ^ 65 := by linarith
  have error := rounds.1.error double_valid nonneg (BinaryFormat.two_pow_mem_double (by norm_num)) wide
  have fractionBits : double.fractionBits = 52 := rfl
  have tiny : dyadic 1 (-1022) ≤ 1 := by
    rw [dyadic, Nat.cast_one, one_mul]
    exact zpow_le_one_of_nonpos₀ one_le_two (by norm_num)
  rw [BinaryFormat.double_leastNormal, fractionBits] at error
  linarith

end Double

/-! Percentages of counters, rounded four times.

The two counters are rounded to nearest, the quotient and the product in the mode of the
thread. Every rounding keeps the order and passes no double, so that a share stays below one
and a percentage below a hundred; the errors add up to a tiny part of a hundredth. -/

open BinaryFormat (double double_valid)

namespace Double

/-- What a number from zero up to a double is rounded to. -/
structure RoundsWithin (mode : RoundingMode) (most x : ℝ) (bits : Doubleword) : Prop where
  rounds : RoundsTo mode x false bits
  nonneg : 0 ≤ x
  below : x ≤ most
  mem : most ∈ double.finiteValues

namespace RoundsWithin

variable {mode : RoundingMode} {most mostOther x y : ℝ} {bits other : Doubleword}

theorem between (within : RoundsWithin mode most x bits) :
    (value bits).isFinite = true ∧ 0 ≤ (value bits).toReal ∧ (value bits).toReal ≤ most :=
  within.rounds.1.between double_valid (BinaryFormat.zero_mem_finiteValues double_valid) within.mem le_rfl
    within.nonneg within.below

theorem mono (within : RoundsWithin mode most x bits) (withinOther : RoundsWithin mode mostOther y other)
    (ordered : x ≤ y) : (value bits).toReal ≤ (value other).toReal := by
  have same := within.rounds.mono ordered withinOther.rounds
  rwa [Number.toEReal_of_isFinite within.between.1, Number.toEReal_of_isFinite withinOther.between.1,
    EReal.coe_le_coe_iff] at same

theorem ge_of_mem (within : RoundsWithin mode most x bits) (mem : y ∈ double.finiteValues) (above : y ≤ x) :
    y ≤ (value bits).toReal := by
  have passed := within.rounds.1.ge_of_ge double_valid mem above
  rwa [Number.toEReal_of_isFinite within.between.1, EReal.coe_le_coe_iff] at passed

end RoundsWithin

theorem value_hundred : value hundred = .finite false (25 * 2 ^ 48) (-46) := by decide

theorem toReal_hundred : (value hundred).toReal = 100 := by
  rw [value_hundred]
  norm_num [Number.toReal, dyadic]

theorem hundred_mem : (100 : ℝ) ∈ double.finiteValues :=
  ⟨hundred.toNat, by decide, toReal_hundred⟩

theorem one_mem : (1 : ℝ) ∈ double.finiteValues := by
  simpa using BinaryFormat.two_pow_mem_double (show 0 < 1024 by norm_num)

end Double

namespace Statistics

/-- The quotient of two numbers that are off by a part of the denominator. -/
theorem quotient_error {n whole numerator denominator scale : ℝ} (scaleNonneg : 0 ≤ scale) (positive : 0 < whole)
    (positiveDenominator : 0 < denominator)
    (nonneg : 0 ≤ numerator / denominator) (below : numerator / denominator ≤ 1)
    (numeratorError : scale * |numerator - n| ≤ whole) (denominatorError : scale * |denominator - whole| ≤ whole) :
    scale * |numerator / denominator - n / whole| ≤ 2 := by
  have distance : |numerator / denominator - n / whole| * whole ≤ |numerator - n| + |denominator - whole| := by
    -- The error of the denominator counts less than fully, as the quotient is at most one.
    calc |numerator / denominator - n / whole| * whole
      _ = |(numerator - n) - numerator / denominator * (denominator - whole)| := by
        rw [← abs_of_pos positive, ← abs_mul, abs_of_pos positive]
        congr 1
        field_simp
        ring
      _ ≤ |numerator - n| + |numerator / denominator * (denominator - whole)| := abs_sub _ _
      _ ≤ |numerator - n| + |denominator - whole| := by
        rw [abs_mul, abs_of_nonneg nonneg]
        have smaller := mul_le_of_le_one_left (abs_nonneg (denominator - whole)) below
        linarith
  have scaled := mul_le_mul_of_nonneg_left distance scaleNonneg
  refine le_of_mul_le_mul_right ?_ positive
  linarith

def counter (n : Nat) : Doubleword :=
  Double.ofNumber .nearest (.finite false n 0)

variable (mode : RoundingMode)

def share (count whole : Nat) : Doubleword :=
  Double.div mode (counter count) (counter whole)

theorem counter_within {n : Nat} (bounded : n < 2 ^ 64) :
    Double.RoundsWithin .nearest (2 ^ 64) n (counter n) where
  rounds := by
    have isValue : (Number.finite false n 0).toReal = n := by simp [Number.toReal, dyadic]
    rw [← isValue]
    exact Double.ofNumber_roundsTo .nearest rfl
  nonneg := Nat.cast_nonneg n
  below := by exact_mod_cast bounded.le
  mem := BinaryFormat.two_pow_mem_double (by norm_num)

section Share
variable {whole : Nat} (nonempty : 1 ≤ whole) (bounded : whole < 2 ^ 64)
include nonempty bounded

theorem share_within {count : Nat} (part : count ≤ whole) :
    Double.RoundsWithin mode 1 ((Double.value (counter count)).toReal / (Double.value (counter whole)).toReal)
      (share mode count whole) := by
  have numerator := counter_within (part.trans_lt bounded)
  have denominator := counter_within bounded
  obtain ⟨isFinite, nonneg, -⟩ := numerator.between
  have positive : 0 < (Double.value (counter whole)).toReal :=
    one_pos.trans_le (denominator.ge_of_mem Double.one_mem (by exact_mod_cast nonempty))
  have rounds := Double.div_roundsTo mode isFinite denominator.between.1 positive.ne'
  rw [numerator.rounds.negative_eq, denominator.rounds.negative_eq] at rounds
  refine ⟨rounds, div_nonneg nonneg positive.le, ?_, Double.one_mem⟩
  rw [div_le_one positive]
  exact numerator.mono denominator (by exact_mod_cast part)

theorem share_error {count : Nat} (part : count ≤ whole) :
    2 ^ 51 * |(Double.value (share mode count whole)).toReal - count / whole| ≤ 3 := by
  have atLeastOne : (1 : ℝ) ≤ whole := by exact_mod_cast nonempty
  have partReal : (count : ℝ) ≤ whole := by exact_mod_cast part
  have boundedReal : (whole : ℝ) ≤ 2 ^ 64 := by exact_mod_cast bounded.le
  have numerator := counter_within (part.trans_lt bounded)
  have denominator := counter_within bounded
  have ratio := share_within mode nonempty bounded part
  -- The whole bounds both counters, so that it cancels in the quotient.
  have numeratorError := numerator.rounds.error numerator.nonneg partReal atLeastOne boundedReal
  have denominatorError := denominator.rounds.error denominator.nonneg le_rfl atLeastOne boundedReal
  have positive := one_pos.trans_le (denominator.ge_of_mem Double.one_mem atLeastOne)
  have exactError := quotient_error (by positivity) (one_pos.trans_le atLeastOne) positive ratio.nonneg ratio.below
    numeratorError denominatorError
  have ratioError := ratio.rounds.error ratio.nonneg ratio.below le_rfl (by norm_num)
  have triangle := abs_sub_le (Double.value (share mode count whole)).toReal
    ((Double.value (counter count)).toReal / (Double.value (counter whole)).toReal) (count / whole)
  linarith

theorem share_mono {first second : Nat} (ordered : first ≤ second) (part : second ≤ whole) :
    (Double.value (share mode first whole)).toReal ≤ (Double.value (share mode second whole)).toReal := by
  have numerators := (counter_within ((ordered.trans part).trans_lt bounded)).mono
    (counter_within (part.trans_lt bounded)) (by exact_mod_cast ordered)
  exact (share_within mode nonempty bounded (ordered.trans part)).mono (share_within mode nonempty bounded part)
    (div_le_div_of_nonneg_right numerators (counter_within bounded).between.2.1)

end Share

section Percentage
variable {total : Nat} (bounded : total < 2 ^ 64)
include bounded

theorem whole_bounded : max total 1 < 2 ^ 64 :=
  max_lt bounded (by norm_num)

theorem percentage_within {count : Nat} (part : count ≤ total) :
    Double.RoundsWithin mode 100 ((Double.value (share mode count (max total 1))).toReal * 100)
      (percentage mode count total) := by
  have ratio := share_within mode (le_max_right total 1) (whole_bounded bounded) (part.trans (le_max_left total 1))
  obtain ⟨isFinite, nonneg, below⟩ := ratio.between
  have rounds := Double.mul_roundsTo mode isFinite (b := Double.hundred) (by decide)
  rw [ratio.rounds.negative_eq, Double.toReal_hundred, Double.value_hundred] at rounds
  exact ⟨rounds, by linarith, by linarith, Double.hundred_mem⟩

/-- Next to a hundredth the four errors are tiny. -/
theorem percentage_error {count : Nat} (part : count ≤ total) :
    2 ^ 51 * |(Double.value (percentage mode count total)).toReal - 100 * (count / (max total 1 : Nat))| ≤ 400 := by
  have product := percentage_within mode bounded part
  have productError := product.rounds.error product.nonneg product.below (by norm_num) (by norm_num)
  have shareError := share_error mode (le_max_right total 1) (whole_bounded bounded) (part.trans (le_max_left total 1))
  generalize (Double.value (share mode count (max total 1))).toReal = ratio at *
  generalize (count : ℝ) / (max total 1 : Nat) = quotient at *
  have triangle := abs_sub_le (Double.value (percentage mode count total)).toReal (ratio * 100) (100 * quotient)
  have scaled : |ratio * 100 - 100 * quotient| = 100 * |ratio - quotient| := by
    rw [mul_comm ratio, ← mul_sub, abs_mul, abs_of_pos (by norm_num)]
  linarith

theorem percentage_mono {first second : Nat} (ordered : first ≤ second) (part : second ≤ total) :
    (Double.value (percentage mode first total)).toReal ≤ (Double.value (percentage mode second total)).toReal := by
  have ratios := share_mono mode (le_max_right total 1) (whole_bounded bounded) ordered
    (part.trans (le_max_left total 1))
  exact (percentage_within mode bounded (ordered.trans part)).mono (percentage_within mode bounded part)
    (mul_le_mul_of_nonneg_right ratios (by norm_num))

end Percentage

end Statistics

end PowerFpu
