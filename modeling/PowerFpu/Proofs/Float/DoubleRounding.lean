import PowerFpu.Proofs.Float.Representable

/-! Midpoints between neighbouring rungs decide which rung is nearest.

Two numbers that lie on the same side of every midpoint have the same nearest rung. A
number that was rounded to nearest in a finer format, which has the midpoints among its
values, can only have moved onto a midpoint, never across one. -/

set_option autoImplicit false

namespace PowerFpu

/-- The nearer of two numbers is told by their mean. -/
theorem abs_sub_le_abs_sub_iff {first second x : ℝ} (less : first < second) :
    |first - x| ≤ |second - x| ↔ 2 * x ≤ first + second := by
  have product : (second - x) ^ 2 - (first - x) ^ 2 = (second - first) * (first + second - 2 * x) := by ring
  rw [← sq_le_sq, ← sub_nonneg, product, mul_nonneg_iff_of_pos_left (sub_pos.mpr less), sub_nonneg]

theorem abs_sub_ge_abs_sub_iff {first second x : ℝ} (less : first < second) :
    |second - x| ≤ |first - x| ↔ first + second ≤ 2 * x := by
  have product : (first - x) ^ 2 - (second - x) ^ 2 = (second - first) * (2 * x - (first + second)) := by ring
  rw [← sq_le_sq, ← sub_nonneg, product, mul_nonneg_iff_of_pos_left (sub_pos.mpr less), sub_nonneg]

theorem abs_sub_eq_abs_sub_iff {first second x : ℝ} (less : first < second) :
    |second - x| = |first - x| ↔ 2 * x = first + second := by
  rw [le_antisymm_iff, abs_sub_le_abs_sub_iff less, abs_sub_ge_abs_sub_iff less, le_antisymm_iff, and_comm]

namespace BinaryFormat

/-- Halfway between a rung and the next, which takes one bit more than the rung. -/
noncomputable def midpoint (format : BinaryFormat) (pattern : Nat) : ℝ :=
  dyadic (2 * format.significand pattern + 1) (format.minExponent + format.scale pattern - 1)

variable {format : BinaryFormat}

theorem two_mul_midpoint (format : BinaryFormat) (pattern : Nat) :
    2 * format.midpoint pattern = format.magnitude pattern + format.magnitude (pattern + 1) := by
  rw [midpoint, magnitude_succ, magnitude, dyadic, dyadic, zpow_sub_one₀ two_ne_zero]
  push_cast
  ring

theorem midpoint_pos (format : BinaryFormat) (pattern : Nat) : 0 < format.midpoint pattern :=
  dyadic_pos (Nat.succ_pos _) _

theorem midpoint_lt_magnitude_succ (format : BinaryFormat) (pattern : Nat) :
    format.midpoint pattern < format.magnitude (pattern + 1) := by
  have gap := format.magnitude_strictMono (Nat.lt_succ_self pattern)
  have middle := format.two_mul_midpoint pattern
  linarith

theorem midpoint_lt_infinity {pattern : Nat} (finite : pattern < format.infinity) :
    format.midpoint pattern < format.magnitude format.infinity :=
  (format.midpoint_lt_magnitude_succ pattern).trans_le (format.magnitude_strictMono.monotone finite)

theorem overflowThreshold_eq_midpoint (valid : format.Valid) :
    format.overflowThreshold = format.midpoint (format.infinity - 1) := by
  have threshold := two_mul_overflowThreshold valid
  have middle := format.two_mul_midpoint (format.infinity - 1)
  rw [Nat.sub_add_cancel (infinity_pos valid)] at middle
  linarith

/-- On which side of a midpoint a rung lies, and how far from it at least. -/
theorem half_gap_le_abs_sub (format : BinaryFormat) (pattern other : Nat) :
    2 ^ (format.minExponent + format.scale pattern - 1) ≤ |format.magnitude other - format.midpoint pattern| := by
  have gap : format.magnitude (pattern + 1) = format.magnitude pattern +
      2 * 2 ^ (format.minExponent + format.scale pattern - 1) := by
    rw [magnitude_succ, zpow_sub_one₀ two_ne_zero]
    ring
  have middle := format.two_mul_midpoint pattern
  rcases Nat.lt_or_ge pattern other with above | below
  · have far := format.magnitude_strictMono.monotone (show pattern + 1 ≤ other from above)
    exact le_abs.mpr (.inl (by linarith))
  · have far := format.magnitude_strictMono.monotone below
    exact le_abs.mpr (.inr (by linarith))

theorem midpoint_lt_half_gap (format : BinaryFormat) (pattern : Nat) :
    format.midpoint pattern <
      2 ^ (format.fractionBits + 2) * 2 ^ (format.minExponent + format.scale pattern - 1) := by
  obtain ⟨-, bound, -⟩ := significand_bounds format pattern
  have few : 2 * format.significand pattern + 1 < 2 ^ (format.fractionBits + 2) := by
    rw [pow_succ]
    omega
  rw [midpoint, dyadic]
  exact mul_lt_mul_of_pos_right (by exact_mod_cast few) (zpow_pos two_pos _)

variable {x y : ℝ} {rung : Nat}

/-- The nearest rung lies between the midpoints next to it. -/
theorem isClosestRung_iff :
    format.IsClosestRung x rung ↔
      (x ≤ format.midpoint rung ∧ (x = format.midpoint rung → rung % 2 = 0)) ∧
        ∀ below, rung = below + 1 → format.midpoint below ≤ x ∧ (x = format.midpoint below → rung % 2 = 0) := by
  constructor
  · intro closest
    have gap := format.magnitude_strictMono (Nat.lt_succ_self rung)
    obtain ⟨near, even⟩ := closest (rung + 1)
    refine ⟨⟨?_, ?_⟩, ?_⟩
    · have bound := (abs_sub_le_abs_sub_iff gap).mp near
      rw [← two_mul_midpoint] at bound
      linarith
    · intro tie
      exact even (Nat.succ_ne_self rung) ((abs_sub_eq_abs_sub_iff gap).mpr (by rw [tie, two_mul_midpoint]))
    · rintro below rfl
      have gapBelow := format.magnitude_strictMono (Nat.lt_succ_self below)
      obtain ⟨nearBelow, evenBelow⟩ := closest below
      refine ⟨?_, ?_⟩
      · have bound := (abs_sub_ge_abs_sub_iff gapBelow).mp nearBelow
        rw [← two_mul_midpoint] at bound
        linarith
      · intro tie
        exact evenBelow (Nat.succ_ne_self below).symm
          ((abs_sub_eq_abs_sub_iff gapBelow).mpr (by rw [tie, two_mul_midpoint])).symm
  · -- A rung beyond a neighbour is further away than the neighbour, whose midpoint decides.
    rintro ⟨⟨upper, evenUpper⟩, lower⟩ other
    rcases lt_trichotomy rung other with above | rfl | below
    · have gap := format.magnitude_strictMono above
      have next := format.magnitude_strictMono.monotone (show rung + 1 ≤ other from above)
      have middle := format.two_mul_midpoint rung
      refine ⟨(abs_sub_le_abs_sub_iff gap).mpr (by linarith), fun _ tie => ?_⟩
      have mean := (abs_sub_eq_abs_sub_iff gap).mp tie
      exact evenUpper (by linarith)
    · exact ⟨le_rfl, fun differs => absurd rfl differs⟩
    · obtain ⟨previous, rfl⟩ := Nat.exists_eq_add_of_lt below
      have gap := format.magnitude_strictMono below
      have next := format.magnitude_strictMono.monotone (show other ≤ other + previous by omega)
      have middle := format.two_mul_midpoint (other + previous)
      obtain ⟨bound, even⟩ := lower (other + previous) rfl
      refine ⟨(abs_sub_ge_abs_sub_iff gap).mpr (by linarith), fun _ tie => ?_⟩
      have mean := (abs_sub_eq_abs_sub_iff gap).mp tie.symm
      exact even (by linarith)

def SameSide (pivot x y : ℝ) : Prop :=
  (x < pivot ↔ y < pivot) ∧ (pivot < x ↔ pivot < y)

theorem SameSide.le_iff {pivot : ℝ} (same : SameSide pivot x y) : x ≤ pivot ↔ y ≤ pivot := by
  rw [← not_lt, ← not_lt, same.2]

theorem SameSide.ge_iff {pivot : ℝ} (same : SameSide pivot x y) : pivot ≤ x ↔ pivot ≤ y := by
  rw [← not_lt, ← not_lt, same.1]

theorem SameSide.eq_iff {pivot : ℝ} (same : SameSide pivot x y) : x = pivot ↔ y = pivot := by
  rw [le_antisymm_iff, le_antisymm_iff, same.le_iff, same.ge_iff]

theorem isNearest_of_sameSide (valid : format.Valid) (nonneg : 0 ≤ x)
    (same : ∀ pattern < format.infinity, SameSide (format.midpoint pattern) x y)
    (closest : format.IsClosestRung y rung) :
    format.IsNearest x (format.assemble false (if rung < format.infinity then rung else format.infinity)) := by
  rcases Nat.lt_or_ge rung format.infinity with finite | overflows
  · refine isNearest_of_closest valid (isClosestRung_iff.mpr ?_) nonneg
    obtain ⟨⟨upper, evenUpper⟩, lower⟩ := isClosestRung_iff.mp closest
    refine ⟨⟨(same rung finite).le_iff.mpr upper, fun tie => evenUpper ((same rung finite).eq_iff.mp tie)⟩, ?_⟩
    intro below next
    have sameBelow := same below (by omega)
    obtain ⟨bound, even⟩ := lower below next
    exact ⟨sameBelow.ge_iff.mpr bound, fun tie => even (sameBelow.eq_iff.mp tie)⟩
  · have threshold := overflowThreshold_le_of_closest valid closest overflows
    have sameTop := same (format.infinity - 1) (Nat.sub_lt (infinity_pos valid) Nat.one_pos)
    rw [if_neg overflows.not_gt, assemble_infinity]
    rw [overflowThreshold_eq_midpoint valid] at threshold
    exact .positiveInfinity (by rw [overflowThreshold_eq_midpoint valid]; exact sameTop.ge_iff.mpr threshold)

end BinaryFormat

/-! Rounding to double and then to single.

In the directed modes the second rounding always corrects the first, because every single is
a double. To nearest it does so for a number that keeps away from the midpoints of the
singles: the first rounding then cannot move it onto one. -/

namespace BinaryFormat

/-! Nesting. -/

theorem top_mem_values (format : BinaryFormat) : (⊤ : EReal) ∈ format.values :=
  mem_values.mpr ⟨false, format.infinity, le_rfl, by rw [assemble_infinity]; rfl⟩

theorem bot_mem_values (format : BinaryFormat) : (⊥ : EReal) ∈ format.values :=
  mem_values.mpr ⟨true, format.infinity, le_rfl, by rw [assemble_infinity]; rfl⟩

theorem single_infinity_lt_double_infinity :
    single.magnitude single.infinity < double.magnitude double.infinity := by
  rw [single_magnitude_infinity, double_magnitude_infinity]
  exact pow_lt_pow_right₀ one_lt_two (by norm_num)

theorem magnitude_mem_double {pattern : Nat} (finite : pattern < single.infinity) :
    single.magnitude pattern ∈ double.finiteValues := by
  obtain ⟨-, bound, -⟩ := significand_bounds single pattern
  have least : double.minExponent ≤ single.minExponent := by decide
  refine dyadic_mem_finiteValues (bound.trans (by decide)) (by omega) ?_
  exact (single.magnitude_strictMono finite).trans single_infinity_lt_double_infinity

theorem finiteValues_nested : single.finiteValues ⊆ double.finiteValues := by
  intro value mem
  obtain ⟨pattern, finite, rfl | rfl⟩ := mem_finiteValues.mp mem
  · exact magnitude_mem_double finite
  · exact neg_mem_finiteValues (magnitude_mem_double finite)

theorem values_nested : single.values ⊆ double.values := by
  intro value mem
  rcases values_cases mem with rfl | rfl | ⟨finite, memFinite, rfl⟩
  · exact double.top_mem_values
  · exact double.bot_mem_values
  · exact coe_mem_values (finiteValues_nested memFinite)

section Directed
variable {x : ℝ} {first result : Number}

theorem IsAbove.of_nested {y : ℝ} (above : double.IsAbove x first) (isFirst : first.toEReal = y)
    (second : single.IsAbove y result) : single.IsAbove x result := by
  obtain ⟨-, ⟨-, bound⟩, least⟩ := above
  obtain ⟨isNumber, ⟨mem, boundSecond⟩, leastSecond⟩ := second
  rw [isFirst] at bound least
  refine ⟨isNumber, ⟨mem, bound.trans boundSecond⟩, ?_⟩
  rintro value ⟨memValue, aboveValue⟩
  exact leastSecond ⟨memValue, least ⟨values_nested memValue, aboveValue⟩⟩

theorem IsBelow.of_nested {y : ℝ} (below : double.IsBelow x first) (isFirst : first.toEReal = y)
    (second : single.IsBelow y result) : single.IsBelow x result := by
  obtain ⟨-, ⟨-, bound⟩, greatest⟩ := below
  obtain ⟨isNumber, ⟨mem, boundSecond⟩, greatestSecond⟩ := second
  rw [isFirst] at bound greatest
  refine ⟨isNumber, ⟨mem, boundSecond.trans bound⟩, ?_⟩
  rintro value ⟨memValue, belowValue⟩
  exact greatestSecond ⟨memValue, greatest ⟨values_nested memValue, belowValue⟩⟩

end Directed

/-! The error of a nearest number. -/

theorem gap_le_of_normal {format : BinaryFormat} {pattern : Nat} (normal : 2 ^ format.fractionBits ≤ pattern) :
    2 ^ format.fractionBits * 2 ^ (format.minExponent + format.scale pattern) ≤ format.magnitude pattern := by
  obtain ⟨sum, -, subnormal | leading⟩ := significand_bounds format pattern
  · rw [subnormal, Nat.zero_mul, Nat.zero_add] at sum
    rw [magnitude, dyadic, ← sum]
    exact mul_le_mul_of_nonneg_right (by exact_mod_cast normal) (zpow_pos two_pos _).le
  · rw [magnitude, dyadic]
    exact mul_le_mul_of_nonneg_right (by exact_mod_cast leading) (zpow_pos two_pos _).le

theorem relative_error {format : BinaryFormat} {x : ℝ} {pattern : Nat} (normal : 2 ^ format.fractionBits ≤ pattern)
    (inside : pattern + 1 < format.infinity)
    (closest : ∀ value ∈ format.finiteValues, |format.magnitude pattern - x| ≤ |value - x|) :
    2 ^ (format.fractionBits + 1) * |format.magnitude pattern - x| ≤ format.magnitude pattern := by
  obtain ⟨previous, rfl⟩ :=
    Nat.exists_eq_succ_of_ne_zero (Nat.one_le_iff_ne_zero.mp (Nat.one_le_two_pow.trans normal))
  have mem (rung : Nat) (finite : rung < format.infinity) : format.magnitude rung ∈ format.finiteValues :=
    mem_finiteValues.mpr ⟨rung, finite, .inl rfl⟩
  -- Both neighbours are no further away than one unit; below a power of two it is half of one.
  have gap := format.magnitude_succ (previous + 1)
  have gapBelow := format.magnitude_succ previous
  have sameOrHalf : (2 : ℝ) ^ (format.minExponent + format.scale previous) ≤
      2 ^ (format.minExponent + format.scale (previous + 1)) := by
    have scales : format.scale previous ≤ format.scale (previous + 1) :=
      Nat.sub_le_sub_right (Nat.div_le_div_right (Nat.le_succ previous)) 1
    exact zpow_le_zpow_right₀ one_le_two (by omega)
  have upper := (abs_sub_le_abs_sub_iff (format.magnitude_strictMono (Nat.lt_succ_self (previous + 1)))).mp
    (closest _ (mem _ inside))
  have lower := (abs_sub_ge_abs_sub_iff (format.magnitude_strictMono (Nat.lt_succ_self previous))).mp
    (closest _ (mem _ (by omega)))
  have halfGap : 2 * |format.magnitude (previous + 1) - x| ≤
      2 ^ (format.minExponent + format.scale (previous + 1)) := by
    rw [← abs_two, ← abs_mul, abs_two]
    exact abs_le.mpr ⟨by linarith, by linarith⟩
  calc 2 ^ (format.fractionBits + 1) * |format.magnitude (previous + 1) - x|
    _ = 2 ^ format.fractionBits * (2 * |format.magnitude (previous + 1) - x|) := by ring
    _ ≤ 2 ^ format.fractionBits * 2 ^ (format.minExponent + format.scale (previous + 1)) :=
      mul_le_mul_of_nonneg_left halfGap (by positivity)
    _ ≤ format.magnitude (previous + 1) := gap_le_of_normal normal

theorem normal_of_le {format : BinaryFormat} {pattern : Nat}
    (large : dyadic (2 ^ format.fractionBits) format.minExponent ≤ format.magnitude pattern) :
    2 ^ format.fractionBits ≤ pattern := by
  have first : format.magnitude (2 ^ format.fractionBits) = dyadic (2 ^ format.fractionBits) format.minExponent := by
    have sum : format.magnitude (0 * 2 ^ format.fractionBits + 2 ^ format.fractionBits) =
        dyadic (2 ^ format.fractionBits) (format.minExponent + (0 : Nat)) :=
      magnitude_add (Nat.pow_le_pow_right two_pos (Nat.le_succ _)) (.inl rfl)
    rwa [Nat.zero_mul, Nat.zero_add, Nat.cast_zero, add_zero] at sum
  rw [← first] at large
  exact format.magnitude_strictMono.le_iff_le.mp large

theorem double_leastNormal : dyadic (2 ^ double.fractionBits) double.minExponent = dyadic 1 (-1022) :=
  (dyadic_add 1 52 double.minExponent).symm

/-! Midpoints of singles among the doubles. -/

theorem midpoint_mem_double {pattern : Nat} (finite : pattern < single.infinity) :
    single.midpoint pattern ∈ double.finiteValues := by
  have below := (midpoint_lt_infinity finite).trans single_infinity_lt_double_infinity
  obtain ⟨-, bound, -⟩ := significand_bounds single pattern
  have bits : (2 : Nat) ^ (single.fractionBits + 1) = 2 ^ 24 := rfl
  have least : double.minExponent ≤ single.minExponent - 1 := by decide
  rw [midpoint] at below ⊢
  refine dyadic_mem_finiteValues ?_ (by omega) below
  calc 2 * single.significand pattern + 1
    _ < 2 ^ 25 := by omega
    _ ≤ 2 ^ (double.fractionBits + 1) := Nat.pow_le_pow_right two_pos (by decide)

theorem exists_normal_midpoint {pattern : Nat} (finite : pattern < single.infinity) :
    ∃ rung, double.magnitude rung = single.midpoint pattern ∧
      2 ^ double.fractionBits ≤ rung ∧ rung + 1 < double.infinity := by
  have leastMidpoint : dyadic 1 (-1022) ≤ single.midpoint pattern := by
    have least : single.minExponent = -149 := by decide
    rw [midpoint, least, dyadic, dyadic]
    have units : (2 : ℝ) ^ (-1022 : ℤ) ≤ 2 ^ (-149 + (single.scale pattern : ℤ) - 1) :=
      zpow_le_zpow_right₀ one_le_two (by omega)
    exact mul_le_mul (by exact_mod_cast Nat.le_add_left 1 _) units (zpow_pos two_pos _).le (Nat.cast_nonneg _)
  have topMem : single.magnitude single.infinity ∈ double.finiteValues := by
    have top : single.magnitude single.infinity = dyadic 1 (128 : Nat) := by
      rw [single_magnitude_infinity, dyadic, zpow_natCast, Nat.cast_one, one_mul]
    have below := single_infinity_lt_double_infinity
    rw [top] at below ⊢
    exact dyadic_mem_finiteValues (by decide) (by decide) below
  obtain ⟨rung, -, same⟩ := exists_abs_rung (midpoint_mem_double finite)
  obtain ⟨top, topFinite, sameTop⟩ := exists_abs_rung topMem
  rw [abs_of_pos (single.midpoint_pos pattern)] at same
  rw [abs_of_nonneg (single.magnitude_nonneg _)] at sameTop
  have below := midpoint_lt_infinity finite
  rw [← same, ← sameTop] at below
  have inside := double.magnitude_strictMono.lt_iff_lt.mp below
  exact ⟨rung, same, normal_of_le (by rwa [same, double_leastNormal]), by omega⟩

/-- A number that is a double, or that no midpoint of the singles is too close to. It stays
far below the overflow of the doubles. -/
structure Settled (x : ℝ) : Prop where
  bounded : x ≤ 2 ^ 512
  apart : x ∈ double.finiteValues ∨
    ∀ pattern < single.infinity, x ≠ single.midpoint pattern →
      single.midpoint pattern < 2 ^ 53 * |single.midpoint pattern - x|

section Nearest
variable {x y : ℝ} {first : Number}

/-- The nearest double of a settled number is a midpoint of the singles only if the number is. -/
theorem eq_midpoint_of_settled (settled : Settled x) (nearest : double.IsNearest x first)
    (isFirst : first.toEReal = y) {pattern : Nat} (finite : pattern < single.infinity)
    (moved : y = single.midpoint pattern) :
    x = single.midpoint pattern := by
  by_contra differs
  rcases settled.apart with mem | apart
  · have rounded : double.IsRounded .nearest x first := nearest
    have same := rounded.eq_of_mem double_valid mem
    exact differs ((EReal.coe_eq_coe_iff.mp (same.symm.trans isFirst)).trans moved)
  · obtain ⟨rung, isRung, normal, inside⟩ := exists_normal_midpoint finite
    have closest : ∀ value ∈ double.finiteValues, |double.magnitude rung - x| ≤ |value - x| := by
      cases nearest with
      | positiveInfinity | negativeInfinity => cases isFirst
      | finite negative significand exponent within closest even =>
        rwa [EReal.coe_eq_coe_iff.mp isFirst, moved, ← isRung] at closest
    have error := relative_error normal inside closest
    rw [isRung] at error
    exact absurd (apart pattern finite differs) error.not_gt

theorem sameSide_of_settled (settled : Settled x) (nearest : double.IsNearest x first) (isFirst : first.toEReal = y)
    {pattern : Nat} (finite : pattern < single.infinity) : SameSide (single.midpoint pattern) x y := by
  have rounded : double.IsRounded .nearest x first := nearest
  have mem := midpoint_mem_double finite
  have stays := eq_midpoint_of_settled settled nearest isFirst finite
  have atMost (bound : x ≤ single.midpoint pattern) : y ≤ single.midpoint pattern := by
    have passed := rounded.le_of_le double_valid mem bound
    rwa [isFirst, EReal.coe_le_coe_iff] at passed
  have atLeast (bound : single.midpoint pattern ≤ x) : single.midpoint pattern ≤ y := by
    have passed := rounded.ge_of_ge double_valid mem bound
    rwa [isFirst, EReal.coe_le_coe_iff] at passed
  constructor
  · constructor
    · exact fun less => lt_of_le_of_ne (atMost less.le) fun moved => less.ne (stays moved)
    · exact fun less => not_le.mp fun bound => less.not_ge (atLeast bound)
  · constructor
    · exact fun greater => lt_of_le_of_ne (atLeast greater.le) fun moved => greater.ne' (stays moved.symm)
    · exact fun greater => not_le.mp fun bound => greater.not_ge (atMost bound)

end Nearest

/-! Both roundings. -/

theorem roundMagnitude_closest {format : BinaryFormat} (valid : format.Valid) (significand : Nat) (exponent : Int) :
    ∃ rung, format.IsClosestRung (dyadic significand exponent) rung ∧
      format.roundMagnitude .nearest false ⟨significand, exponent, false⟩ =
        if rung < format.infinity then rung else format.infinity := by
  let magnitude : Magnitude := ⟨significand, exponent, false⟩
  have splits : (magnitude.remainder (magnitude.quantum format)).Splits _ _ (dyadic significand exponent) :=
    Magnitude.splits_neighbours rfl (fun inexact => by cases inexact)
  have parity := Magnitude.lowerPattern_mod_two valid magnitude
  exact ⟨_, isClosestRung_of_splits _ parity splits, roundMagnitude_eq .nearest false magnitude⟩

variable {mode : RoundingMode} {x : ℝ} {negative : Bool} {significand : Nat} {exponent : Int}

theorem isNearest_narrowed (nonneg : 0 ≤ x) (settled : Settled x)
    (nearest : double.IsNearest x (.finite false significand exponent)) :
    single.IsNearest x
      (single.assemble false (single.roundMagnitude .nearest false ⟨significand, exponent, false⟩)) := by
  obtain ⟨rung, closest, rounds⟩ := roundMagnitude_closest single_valid significand exponent
  rw [rounds]
  exact isNearest_of_sameSide single_valid nonneg (fun _ finite => sameSide_of_settled settled nearest rfl finite)
    closest

/-- The sign may go along, since nearest does not depend on it. -/
theorem isNearest_narrowed_signed (signed : x = if negative then -|x| else |x|) (settled : Settled |x|)
    (nearest : double.IsNearest x (.finite negative significand exponent)) :
    single.IsNearest x
      (single.assemble negative (single.roundMagnitude .nearest negative ⟨significand, exponent, false⟩)) := by
  cases negative with
  | false =>
    have isAbs : x = |x| := signed
    rw [isAbs] at nearest ⊢
    exact isNearest_narrowed (abs_nonneg x) settled nearest
  | true =>
    have isNeg : x = -|x| := signed
    have mirrored : double.IsNearest (-x) (.finite false significand exponent) := nearest.negate
    rw [isNeg, neg_neg] at mirrored
    have narrowed := (isNearest_narrowed (abs_nonneg x) settled mirrored).negate
    rw [← isNeg, negate_assemble] at narrowed
    rw [roundMagnitude_true]
    exact narrowed

/-- A settled number may be rounded to double first. -/
theorem isRounded_narrowed (signed : x = if negative then -|x| else |x|) (settled : Settled |x|)
    (rounded : double.IsRounded mode x (.finite negative significand exponent)) :
    single.IsRounded mode x (single.decode
      (single.signed negative (single.roundMagnitude mode negative ⟨significand, exponent, false⟩))) := by
  let first := Number.finite negative significand exponent
  have isFirst : first.toEReal = first.toReal := rfl
  have value : first.toReal = if negative then -dyadic significand exponent else dyadic significand exponent := by
    cases negative <;> rfl
  have second : single.IsRounded mode first.toReal (single.decode
      (single.signed negative (single.roundMagnitude mode negative ⟨significand, exponent, false⟩))) := by
    rw [value]
    have holds : (⟨significand, exponent, false⟩ : Magnitude).Holds (dyadic significand exponent) := rfl
    exact roundMagnitude_isRounded single_valid mode holds (fun inexact => by cases inexact) (dyadic_nonneg _ _)
      negative
  have zeroMem := zero_mem_finiteValues double_valid
  cases mode with
  | nearest =>
    have bound : single.roundMagnitude .nearest negative ⟨significand, exponent, false⟩ < single.signBit :=
      (roundMagnitude_le _ _ _).trans_lt single.infinity_lt_signBit
    rw [decode_signed bound]
    exact isNearest_narrowed_signed signed settled rounded
  | towardPosInf => exact IsAbove.of_nested rounded isFirst second
  | towardNegInf => exact IsBelow.of_nested rounded isFirst second
  | towardZero =>
    -- The first rounding does not pass zero, so both go in the same direction.
    refine ⟨fun nonneg => ?_, fun nonpos => ?_⟩
    · have stays : 0 ≤ first.toReal := by
        have passed := rounded.ge_of_ge double_valid zeroMem nonneg
        exact EReal.coe_le_coe_iff.mp passed
      exact IsBelow.of_nested (rounded.1 nonneg) isFirst (second.1 stays)
    · have stays : first.toReal ≤ 0 := by
        have passed := rounded.le_of_le double_valid zeroMem nonpos
        exact EReal.coe_le_coe_iff.mp passed
      exact IsAbove.of_nested (rounded.2 nonpos) isFirst (second.2 stays)

end BinaryFormat

end PowerFpu
