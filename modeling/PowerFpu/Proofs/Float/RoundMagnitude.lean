import PowerFpu.Proofs.Float.CorrectRounding

/-! Rounding a magnitude rounds its value.

On the ladder of patterns a mode chooses the rung below, the rung above or the closest
one. Rungs from infinity on stand for overflow. -/

set_option autoImplicit false

namespace PowerFpu

namespace BinaryFormat

variable {format : BinaryFormat}

theorem infinity_pos (valid : format.Valid) : 0 < format.infinity := by
  have several : 2 ^ 2 ≤ 2 ^ format.exponentBits := Nat.pow_le_pow_right two_pos valid.exponent
  rw [infinity_eq, maxBiased_eq]
  exact Nat.mul_pos (by omega) (Nat.two_pow_pos _)

theorem infinity_even (valid : format.Valid) : format.infinity % 2 = 0 := by
  rw [infinity_eq]
  exact Nat.mod_eq_zero_of_dvd ((dvd_pow_self 2 (Nat.one_le_iff_ne_zero.mp valid.fraction)).mul_left _)

theorem significand_mod_two (valid : format.Valid) (pattern : Nat) :
    format.significand pattern % 2 = pattern % 2 := by
  have even : 2 ∣ format.scale pattern * 2 ^ format.fractionBits :=
    (dvd_pow_self 2 (Nat.one_le_iff_ne_zero.mp valid.fraction)).mul_left _
  obtain ⟨sum, -, -⟩ := significand_bounds format pattern
  omega

/-- The threshold lies halfway between the largest number and the power of two after it. -/
theorem two_mul_overflowThreshold (valid : format.Valid) :
    2 * format.overflowThreshold = format.magnitude (format.infinity - 1) + format.magnitude format.infinity := by
  have several : 2 ^ 2 ≤ 2 ^ format.exponentBits := Nat.pow_le_pow_right two_pos valid.exponent
  have positive : 0 < 2 ^ format.fractionBits := Nat.two_pow_pos _
  obtain ⟨steps, isSteps⟩ : ∃ steps, format.maxBiased = steps + 2 := ⟨format.maxBiased - 2, by
    rw [maxBiased_eq]
    omega⟩
  have top : format.infinity = steps * 2 ^ format.fractionBits + 2 ^ (format.fractionBits + 1) := by
    rw [infinity_eq, isSteps, pow_succ]
    ring
  have largest : format.infinity - 1 =
      steps * 2 ^ format.fractionBits + (2 ^ (format.fractionBits + 1) - 1) := by
    rw [top, pow_succ]
    omega
  have exponents : format.minExponent + steps = (1 : Nat) + (format.minExponent + format.maxBiased - 3) := by
    rw [isSteps]
    push_cast
    ring
  rw [overflowThreshold, largest, top, magnitude_add (Nat.sub_le _ _) (.inr ?_), magnitude_add le_rfl (.inr ?_),
    exponents, dyadic_add, dyadic_add, dyadic, dyadic, dyadic, Nat.shiftLeft_eq, Nat.shiftLeft_eq, Nat.cast_mul,
    Nat.cast_mul, Nat.cast_sub Nat.one_le_two_pow, Nat.cast_sub Nat.one_le_two_pow]
  · push_cast
    ring
  · rw [pow_succ]
    omega
  · rw [pow_succ]
    omega

variable {x : ℝ} {lower : Nat}

/-! The rung below. -/

theorem isBelow_of_between (valid : format.Valid) (least : format.magnitude lower ≤ x)
    (most : x < format.magnitude (lower + 1)) :
    format.IsBelow x (format.assemble false (if lower < format.infinity then lower else format.infinity - 1)) := by
  have some := infinity_pos valid
  generalize isChosen : (if lower < format.infinity then lower else format.infinity - 1) = chosen
  have finite : chosen < format.infinity := by split at isChosen <;> omega
  have atMost : chosen ≤ lower := by split at isChosen <;> omega
  have atLeast : ∀ pattern < format.infinity, pattern ≤ lower → pattern ≤ chosen := by
    intro pattern patternFinite below
    split at isChosen <;> omega
  refine ⟨assemble_ne_nan finite.le _, ⟨mem_values.mpr ⟨false, chosen, finite.le, rfl⟩, ?_⟩, ?_⟩
  · rw [toEReal_assemble finite]
    exact EReal.coe_le_coe_iff.mpr ((format.magnitude_strictMono.monotone atMost).trans least)
  · rintro other ⟨mem, below⟩
    rcases values_cases mem with rfl | rfl | ⟨value, memFinite, rfl⟩
    · exact absurd below (EReal.coe_lt_top x).not_ge
    · exact bot_le
    · rw [toEReal_assemble finite]
      refine EReal.coe_le_coe_iff.mpr ?_
      obtain ⟨pattern, patternFinite, rfl | rfl⟩ := mem_finiteValues.mp memFinite
      · have notAbove := (EReal.coe_le_coe_iff.mp below).trans_lt most
        have rung := Nat.lt_succ_iff.mp (format.magnitude_strictMono.lt_iff_lt.mp notAbove)
        exact format.magnitude_strictMono.monotone (atLeast pattern patternFinite rung)
      · exact (neg_nonpos.mpr (format.magnitude_nonneg _)).trans (format.magnitude_nonneg _)

/-- Zero is itself a value, so it is all that lies nearest to it on either side. -/
theorem IsBelow.isAbove_of_zero (valid : format.Valid) {result : Number} (below : format.IsBelow 0 result) :
    format.IsAbove 0 result := by
  obtain ⟨isNumber, ⟨mem, bound⟩, greatest⟩ := below
  have zeroMem : (0 : EReal) ∈ format.values := by
    refine mem_values.mpr ⟨false, 0, Nat.zero_le _, ?_⟩
    rw [toEReal_assemble (infinity_pos valid), magnitude_zero]
    rfl
  have isZero : result.toEReal = 0 := le_antisymm bound (greatest ⟨zeroMem, le_rfl⟩)
  refine ⟨isNumber, ⟨mem, isZero.symm.le⟩, ?_⟩
  rintro value ⟨-, above⟩
  rw [isZero]
  exact above

/-! The rung above. -/

theorem isAbove_of_least {upper : Nat} (bound : x ≤ format.magnitude upper)
    (least : ∀ pattern, x ≤ format.magnitude pattern → upper ≤ pattern) (nonneg : 0 ≤ x) :
    format.IsAbove x (format.assemble false (if upper < format.infinity then upper else format.infinity)) := by
  have aboveOnly : ∀ value ∈ format.finiteValues, x ≤ value →
      upper < format.infinity ∧ format.magnitude upper ≤ value := by
    intro value mem above
    obtain ⟨pattern, finite, rfl | rfl⟩ := mem_finiteValues.mp mem
    · have rung := least pattern above
      exact ⟨rung.trans_lt finite, format.magnitude_strictMono.monotone rung⟩
    · -- Among the negative numbers only zero can be as large as the value.
      have patternNonneg := format.magnitude_nonneg pattern
      have isZero : x = 0 := by linarith
      have first : upper = 0 := Nat.le_zero.mp (least 0 (by rw [isZero, magnitude_zero]))
      rw [first, magnitude_zero]
      exact ⟨(Nat.zero_le pattern).trans_lt finite, by linarith⟩
  split
  next finite =>
    refine ⟨assemble_ne_nan finite.le _, ⟨mem_values.mpr ⟨false, upper, finite.le, rfl⟩, ?_⟩, ?_⟩
    · rw [toEReal_assemble finite]
      exact EReal.coe_le_coe_iff.mpr bound
    · rintro other ⟨mem, above⟩
      rcases values_cases mem with rfl | rfl | ⟨value, memFinite, rfl⟩
      · exact le_top
      · exact absurd above (EReal.bot_lt_coe x).not_ge
      · rw [toEReal_assemble finite]
        exact EReal.coe_le_coe_iff.mpr (aboveOnly value memFinite (EReal.coe_le_coe_iff.mp above)).2
  next overflows =>
    refine ⟨assemble_ne_nan le_rfl _, ⟨mem_values.mpr ⟨false, format.infinity, le_rfl, rfl⟩, ?_⟩, ?_⟩
    · rw [assemble_infinity]
      exact le_top
    · rintro other ⟨mem, above⟩
      rcases values_cases mem with rfl | rfl | ⟨value, memFinite, rfl⟩
      · exact le_top
      · exact absurd above (EReal.bot_lt_coe x).not_ge
      · exact absurd (aboveOnly value memFinite (EReal.coe_le_coe_iff.mp above)).1 overflows

theorem isLeastRung_of_splits {remainder : Remainder} (kept : Nat)
    (splits : remainder.Splits (format.magnitude lower) (format.magnitude (lower + 1)) x) :
    let upper := if RoundingMode.towardPosInf.roundsUp false kept remainder then lower + 1 else lower
    x ≤ format.magnitude upper ∧ ∀ pattern, x ≤ format.magnitude pattern → upper ≤ pattern := by
  have next (least : format.magnitude lower < x) (most : x ≤ format.magnitude (lower + 1)) :
      x ≤ format.magnitude (lower + 1) ∧ ∀ pattern, x ≤ format.magnitude pattern → lower + 1 ≤ pattern :=
    ⟨most, fun _ bound => format.magnitude_strictMono.lt_iff_lt.mp (least.trans_le bound)⟩
  have gap := format.magnitude_strictMono (Nat.lt_succ_self lower)
  cases remainder with
  | zero =>
    change x = _ at splits
    exact ⟨splits.le, fun _ bound => format.magnitude_strictMono.le_iff_le.mp (splits.symm.le.trans bound)⟩
  | belowHalf =>
    obtain ⟨above, below⟩ := splits
    exact next above (by linarith)
  | half =>
    change x - _ = _ - x at splits
    exact next (by linarith) (by linarith)
  | aboveHalf =>
    obtain ⟨above, below⟩ := splits
    exact next (by linarith) below.le

/-! The closest rung. -/

/-- No rung is closer, and of two closest ones this is the even one. -/
def IsClosestRung (format : BinaryFormat) (x : ℝ) (rung : Nat) : Prop :=
  ∀ other, |format.magnitude rung - x| ≤ |format.magnitude other - x| ∧
    (other ≠ rung → |format.magnitude other - x| = |format.magnitude rung - x| → rung % 2 = 0)

theorem distance_cases (least : format.magnitude lower ≤ x) (most : x < format.magnitude (lower + 1)) (other : Nat) :
    (x - format.magnitude lower ≤ |format.magnitude other - x| ∧
        (other ≠ lower → x - format.magnitude lower < |format.magnitude other - x|)) ∨
      (format.magnitude (lower + 1) - x ≤ |format.magnitude other - x| ∧
        (other ≠ lower + 1 → format.magnitude (lower + 1) - x < |format.magnitude other - x|)) := by
  rcases Nat.lt_or_ge lower other with above | below
  · right
    have step := format.magnitude_strictMono.monotone (show lower + 1 ≤ other from above)
    rw [abs_of_nonneg (by linarith)]
    refine ⟨by linarith, fun differs => ?_⟩
    have strict := format.magnitude_strictMono (show lower + 1 < other by omega)
    linarith
  · left
    have step := format.magnitude_strictMono.monotone below
    rw [abs_of_nonpos (by linarith)]
    refine ⟨by linarith, fun differs => ?_⟩
    have strict := format.magnitude_strictMono (show other < lower by omega)
    linarith

theorem isClosestRung_of_splits {remainder : Remainder} (kept : Nat) (sameParity : lower % 2 = kept % 2)
    (splits : remainder.Splits (format.magnitude lower) (format.magnitude (lower + 1)) x) :
    format.IsClosestRung x
      (if RoundingMode.nearest.roundsUp false kept remainder then lower + 1 else lower) := by
  have gap := format.magnitude_strictMono (Nat.lt_succ_self lower)
  obtain ⟨least, most⟩ := splits.between gap
  have toLower : |format.magnitude lower - x| = x - format.magnitude lower := by
    rw [abs_of_nonpos (by linarith), neg_sub]
  have toUpper : |format.magnitude (lower + 1) - x| = format.magnitude (lower + 1) - x :=
    abs_of_nonneg (by linarith)
  have chosenLower (closer : x - format.magnitude lower < format.magnitude (lower + 1) - x ∨
      x - format.magnitude lower = format.magnitude (lower + 1) - x ∧ lower % 2 = 0) :
      format.IsClosestRung x lower := by
    intro other
    rw [toLower]
    rcases distance_cases least most other with ⟨far, strict⟩ | ⟨far, strict⟩
    · exact ⟨far, fun differs same => absurd same (strict differs).ne'⟩
    · rcases closer with closer | ⟨tie, even⟩
      · exact ⟨by linarith, fun differs same => absurd same (by linarith)⟩
      · exact ⟨by linarith, fun _ _ => even⟩
  have chosenUpper (closer : format.magnitude (lower + 1) - x < x - format.magnitude lower ∨
      format.magnitude (lower + 1) - x = x - format.magnitude lower ∧ (lower + 1) % 2 = 0) :
      format.IsClosestRung x (lower + 1) := by
    intro other
    rw [toUpper]
    rcases distance_cases least most other with ⟨far, strict⟩ | ⟨far, strict⟩
    · rcases closer with closer | ⟨tie, even⟩
      · exact ⟨by linarith, fun differs same => absurd same (by linarith)⟩
      · exact ⟨by linarith, fun _ _ => even⟩
    · exact ⟨far, fun differs same => absurd same (strict differs).ne'⟩
  cases remainder with
  | zero =>
    change x = _ at splits
    exact chosenLower (.inl (by linarith))
  | belowHalf =>
    obtain ⟨above, below⟩ := splits
    exact chosenLower (.inl (by linarith))
  | aboveHalf =>
    obtain ⟨above, below⟩ := splits
    exact chosenUpper (.inl (by linarith))
  | half =>
    change x - _ = _ - x at splits
    by_cases odd : kept % 2 = 1
    · have up : RoundingMode.nearest.roundsUp false kept .half = true := beq_iff_eq.mpr odd
      rw [up, if_pos rfl]
      exact chosenUpper (.inr ⟨by linarith, by omega⟩)
    · have stay : RoundingMode.nearest.roundsUp false kept .half = false := beq_eq_false_iff_ne.mpr odd
      rw [stay, if_neg Bool.false_ne_true]
      exact chosenLower (.inr ⟨by linarith, by omega⟩)

theorem lt_overflowThreshold_of_closest (valid : format.Valid) {rung : Nat} (closest : format.IsClosestRung x rung)
    (finite : rung < format.infinity) : x < format.overflowThreshold := by
  have threshold := two_mul_overflowThreshold valid
  have topGap := format.magnitude_strictMono (show format.infinity - 1 < format.infinity by omega)
  have rungBound := format.magnitude_strictMono.monotone (show rung ≤ format.infinity - 1 by omega)
  by_contra past
  rw [not_lt] at past
  obtain ⟨close, even⟩ := closest format.infinity
  have toRung : |format.magnitude rung - x| = x - format.magnitude rung := by
    rw [abs_of_nonpos (by linarith), neg_sub]
  rw [toRung] at close even
  rcases le_or_gt x (format.magnitude format.infinity) with below | above
  · rw [abs_of_nonneg (by linarith)] at close even
    -- Only the largest number can tie with the power of two after it, and it is odd.
    have largest : rung = format.infinity - 1 :=
      format.magnitude_strictMono.injective (le_antisymm rungBound (by linarith))
    have isEven := even (by omega) (by rw [largest] at close ⊢; linarith)
    have := infinity_even valid
    omega
  · rw [abs_of_neg (by linarith)] at close
    linarith

theorem overflowThreshold_le_of_closest (valid : format.Valid) {rung : Nat} (closest : format.IsClosestRung x rung)
    (overflows : format.infinity ≤ rung) : format.overflowThreshold ≤ x := by
  have some := infinity_pos valid
  have threshold := two_mul_overflowThreshold valid
  have topGap := format.magnitude_strictMono (show format.infinity - 1 < format.infinity by omega)
  have rungBound := format.magnitude_strictMono.monotone overflows
  -- Below the threshold the largest number is closer than any rung past it.
  by_contra before
  rw [not_le] at before
  obtain ⟨close, -⟩ := closest (format.infinity - 1)
  rw [abs_of_nonneg (show 0 ≤ format.magnitude rung - x by linarith)] at close
  rcases le_or_gt x (format.magnitude (format.infinity - 1)) with below | above
  · rw [abs_of_nonneg (by linarith)] at close
    linarith
  · rw [abs_of_neg (by linarith)] at close
    linarith

/-- The closest rung is a nearest number, or it stands for overflow. -/
theorem isNearest_of_closest (valid : format.Valid) {rung : Nat} (closest : format.IsClosestRung x rung)
    (nonneg : 0 ≤ x) :
    format.IsNearest x (format.assemble false (if rung < format.infinity then rung else format.infinity)) := by
  split
  next finite =>
    have value : (Number.finite false (format.significand rung) (format.minExponent + format.scale rung)).toReal =
        format.magnitude rung := rfl
    -- The negative of a rung is no closer than the rung itself.
    have reflected (other : Nat) : |format.magnitude other - x| ≤ |-format.magnitude other - x| := by
      have otherNonneg := format.magnitude_nonneg other
      rw [abs_of_nonpos (show -format.magnitude other - x ≤ 0 by linarith)]
      exact abs_le.mpr ⟨by linarith, by linarith⟩
    rw [assemble_finite finite]
    refine .finite false _ _ ?_ ?_ ?_
    · rw [abs_of_nonneg nonneg]
      exact lt_overflowThreshold_of_closest valid closest finite
    · intro other mem
      rw [value]
      obtain ⟨pattern, -, same | same⟩ := mem_finiteValues.mp mem
      · rw [same]
        exact (closest pattern).1
      · rw [same]
        exact (closest pattern).1.trans (reflected pattern)
    · intro other mem differs tie
      rw [value] at differs tie
      rw [significand_mod_two valid]
      obtain ⟨pattern, -, same | same⟩ := mem_finiteValues.mp mem
      · rw [same] at differs tie
        exact (closest pattern).2 (fun samePattern => differs (by rw [samePattern])) tie
      · rw [same] at differs tie
        -- A rung ties with its own negative only at zero, and then they are one value.
        rcases eq_or_ne pattern rung with samePattern | differ
        · have rungNonneg := format.magnitude_nonneg rung
          have toZero := (closest 0).1
          rw [samePattern, abs_of_nonpos (show -format.magnitude rung - x ≤ 0 by linarith)] at tie
          rw [← tie, magnitude_zero, zero_sub, abs_neg, abs_of_nonneg nonneg] at toZero
          exact absurd (by rw [samePattern]; linarith) differs
        · exact (closest pattern).2 differ (le_antisymm ((reflected pattern).trans tie.le) (closest pattern).1)
  next overflows =>
    rw [assemble_infinity]
    exact .positiveInfinity (overflowThreshold_le_of_closest valid closest (not_lt.mp overflows))

/-! The mode chooses. -/

theorem roundMagnitude_eq (mode : RoundingMode) (negative : Bool) (magnitude : Magnitude) :
    format.roundMagnitude mode negative magnitude =
      let rung := if mode.roundsUp negative (magnitude.kept (magnitude.quantum format))
          (magnitude.remainder (magnitude.quantum format)) then magnitude.lowerPattern format + 1
        else magnitude.lowerPattern format
      if rung < format.infinity then rung else format.overflow mode negative := by
  cases up : mode.roundsUp negative (magnitude.kept (magnitude.quantum format))
      (magnitude.remainder (magnitude.quantum format)) with
  | false => simp only [roundMagnitude, Magnitude.lowerPattern, up, Bool.false_eq_true, if_false]
  | true => simp only [roundMagnitude, Magnitude.lowerPattern, up, if_true, add_assoc]

theorem roundMagnitude_true (mode : RoundingMode) (magnitude : Magnitude) :
    format.roundMagnitude mode true magnitude = format.roundMagnitude mode.mirror false magnitude := by
  have sameStep (kept : Nat) (remainder : Remainder) :
      mode.roundsUp true kept remainder = mode.mirror.roundsUp false kept remainder := by
    cases mode <;> cases remainder <;> rfl
  have sameOverflow : format.overflow mode true = format.overflow mode.mirror false := by
    cases mode <;> rfl
  rw [roundMagnitude, roundMagnitude]
  simp only [sameStep, sameOverflow]

theorem roundMagnitude_le (mode : RoundingMode) (negative : Bool) (magnitude : Magnitude) :
    format.roundMagnitude mode negative magnitude ≤ format.infinity := by
  rw [roundMagnitude_eq]
  dsimp only
  generalize (if mode.roundsUp negative _ _ then _ else _ : Nat) = rung
  split
  next finite => exact finite.le
  next =>
    unfold overflow
    split
    · exact le_rfl
    · exact le_rfl
    · exact le_rfl
    · exact Nat.sub_le _ _
    · exact Nat.sub_le _ _
    · exact Nat.sub_le _ _

theorem roundMagnitude_zero (valid : format.Valid) (mode : RoundingMode) (negative : Bool) (exponent : Int) :
    format.roundMagnitude mode negative ⟨0, exponent, false⟩ = 0 := by
  have quantum : (⟨0, exponent, false⟩ : Magnitude).quantum format = format.minExponent := if_pos rfl
  have kept (quantum : Int) : (⟨0, exponent, false⟩ : Magnitude).kept quantum = 0 := by
    unfold Magnitude.kept
    split
    · exact Nat.zero_shiftLeft _
    · exact Nat.zero_shiftRight _
  have remainder (quantum : Int) : (⟨0, exponent, false⟩ : Magnitude).remainder quantum = .zero := by
    unfold Magnitude.remainder
    split
    · rfl
    · simp only [Nat.zero_mod, if_true, Bool.false_eq_true, if_false]
  simp only [roundMagnitude, quantum, kept, remainder, RoundingMode.roundsUp, sub_self, Int.toNat_zero,
    Nat.zero_shiftLeft, Bool.false_eq_true, if_false, Nat.add_zero, if_pos (infinity_pos valid)]

variable {magnitude : Magnitude}

theorem roundMagnitude_false_isRounded (valid : format.Valid) (mode : RoundingMode) (holds : magnitude.Holds x)
    (guarded : magnitude.inexact = true →
      magnitude.significand ≠ 0 ∧ format.fractionBits < magnitude.significand.log2) (nonneg : 0 ≤ x) :
    format.IsRounded mode x (format.assemble false (format.roundMagnitude mode false magnitude)) := by
  have splits := Magnitude.splits_neighbours holds guarded
  have parity := Magnitude.lowerPattern_mod_two valid magnitude
  rw [roundMagnitude_eq]
  dsimp only
  generalize magnitude.remainder (magnitude.quantum format) = remainder at *
  generalize magnitude.kept (magnitude.quantum format) = kept at *
  generalize magnitude.lowerPattern format = lower at *
  obtain ⟨least, most⟩ := splits.between (format.magnitude_strictMono (Nat.lt_succ_self lower))
  cases mode with
  | nearest => exact isNearest_of_closest valid (isClosestRung_of_splits kept parity splits) nonneg
  | towardNegInf =>
    have stay : RoundingMode.towardNegInf.roundsUp false kept remainder = false := by cases remainder <;> rfl
    rw [stay]
    exact isBelow_of_between valid least most
  | towardZero =>
    have stay : RoundingMode.towardZero.roundsUp false kept remainder = false := by cases remainder <;> rfl
    rw [stay]
    have below := isBelow_of_between valid least most
    refine ⟨fun _ => below, fun nonpos => ?_⟩
    rw [le_antisymm nonpos nonneg] at below ⊢
    exact below.isAbove_of_zero valid
  | towardPosInf =>
    obtain ⟨bound, isLeast⟩ := isLeastRung_of_splits kept splits
    exact isAbove_of_least bound isLeast nonneg

theorem roundMagnitude_isRounded (valid : format.Valid) (mode : RoundingMode) (holds : magnitude.Holds x)
    (guarded : magnitude.inexact = true →
      magnitude.significand ≠ 0 ∧ format.fractionBits < magnitude.significand.log2) (nonneg : 0 ≤ x)
    (negative : Bool) :
    format.IsRounded mode (if negative then -x else x)
      (format.decode (format.signed negative (format.roundMagnitude mode negative magnitude))) := by
  rw [decode_signed ((roundMagnitude_le _ _ _).trans_lt format.infinity_lt_signBit)]
  cases negative with
  | false => exact roundMagnitude_false_isRounded valid mode holds guarded nonneg
  | true =>
    have reflected := (roundMagnitude_false_isRounded valid mode.mirror holds guarded nonneg).negate
    rw [negate_assemble, ← roundMagnitude_true] at reflected
    exact reflected

end BinaryFormat

end PowerFpu
