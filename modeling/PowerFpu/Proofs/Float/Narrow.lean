import PowerFpu.Proofs.Float.DoubleRounding

/-! Results of arithmetic on singles keep away from the midpoints of the singles.

Products, and sums of singles of similar size, are doubles. A single far below another
cannot take it to a midpoint. A quotient or a root that is not itself a midpoint differs from
it by at least one unit of a common power of two, which its divisor or the square leaves large. -/

set_option autoImplicit false

namespace PowerFpu

/-- Different multiples of powers of two are at least the smaller power apart. -/
theorem zpow_min_le_abs_sub {first second : ℤ} {s t : ℤ} (differ : (first : ℝ) * 2 ^ s ≠ second * 2 ^ t) :
    (2 : ℝ) ^ min s t ≤ |(first : ℝ) * 2 ^ s - second * 2 ^ t| := by
  obtain ⟨distance, isDistance⟩ := Int.eq_ofNat_of_zero_le (sub_nonneg.mpr (min_le_left s t))
  obtain ⟨distanceSecond, isDistanceSecond⟩ := Int.eq_ofNat_of_zero_le (sub_nonneg.mpr (min_le_right s t))
  have scale (exponent : ℤ) (shift : Nat) (apart : exponent - min s t = shift) (multiple : ℤ) :
      (multiple : ℝ) * 2 ^ exponent = (multiple * 2 ^ shift : ℤ) * 2 ^ min s t := by
    rw [eq_add_of_sub_eq apart, zpow_add₀ two_ne_zero, zpow_natCast, ← mul_assoc, Int.cast_mul, Int.cast_pow,
      Int.cast_ofNat]
  rw [scale s distance isDistance, scale t distanceSecond isDistanceSecond] at differ ⊢
  rw [← sub_mul, ← Int.cast_sub, abs_mul_zpow]
  refine le_mul_of_one_le_left (zpow_pos two_pos _).le ?_
  have nonzero : first * 2 ^ distance - second * 2 ^ distanceSecond ≠ 0 := by
    intro zero
    exact differ (by rw [sub_eq_zero.mp zero])
  exact_mod_cast Int.one_le_abs nonzero

theorem mul_zpow_lt_min {first second : ℤ} {p q : Nat} (bits : first < 2 ^ p) (bitsSecond : second < 2 ^ q)
    (s t : ℤ) :
    (first : ℝ) * 2 ^ s < 2 ^ p * 2 ^ min s t ∨ (second : ℝ) * 2 ^ t < 2 ^ q * 2 ^ min s t := by
  rcases le_total s t with below | above
  · rw [min_eq_left below]
    exact .inl (mul_lt_mul_of_pos_right (by exact_mod_cast bits) (zpow_pos two_pos _))
  · rw [min_eq_right above]
    exact .inr (mul_lt_mul_of_pos_right (by exact_mod_cast bitsSecond) (zpow_pos two_pos _))

/-- A multiple with few bits is tiny next to one with many bits of a much larger power. -/
theorem tiny_of_far {n k : ℤ} {distance : Nat} (leading : 2 ^ 23 ≤ |n|) (few : |k| < 2 ^ 24) (far : 28 < distance)
    (t : ℤ) : 2 ^ 28 * |(k : ℝ) * 2 ^ t| ≤ |(n : ℝ) * 2 ^ (distance + t)| := by
  have units : (0 : ℝ) < 2 ^ t := zpow_pos two_pos t
  have shifted : (2 : ℝ) ^ 29 * 2 ^ t ≤ 2 ^ (distance + t) := by
    rw [zpow_add₀ two_ne_zero, zpow_natCast]
    exact mul_le_mul_of_nonneg_right (pow_le_pow_right₀ one_le_two far) units.le
  have fewBits : ((|k| : ℤ) : ℝ) ≤ 2 ^ 24 := by exact_mod_cast few.le
  have manyBits : (2 : ℝ) ^ 23 ≤ (|n| : ℤ) := by exact_mod_cast leading
  calc 2 ^ 28 * |(k : ℝ) * 2 ^ t|
    _ = 2 ^ 28 * ((|k| : ℤ) * 2 ^ t) := by rw [abs_mul_zpow]
    _ ≤ 2 ^ 28 * (2 ^ 24 * 2 ^ t) := by gcongr
    _ = 2 ^ 23 * (2 ^ 29 * 2 ^ t) := by ring
    _ ≤ (|n| : ℤ) * 2 ^ (distance + t) := mul_le_mul manyBits shifted (by positivity) (by positivity)
    _ = |(n : ℝ) * 2 ^ (distance + t)| := (abs_mul_zpow n _).symm

theorem abs_shift_add_lt {n k : ℤ} {distance : Nat} (bits : |n| < 2 ^ 24) (bitsSecond : |k| < 2 ^ 24)
    (close : distance ≤ 28) : |n * 2 ^ distance + k| < 2 ^ 53 := by
  calc |n * 2 ^ distance + k|
    _ ≤ |n * 2 ^ distance| + |k| := abs_add_le _ _
    _ = |n| * 2 ^ distance + |k| := by rw [abs_mul, abs_of_pos (by positivity : (0 : ℤ) < 2 ^ distance)]
    _ ≤ 2 ^ 24 * 2 ^ 28 + 2 ^ 24 :=
      add_le_add (mul_le_mul bits.le (pow_le_pow_right₀ (by norm_num) close) (by positivity) (by norm_num))
        bitsSecond.le
    _ < 2 ^ 53 := by norm_num

/-! When a number keeps away from a midpoint. The unit is one by which the two differ in some
multiple or square, and of them one has few bits in that unit. -/

section Far
variable {x middle unit : ℝ} (positive : 0 < middle)
include positive

theorem far_of_multiples {factor : ℝ} (nonneg : 0 ≤ x) (atLeastOne : 1 ≤ factor) (fewBits : factor < 2 ^ 24)
    (apart : unit ≤ |factor * middle - factor * x|) (few : middle < 2 ^ 25 * unit ∨ factor * x < 2 ^ 24 * unit) :
    middle < 2 ^ 53 * |middle - x| := by
  by_contra close
  rw [not_lt] at close
  obtain ⟨-, most⟩ := abs_le.mp (show |middle - x| ≤ middle / 2 by linarith)
  have bits : middle < 2 ^ 25 * unit := by
    rcases few with few | few
    · exact few
    · have scaled : x ≤ factor * x := le_mul_of_one_le_left nonneg atLeastOne
      linarith
  rw [← mul_sub, abs_mul, abs_of_pos (by linarith : 0 < factor)] at apart
  have error : factor * |middle - x| ≤ 2 ^ 24 * |middle - x| := mul_le_mul_of_nonneg_right fewBits.le (abs_nonneg _)
  linarith

theorem far_of_squares (apart : unit ≤ |middle * middle - x * x|)
    (few : middle * middle < 2 ^ 50 * unit ∨ x * x < 2 ^ 48 * unit) : middle < 2 ^ 53 * |middle - x| := by
  by_contra close
  rw [not_lt] at close
  obtain ⟨least, most⟩ := abs_le.mp (show |middle - x| ≤ middle / 2 by linarith)
  have bits : middle * middle < 2 ^ 50 * unit := by
    rcases few with few | few
    · exact few
    · have scaled : middle * middle ≤ (2 * x) * (2 * x) := mul_self_le_mul_self positive.le (by linarith)
      linarith
  have factors : middle * middle - x * x = (middle - x) * (middle + x) := by ring
  rw [factors, abs_mul, abs_of_pos (by linarith : 0 < middle + x)] at apart
  have error : 2 ^ 53 * (|middle - x| * (middle + x)) ≤ 3 * (middle * middle) := by
    calc 2 ^ 53 * (|middle - x| * (middle + x))
      _ = 2 ^ 53 * |middle - x| * (middle + x) := (mul_assoc _ _ _).symm
      _ ≤ middle * (3 * middle) := mul_le_mul close (by linarith) (by linarith) positive.le
      _ = 3 * (middle * middle) := by ring
  linarith [mul_pos positive positive]

theorem far_of_tiny {small half : ℝ} (apart : half ≤ |(|x|) - middle|) (narrow : middle < 2 ^ 25 * half)
    (tiny : 2 ^ 28 * |small| ≤ |x|) : middle < 2 ^ 53 * |middle - (|x + small|)| := by
  by_contra close
  rw [not_lt] at close
  obtain ⟨least, -⟩ := abs_le.mp (le_refl |middle - (|x + small|)|)
  have moved : |(|x|) - (|x + small|)| ≤ |small| := by
    have bound := abs_abs_sub_abs_le x (x + small)
    rwa [sub_add_cancel_left, abs_neg] at bound
  obtain ⟨-, most⟩ := abs_le.mp moved
  have detour := abs_sub_le |x| |x + small| middle
  rw [abs_sub_comm (|x + small|) middle] at detour
  linarith

end Far

namespace BinaryFormat

theorem exists_multiple_of_mem_single {value : ℝ} (mem : value ∈ single.finiteValues) :
    ∃ multiple exponent : ℤ, value = multiple * 2 ^ exponent ∧ |multiple| < 2 ^ 24 ∧ -149 ≤ exponent ∧
      exponent < 106 ∧ (exponent = -149 ∨ 2 ^ 23 ≤ |multiple|) :=
  exists_multiple_of_mem mem

theorem settled_zero : Settled |0| := by
  rw [abs_zero]
  exact ⟨by positivity, .inl (zero_mem_finiteValues double_valid)⟩

theorem settled_of_multiple {multiple exponent : ℤ} (bits : |multiple| < 2 ^ 53) (coarse : -1074 ≤ exponent)
    (bounded : |(multiple : ℝ) * 2 ^ exponent| ≤ 2 ^ 512) : Settled |(multiple : ℝ) * 2 ^ exponent| := by
  have below : (2 : ℝ) ^ 512 < double.magnitude double.infinity := by
    rw [double_magnitude_infinity]
    exact pow_lt_pow_right₀ one_lt_two (by norm_num)
  exact ⟨bounded, .inl (abs_mem_finiteValues.mpr (multiple_mem_finiteValues bits coarse (bounded.trans_lt below)))⟩

theorem abs_lt_of_mem_single {value : ℝ} (mem : value ∈ single.finiteValues) : |value| < 2 ^ 128 := by
  have bound := abs_lt_of_mem_finiteValues mem
  rwa [single_magnitude_infinity] at bound

theorem exists_multiple_of_midpoint (pattern : Nat) :
    ∃ multiple exponent : ℤ, single.midpoint pattern = multiple * 2 ^ exponent ∧ 0 < multiple ∧
      multiple < 2 ^ 25 := by
  obtain ⟨-, bits, -⟩ := significand_bounds single pattern
  have width : (2 : Nat) ^ (single.fractionBits + 1) = 2 ^ 24 := rfl
  refine ⟨(2 * single.significand pattern + 1 : Nat), single.minExponent + single.scale pattern - 1, ?_, ?_, ?_⟩
  · rw [midpoint, dyadic, Int.cast_natCast]
  · omega
  · omega

section Results
variable {a b : ℝ} (memA : a ∈ single.finiteValues) (memB : b ∈ single.finiteValues)
include memA

theorem settled_sqrt (nonneg : 0 ≤ a) : Settled |√a| := by
  obtain ⟨n, s, isA, bitsA, -, -, -⟩ := exists_multiple_of_mem_single memA
  have small := abs_lt_of_mem_single memA
  rw [abs_of_nonneg nonneg] at small
  rw [abs_of_nonneg (Real.sqrt_nonneg a)]
  refine ⟨(Real.sqrt_le_left (by positivity)).mpr ?_, .inr ?_⟩
  · calc a
      _ ≤ 2 ^ 128 := small.le
      _ ≤ 2 ^ (512 * 2) := pow_le_pow_right₀ one_le_two (by norm_num)
      _ = (2 ^ 512) ^ 2 := pow_mul 2 512 2
  · -- The root may be irrational; its square and that of a midpoint are multiples.
    intro pattern finite differs
    obtain ⟨m, t, isMiddle, positive, bitsM⟩ := exists_multiple_of_midpoint pattern
    have square : single.midpoint pattern * single.midpoint pattern = (m * m : ℤ) * 2 ^ (2 * t) := by
      rw [isMiddle, two_mul, zpow_add₀ two_ne_zero, Int.cast_mul]
      ring
    have squares : ((m * m : ℤ) : ℝ) * 2 ^ (2 * t) ≠ n * 2 ^ s := by
      rw [← isA, ← square, ← Real.mul_self_sqrt nonneg]
      exact fun same => differs ((mul_self_inj (single.midpoint_pos pattern).le (Real.sqrt_nonneg a)).mp same).symm
    have apart : (2 : ℝ) ^ min (2 * t) s ≤
        |single.midpoint pattern * single.midpoint pattern - √a * √a| := by
      rw [square, Real.mul_self_sqrt nonneg, isA]
      exact zpow_min_le_abs_sub squares
    refine far_of_squares (single.midpoint_pos pattern) apart ?_
    have squareBits : m * m < 2 ^ 50 := by nlinarith
    have bits : n < 2 ^ 48 := by linarith [le_abs_self n]
    rw [square, Real.mul_self_sqrt nonneg, isA]
    exact mul_zpow_lt_min squareBits bits (2 * t) s

include memB

theorem settled_mul : Settled |a * b| := by
  obtain ⟨n, s, isA, bitsA, leastS, -, -⟩ := exists_multiple_of_mem_single memA
  obtain ⟨k, t, isB, bitsB, leastT, -, -⟩ := exists_multiple_of_mem_single memB
  have product : a * b = (n * k : ℤ) * 2 ^ (s + t) := by
    rw [isA, isB, zpow_add₀ two_ne_zero, Int.cast_mul]
    ring
  have bounded : |a * b| ≤ 2 ^ 512 := by
    rw [abs_mul]
    calc |a| * |b|
      _ ≤ 2 ^ 128 * 2 ^ 128 :=
        mul_le_mul (abs_lt_of_mem_single memA).le (abs_lt_of_mem_single memB).le (abs_nonneg b) (by positivity)
      _ = 2 ^ 256 := by rw [← pow_add]
      _ ≤ 2 ^ 512 := pow_le_pow_right₀ one_le_two (by norm_num)
  rw [product] at bounded ⊢
  refine settled_of_multiple ?_ (by omega) bounded
  calc |n * k|
    _ = |n| * |k| := abs_mul n k
    _ ≤ 2 ^ 24 * 2 ^ 24 := mul_le_mul bitsA.le bitsB.le (abs_nonneg k) (by norm_num)
    _ < 2 ^ 53 := by norm_num

theorem settled_div (nonzero : b ≠ 0) : Settled |a / b| := by
  obtain ⟨n, s, isA, bitsA, -, mostS, -⟩ := exists_multiple_of_mem_single memA
  obtain ⟨k, t, isB, bitsB, leastT, -, -⟩ := exists_multiple_of_mem_single memB
  have divisor : k ≠ 0 := by
    rintro rfl
    exact nonzero (by rw [isB, Int.cast_zero, zero_mul])
  have units : (0 : ℝ) < 2 ^ t := zpow_pos two_pos t
  have factorBits : |(k : ℝ)| < 2 ^ 24 := by exact_mod_cast bitsB
  have factorOne : 1 ≤ |(k : ℝ)| := by exact_mod_cast Int.one_le_abs divisor
  -- The divisor times the quotient is a multiple of a power of two, as it is for a midpoint.
  have multiple : |(k : ℝ)| * |a / b| = (|n| : ℤ) * 2 ^ (s - t) := by
    rw [isA, isB, abs_div, abs_mul_zpow, abs_mul_zpow, zpow_sub₀ two_ne_zero, Int.cast_abs, Int.cast_abs]
    field_simp
  have dividend : ((|n| : ℤ) : ℝ) < 2 ^ 24 := by exact_mod_cast bitsA
  refine ⟨?_, .inr ?_⟩
  · calc |a / b|
      _ ≤ |(k : ℝ)| * |a / b| := le_mul_of_one_le_left (abs_nonneg _) factorOne
      _ = (|n| : ℤ) * 2 ^ (s - t) := multiple
      _ ≤ 2 ^ 24 * 2 ^ (254 : ℤ) :=
        mul_le_mul dividend.le (zpow_le_zpow_right₀ one_le_two (by omega)) (zpow_pos two_pos _).le (by positivity)
      _ = 2 ^ (24 + 254) := by rw [pow_add]; rfl
      _ ≤ 2 ^ 512 := pow_le_pow_right₀ one_le_two (by norm_num)
  · intro pattern finite differs
    obtain ⟨m, j, isMiddle, positive, bitsM⟩ := exists_multiple_of_midpoint pattern
    have scaled : |(k : ℝ)| * single.midpoint pattern = (|k| * m : ℤ) * 2 ^ j := by
      rw [isMiddle, Int.cast_mul, Int.cast_abs, mul_assoc]
    have multiples : ((|k| * m : ℤ) : ℝ) * 2 ^ j ≠ (|n| : ℤ) * 2 ^ (s - t) := by
      rw [← scaled, ← multiple]
      exact fun same => differs (mul_left_cancel₀ (by linarith : 0 < |(k : ℝ)|).ne' same).symm
    have apart : (2 : ℝ) ^ min j (s - t) ≤ |(|(k : ℝ)|) * single.midpoint pattern - |(k : ℝ)| * (|a / b|)| := by
      rw [scaled, multiple]
      exact zpow_min_le_abs_sub multiples
    refine far_of_multiples (single.midpoint_pos pattern) (abs_nonneg _) factorOne factorBits apart ?_
    rw [isMiddle, multiple]
    exact mul_zpow_lt_min bitsM bitsA j (s - t)

/-- A sum whose smaller exponent is not much smaller has at most 53 bits. Otherwise the
smaller number is too small to take the larger one, which is a rung, to a midpoint. -/
theorem settled_add_of_le {n k s t : ℤ} (isA : a = n * 2 ^ s) (isB : b = k * 2 ^ t) (bitsA : |n| < 2 ^ 24)
    (bitsB : |k| < 2 ^ 24) (least : -149 ≤ t) (ordered : t ≤ s) (normal : s = -149 ∨ 2 ^ 23 ≤ |n|) :
    Settled |a + b| := by
  have bounded : |a + b| ≤ 2 ^ 512 := by
    calc |a + b|
      _ ≤ |a| + |b| := abs_add_le a b
      _ ≤ 2 ^ 128 + 2 ^ 128 := add_le_add (abs_lt_of_mem_single memA).le (abs_lt_of_mem_single memB).le
      _ = 2 ^ 129 := by ring
      _ ≤ 2 ^ 512 := pow_le_pow_right₀ one_le_two (by norm_num)
  obtain ⟨distance, isDistance⟩ := Int.eq_ofNat_of_zero_le (sub_nonneg.mpr ordered)
  obtain rfl : s = distance + t := by omega
  rcases Nat.lt_or_ge 28 distance with far | close
  · -- Here the larger number is normal: only the smaller can have the least exponent.
    have small : 2 ^ 28 * |b| ≤ |a| := by
      rw [isA, isB]
      exact tiny_of_far (normal.resolve_left (by omega)) bitsB far t
    refine ⟨bounded, .inr ?_⟩
    intro pattern finite differs
    obtain ⟨rung, -, isRung⟩ := exists_abs_rung memA
    have halfGap := single.half_gap_le_abs_sub pattern rung
    rw [isRung] at halfGap
    exact far_of_tiny (single.midpoint_pos pattern) halfGap (single.midpoint_lt_half_gap pattern) small
  · have sum : a + b = (n * 2 ^ distance + k : ℤ) * 2 ^ t := by
      rw [isA, isB, zpow_add₀ two_ne_zero, zpow_natCast, Int.cast_add, Int.cast_mul, Int.cast_pow, Int.cast_ofNat]
      ring
    rw [sum] at bounded ⊢
    exact settled_of_multiple (abs_shift_add_lt bitsA bitsB close) (by omega) bounded

theorem settled_add : Settled |a + b| := by
  obtain ⟨n, s, isA, bitsA, leastS, -, normalA⟩ := exists_multiple_of_mem_single memA
  obtain ⟨k, t, isB, bitsB, leastT, -, normalB⟩ := exists_multiple_of_mem_single memB
  rcases le_total t s with below | above
  · exact settled_add_of_le memA memB isA isB bitsA bitsB leastT below normalA
  · rw [add_comm]
    exact settled_add_of_le memB memA isB isA bitsB bitsA leastS above normalB

end Results

end BinaryFormat

/-! Doubles that hold singles, and the double that single precision leaves.

Widening is exact, and narrowing undoes it in every mode. Narrowing a double that was
already rounded leaves the single that rounding once would have, when the real number
behind it is settled. -/

open BinaryFormat (double single)

theorem Number.isFinite_of_toEReal {x : Number} {value : ℝ} (isNumber : x ≠ .nan) (same : x.toEReal = value) :
    x.isFinite = true := by
  cases x with
  | nan => exact absurd rfl isNumber
  | finite negative significand exponent => rfl
  | infinity negative =>
    cases negative with
    | false => exact absurd same.symm (EReal.coe_ne_top value)
    | true => exact absurd same.symm (EReal.coe_ne_bot value)

namespace Single

/-- The pattern is the real number rounded once to single, with the sign of the result. -/
def RoundsTo (mode : RoundingMode) (x : ℝ) (negative : Bool) (bits : Word) : Prop :=
  single.IsRounded mode x (value bits) ∧ bits.msb = negative

theorem isWidth : single.exponentBits + single.fractionBits + 1 = 32 := rfl

theorem roundsTo_ofNat {mode : RoundingMode} {x : ℝ} {negative : Bool} {magnitude : Magnitude}
    (rounded : single.IsRounded mode x
      (single.decode (single.signed negative (single.roundMagnitude mode negative magnitude)))) :
    RoundsTo mode x negative (.ofNat 32 (single.signed negative (single.roundMagnitude mode negative magnitude))) := by
  have bound : single.roundMagnitude mode negative magnitude < single.signBit :=
    (BinaryFormat.roundMagnitude_le _ _ _).trans_lt single.infinity_lt_signBit
  refine ⟨?_, BinaryFormat.msb_ofNat_signed isWidth bound negative⟩
  rw [value, BinaryFormat.toNat_ofNat_signed isWidth bound]
  exact rounded

theorem RoundsTo.unique {mode : RoundingMode} {x : ℝ} {negative : Bool} {first second : Word}
    (rounds : RoundsTo mode x negative first) (roundsSecond : RoundsTo mode x negative second) : first = second :=
  rounds.1.unique_pattern isWidth (rounds.2.trans roundsSecond.2.symm) BinaryFormat.single_valid roundsSecond.1

end Single

namespace Double

/-- The double has the value and the sign of a single. -/
structure Represents (bits : Doubleword) (narrow : Word) : Prop where
  isNumber : value bits ≠ .nan
  same : (value bits).toEReal = (Single.value narrow).toEReal
  sign : bits.msb = narrow.msb

def IsSingle (bits : Doubleword) : Prop :=
  ∃ narrow, Single.value narrow ≠ .nan ∧ Represents bits narrow

theorem Represents.unique {first second : Doubleword} {narrow : Word} (represents : Represents first narrow)
    (representsSecond : Represents second narrow) : first = second :=
  BinaryFormat.eq_of_toEReal isWidth (represents.sign.trans representsSecond.sign.symm) represents.isNumber
    representsSecond.isNumber (represents.same.trans representsSecond.same.symm)

theorem IsSingle.mem_finiteValues {bits : Doubleword} (isSingle : IsSingle bits)
    (isFinite : (value bits).isFinite = true) : (value bits).toReal ∈ single.finiteValues := by
  obtain ⟨narrow, isNumber, represents⟩ := isSingle
  have same := represents.same
  rw [Number.toEReal_of_isFinite isFinite] at same
  have isFiniteNarrow := Number.isFinite_of_toEReal isNumber same.symm
  rw [Number.toEReal_of_isFinite isFiniteNarrow] at same
  exact ⟨narrow.toNat, isFiniteNarrow, (EReal.coe_eq_coe_iff.mp same).symm⟩

theorem ofSingle_represents {narrow : Word} (isNumber : Single.value narrow ≠ .nan) :
    Represents (ofSingle narrow) narrow := by
  have sign := BinaryFormat.msb_eq_negative Single.isWidth isNumber
  change narrow.msb = (Single.value narrow).negative at sign
  cases isValue : Single.value narrow with
  | nan => exact absurd isValue isNumber
  | infinity negative =>
    have widened : value (ofSingle narrow) = .infinity negative := by
      rw [ofSingle, isValue, value_ofNumber_infinity]
    have isNumberWidened : value (ofSingle narrow) ≠ .nan := by
      rw [widened]
      exact Number.noConfusion
    have signWidened : (ofSingle narrow).msb = (value (ofSingle narrow)).negative :=
      BinaryFormat.msb_eq_negative isWidth isNumberWidened
    rw [widened] at signWidened
    rw [isValue] at sign
    exact ⟨isNumberWidened, by rw [widened, isValue], signWidened.trans sign.symm⟩
  | finite negative significand exponent =>
    have isFinite : (Single.value narrow).isFinite = true := by
      rw [isValue]
      rfl
    -- A single is a double, so rounding to double leaves it as it is.
    have mem : (Single.value narrow).toReal ∈ double.finiteValues :=
      BinaryFormat.finiteValues_nested ⟨narrow.toNat, isFinite, rfl⟩
    obtain ⟨rounded, signed⟩ := ofNumber_roundsTo .nearest isFinite
    refine ⟨rounded.ne_nan, ?_, signed.trans sign.symm⟩
    rw [Number.toEReal_of_isFinite isFinite]
    exact rounded.eq_of_mem BinaryFormat.double_valid mem

variable (mode : RoundingMode) {bits : Doubleword}

theorem toSingle_of_nan (isNan : value bits = .nan) : toSingle mode bits = 0x7FC00000 := by
  rw [toSingle, isNan, BinaryFormat.round]
  decide

theorem toSingle_of_infinity {negative : Bool} (isInfinity : value bits = .infinity negative) :
    Single.value (toSingle mode bits) = .infinity negative ∧ (toSingle mode bits).msb = negative := by
  rw [toSingle, isInfinity, BinaryFormat.round, Single.value,
    BinaryFormat.decode_ofNat_signed Single.isWidth single.infinity_lt_signBit, BinaryFormat.assemble_infinity]
  exact ⟨rfl, BinaryFormat.msb_ofNat_signed Single.isWidth single.infinity_lt_signBit negative⟩

theorem toSingle_roundsTo (isFinite : (value bits).isFinite = true) :
    Single.RoundsTo mode (value bits).toReal bits.msb (toSingle mode bits) := by
  rw [BinaryFormat.msb_eq_negative isWidth (Number.ne_nan_of_isFinite isFinite), toSingle]
  change Single.RoundsTo mode (value bits).toReal (value bits).negative _
  generalize value bits = x at isFinite
  cases x with
  | nan | infinity negative => cases isFinite
  | finite negative significand exponent =>
    have holds : (⟨significand, exponent, false⟩ : Magnitude).Holds (dyadic significand exponent) := rfl
    have rounds := BinaryFormat.roundMagnitude_isRounded BinaryFormat.single_valid mode holds
      (fun inexact => by cases inexact) (dyadic_nonneg _ _) negative
    cases negative with
    | false => exact Single.roundsTo_ofNat rounds
    | true => exact Single.roundsTo_ofNat rounds

theorem Represents.toSingle_eq {narrow : Word} (isNumber : Single.value narrow ≠ .nan)
    (represents : Represents bits narrow) : toSingle mode bits = narrow := by
  have isSingle : IsSingle bits := ⟨narrow, isNumber, represents⟩
  have unique (isNumberBack : Single.value (toSingle mode bits) ≠ .nan)
      (sign : (toSingle mode bits).msb = bits.msb)
      (same : (Single.value (toSingle mode bits)).toEReal = (value bits).toEReal) : toSingle mode bits = narrow :=
    BinaryFormat.eq_of_toEReal Single.isWidth (sign.trans represents.sign) isNumberBack isNumber
      (same.trans represents.same)
  cases isValue : value bits with
  | nan => exact absurd isValue represents.isNumber
  | infinity negative =>
    obtain ⟨back, sign⟩ := toSingle_of_infinity mode isValue
    have negated := BinaryFormat.msb_eq_negative isWidth represents.isNumber
    change bits.msb = (value bits).negative at negated
    rw [isValue] at negated
    apply unique
    · rw [back]
      exact Number.noConfusion
    · exact sign.trans negated.symm
    · rw [back, isValue]
  | finite negative significand exponent =>
    have isFinite : (value bits).isFinite = true := by
      rw [isValue]
      rfl
    obtain ⟨rounded, sign⟩ := toSingle_roundsTo mode isFinite
    apply unique rounded.ne_nan sign
    rw [Number.toEReal_of_isFinite isFinite]
    -- A value that single precision has is not moved by rounding to single.
    exact rounded.eq_of_mem BinaryFormat.single_valid (isSingle.mem_finiteValues isFinite)

theorem ofSingle_of_nan {narrow : Word} (isNan : Single.value narrow = .nan) : ofSingle narrow = defaultNan := by
  rw [ofSingle, isNan]
  rfl

theorem narrow_of_nan (isNan : value bits = .nan) : narrow mode bits = defaultNan := by
  apply ofSingle_of_nan
  rw [toSingle_of_nan mode isNan]
  decide

theorem value_narrow_of_infinity {negative : Bool} (isInfinity : value bits = .infinity negative) :
    value (narrow mode bits) = .infinity negative := by
  rw [narrow, ofSingle, (toSingle_of_infinity mode isInfinity).1, value_ofNumber_infinity]

/-- A settled number that was rounded to double narrows to the single that it rounds to. -/
theorem narrow_represents {mode : RoundingMode} {x : ℝ} {negative : Bool}
    (signed : x = if negative then -|x| else |x|) (settled : BinaryFormat.Settled |x|)
    (rounds : RoundsTo mode x negative bits) :
    Single.RoundsTo mode x negative (toSingle mode bits) ∧ Represents (narrow mode bits) (toSingle mode bits) := by
  obtain ⟨rounded, sign⟩ := rounds
  have isFinite := rounded.isFinite BinaryFormat.double_valid (BinaryFormat.two_pow_mem_double (by norm_num))
    settled.bounded
  have negated := BinaryFormat.msb_eq_negative isWidth rounded.ne_nan
  rw [sign] at negated
  change negative = (value bits).negative at negated
  have narrows : Single.RoundsTo mode x negative (toSingle mode bits) := by
    unfold toSingle
    cases isValue : value bits with
    | nan | infinity negative =>
      rw [isValue] at isFinite
      cases isFinite
    | finite signBit significand exponent =>
      rw [isValue] at negated rounded
      change negative = signBit at negated
      subst negated
      exact Single.roundsTo_ofNat (BinaryFormat.isRounded_narrowed signed settled rounded)
  exact ⟨narrows, ofSingle_represents narrows.1.ne_nan⟩

end Double

end PowerFpu
