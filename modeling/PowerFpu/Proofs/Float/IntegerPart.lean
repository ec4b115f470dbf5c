import PowerFpu.Proofs.Float.Representable

/-! The integer parts and the order of numbers are those of their real values. -/

set_option autoImplicit false

namespace PowerFpu

namespace Number

theorem floor_eq {x : Number} (isFinite : x.isFinite = true) : x.floor = ⌊x.toReal⌋ := by
  cases x with
  | nan | infinity negative => cases isFinite
  | finite negative significand exponent =>
    simp only [floor]
    split
    next nonneg =>
      have value := alignedSignificand_value negative significand nonneg
      rw [zpow_zero, mul_one] at value
      rw [← value, Int.floor_intCast]
    next below =>
      obtain ⟨shift, isShift⟩ := Int.eq_ofNat_of_zero_le (show 0 ≤ -exponent by omega)
      have exponents : exponent = -shift := by omega
      have value : (finite negative significand exponent).toReal =
          ((if negative then -(significand : ℤ) else significand : ℤ) : ℝ) / (2 ^ shift : Nat) := by
        rw [exponents]
        cases negative <;> simp [toReal, dyadic, div_eq_mul_inv]
      rw [value, Int.floor_div_natCast, Int.floor_intCast, isShift, Int.toNat_natCast, Int.shiftRight_eq_div_pow]

theorem ceil_eq {x : Number} (isFinite : x.isFinite = true) : x.ceil = ⌈x.toReal⌉ := by
  rw [ceil, floor_eq (isFinite_negate isFinite), toReal_negate, Int.floor_neg, neg_neg]

theorem trunc_eq {x : Number} (isFinite : x.isFinite = true) :
    x.trunc = if 0 ≤ x.toReal then ⌊x.toReal⌋ else ⌈x.toReal⌉ := by
  cases x with
  | nan | infinity negative => cases isFinite
  | finite negative significand exponent =>
    cases negative with
    | false =>
      rw [if_pos (show 0 ≤ (finite false significand exponent).toReal from dyadic_nonneg significand exponent)]
      change (finite false significand exponent).floor = _
      exact floor_eq rfl
    | true =>
      have truncates : (finite true significand exponent).trunc = ⌈(finite true significand exponent).toReal⌉ :=
        ceil_eq rfl
      rw [truncates]
      split
      next nonneg =>
        -- A negative zero is the only one that is not below zero.
        have zero := le_antisymm (neg_nonpos.mpr (dyadic_nonneg significand exponent)) nonneg
        change (finite true significand exponent).toReal = 0 at zero
        rw [zero, Int.ceil_zero, Int.floor_zero]
      next => rfl

theorem compare?_finite (negativeA : Bool) (m : Nat) (e : Int) (negativeB : Bool) (n : Nat) (f : Int) :
    ∃ first second : ℤ, (finite negativeA m e).compare? (finite negativeB n f) = some (compare first second) ∧
      ((finite negativeA m e).toReal < (finite negativeB n f).toReal ↔ first < second) ∧
      ((finite negativeB n f).toReal < (finite negativeA m e).toReal ↔ second < first) := by
  have positive : (0 : ℝ) < 2 ^ min e f := zpow_pos two_pos _
  have valueA := alignedSignificand_value negativeA m (min_le_left e f)
  have valueB := alignedSignificand_value negativeB n (min_le_right e f)
  refine ⟨_, _, rfl, ?_, ?_⟩
  · rw [← valueA, ← valueB, mul_lt_mul_iff_left₀ positive, Int.cast_lt]
  · rw [← valueA, ← valueB, mul_lt_mul_iff_left₀ positive, Int.cast_lt]

theorem compare?_iff {a b : Number} (isNumberA : a ≠ .nan) (isNumberB : b ≠ .nan) :
    (a.compare? b = some .lt ↔ a.toEReal < b.toEReal) ∧ (a.compare? b = some .gt ↔ b.toEReal < a.toEReal) := by
  cases a with
  | nan => exact absurd rfl isNumberA
  | infinity negativeA =>
    cases b with
    | nan => exact absurd rfl isNumberB
    | infinity negativeB | finite negativeB n f =>
      cases negativeA <;> cases negativeB <;> simp [compare?, toEReal]
  | finite negativeA m e =>
    cases b with
    | nan => exact absurd rfl isNumberB
    | infinity negativeB => cases negativeB <;> simp [compare?, toEReal]
    | finite negativeB n f =>
      obtain ⟨first, second, compares, less, greater⟩ := compare?_finite negativeA m e negativeB n f
      rw [compares, toEReal_of_isFinite rfl, toEReal_of_isFinite rfl, EReal.coe_lt_coe_iff, EReal.coe_lt_coe_iff,
        less, greater, Option.some_inj, Option.some_inj, compare_lt_iff_lt, compare_gt_iff_gt]
      exact ⟨Iff.rfl, Iff.rfl⟩

end Number

/-! The floor of a double plus a rounded half.

The sum is rounded, which could lift it to the next integer. It does so for the
predecessor of one half alone, and only in the modes that round the sum up. -/

open BinaryFormat (double)

namespace BinaryFormat

theorem multiple_mem_double {multiple exponent : ℤ} (bits : |multiple| < 2 ^ 53) (coarse : -1074 ≤ exponent)
    (fine : exponent ≤ 0) : (multiple : ℝ) * 2 ^ exponent ∈ double.finiteValues := by
  refine multiple_mem_finiteValues bits coarse ?_
  rw [double_magnitude_infinity, abs_mul_zpow]
  have nonneg : (0 : ℝ) ≤ (|multiple| : ℤ) := by exact_mod_cast abs_nonneg multiple
  calc ((|multiple| : ℤ) : ℝ) * 2 ^ exponent
    _ ≤ (|multiple| : ℤ) * 1 := mul_le_mul_of_nonneg_left (zpow_le_one_of_nonpos₀ one_le_two fine) nonneg
    _ < 2 ^ 53 := by
      rw [mul_one]
      exact_mod_cast bits
    _ ≤ 2 ^ 1024 := pow_le_pow_right₀ one_le_two (by norm_num)

/-- A multiple and the step to its next half integer, in units of which there are not many. -/
theorem bits_of_half_step {multiple n : ℤ} {shift : Nat} (bits : |multiple| < 2 ^ 53)
    (above : n * 2 ^ (shift + 1) < multiple) (below : multiple < n * 2 ^ (shift + 1) + 2 ^ shift)
    (away : 1 ≤ n ∨ n ≤ -1) : |multiple + 2 ^ shift| < 2 ^ 53 := by
  obtain ⟨least, most⟩ := abs_lt.mp bits
  have positive : (0 : ℤ) < 2 ^ shift := by positivity
  rw [pow_succ] at above below
  rcases away with positiveN | negativeN
  · have some : (2 : ℤ) ^ shift * 2 ≤ n * (2 ^ shift * 2) := le_mul_of_one_le_left (by positivity) positiveN
    have narrow : shift + 1 < 53 := (Nat.pow_lt_pow_iff_right (by norm_num)).mp (show 2 ^ (shift + 1) < 2 ^ 53 by
      zify
      rw [pow_succ]
      linarith)
    -- Both bounds are multiples of the unit, so the next multiple is still within the upper one.
    have whole : (2 : ℤ) ^ 53 = 2 ^ (53 - (shift + 1)) * (2 ^ shift * 2) := by
      rw [← pow_succ, ← pow_add, Nat.sub_add_cancel narrow.le]
    have next : n + 1 ≤ 2 ^ (53 - (shift + 1)) := by
      rw [whole] at most
      exact lt_of_mul_lt_mul_right (above.trans most) (by positivity)
    have within := mul_le_mul_of_nonneg_right next (show (0 : ℤ) ≤ 2 ^ shift * 2 by positivity)
    rw [← whole, add_mul, one_mul] at within
    exact abs_lt.mpr ⟨by linarith, by linarith⟩
  · have some := mul_le_mul_of_nonneg_right negativeN (show (0 : ℤ) ≤ 2 ^ shift * 2 by positivity)
    exact abs_lt.mpr ⟨by linarith, by linarith⟩

theorem exponent_neg_of_between {multiple exponent n : ℤ} (above : (n : ℝ) < multiple * 2 ^ exponent)
    (below : (multiple : ℝ) * 2 ^ exponent < n + 1 / 2) : exponent < 0 := by
  by_contra whole
  obtain ⟨power, rfl⟩ := Int.eq_ofNat_of_zero_le (not_lt.mp whole)
  have isInteger : (multiple : ℝ) * 2 ^ (power : ℤ) = (multiple * 2 ^ power : ℤ) := by
    rw [zpow_natCast]
    push_cast
    rfl
  rw [isInteger] at above below
  have next : ((n + 1 : ℤ) : ℝ) ≤ (multiple * 2 ^ power : ℤ) := Int.cast_le.mpr (Int.cast_lt.mp above)
  rw [Int.cast_add, Int.cast_one] at next
  linarith

/-- Past the integers next to zero the sum with a half is a double again, because it has
the exponent of the addend. -/
theorem add_half_mem {x : ℝ} (mem : x ∈ double.finiteValues) {n : ℤ} (above : n < x) (below : x < n + 1 / 2)
    (away : 1 ≤ n ∨ n ≤ -1) : x + 1 / 2 ∈ double.finiteValues := by
  obtain ⟨multiple, exponent, isX, bits, coarse, -, -⟩ := exists_multiple_of_mem mem
  have fractional : exponent < 0 := exponent_neg_of_between (isX ▸ above) (isX ▸ below)
  obtain ⟨shift, isShift⟩ := Int.eq_ofNat_of_zero_le (show 0 ≤ -exponent - 1 by omega)
  have half : (2 : ℝ) ^ shift * 2 ^ exponent = 1 / 2 := by
    have exponents : (shift : ℤ) + exponent = -1 := by omega
    rw [← zpow_natCast, ← zpow_add₀ two_ne_zero, exponents, zpow_neg_one, one_div]
  have unit : (2 : ℝ) ^ exponent * 2 ^ (shift + 1) = 1 := by
    rw [pow_succ]
    linarith
  have scaled : x * 2 ^ (shift + 1) = multiple := by
    rw [isX, mul_assoc, unit, mul_one]
  have lower : n * 2 ^ (shift + 1) < multiple := by
    have wide := mul_lt_mul_of_pos_right above (show (0 : ℝ) < 2 ^ (shift + 1) by positivity)
    rw [scaled] at wide
    exact_mod_cast wide
  have upper : multiple < n * 2 ^ (shift + 1) + 2 ^ shift := by
    have wide := mul_lt_mul_of_pos_right below (show (0 : ℝ) < 2 ^ (shift + 1) by positivity)
    have halves : (1 / 2 : ℝ) * 2 ^ (shift + 1) = 2 ^ shift := by
      rw [pow_succ]
      ring
    rw [scaled, add_mul, halves] at wide
    exact_mod_cast wide
  have sum : x + 1 / 2 = (multiple + 2 ^ shift : ℤ) * 2 ^ exponent := by
    rw [isX, ← half]
    push_cast
    ring
  rw [sum]
  exact multiple_mem_double (bits_of_half_step bits lower upper away) coarse fractional.le

/-- Below one half lies its predecessor, and below that the sum with a half rounds to less
than one. -/
theorem le_of_lt_half {x : ℝ} (mem : x ∈ double.finiteValues) (positive : 0 < x) (below : x < 1 / 2)
    (differs : x ≠ dyadic (2 ^ 53 - 1) (-54)) : x ≤ dyadic (2 ^ 53 - 2) (-54) := by
  have half : double.magnitude 0x3FE0000000000000 = 1 / 2 := by
    have rung : double.magnitude 0x3FE0000000000000 = dyadic (2 ^ 52) (-53) := by
      rw [magnitude]
      congr 1
    rw [rung, dyadic]
    norm_num
  have first : double.magnitude 0x3FDFFFFFFFFFFFFF = dyadic (2 ^ 53 - 1) (-54) := by
    rw [magnitude]
    congr 1
  have second : double.magnitude 0x3FDFFFFFFFFFFFFE = dyadic (2 ^ 53 - 2) (-54) := by
    rw [magnitude]
    congr 1
  obtain ⟨rung, -, isX⟩ := exists_abs_rung mem
  rw [abs_of_pos positive] at isX
  rw [← isX, ← first, double.magnitude_strictMono.injective.ne_iff] at differs
  rw [← isX, ← half, double.magnitude_strictMono.lt_iff_lt] at below
  rw [← isX, ← second, double.magnitude_strictMono.le_iff_le]
  omega

theorem half_integer_mem {n : ℤ} (bounded : |n| ≤ 2 ^ 32) : (n : ℝ) + 1 / 2 ∈ double.finiteValues := by
  have isMultiple : (n : ℝ) + 1 / 2 = (2 * n + 1 : ℤ) * 2 ^ (-1 : ℤ) := by
    push_cast
    rw [zpow_neg_one]
    ring
  rw [isMultiple]
  have bounds := abs_le.mp bounded
  exact multiple_mem_double (abs_lt.mpr ⟨by omega, by omega⟩) (by norm_num) (by norm_num)

theorem integer_mem {n : ℤ} (bounded : |n| ≤ 2 ^ 32) : (n : ℝ) ∈ double.finiteValues := by
  have mem : (n : ℝ) * 2 ^ (0 : ℤ) ∈ double.finiteValues :=
    multiple_mem_double (bounded.trans_lt (by norm_num)) (by norm_num) le_rfl
  rwa [zpow_zero, mul_one] at mem

theorem abs_floor_add_half_le {x : ℝ} (bounded : |x| ≤ 2 ^ 31) : |⌊x + 1 / 2⌋| ≤ 2 ^ 32 := by
  obtain ⟨least, most⟩ := abs_le.mp bounded
  refine abs_le.mpr ⟨Int.le_floor.mpr ?_, Int.floor_le_iff.mpr ?_⟩
  · push_cast
    linarith
  · push_cast
    linarith

/-- Rounding the sum with a half does not reach the next integer, apart from one double. -/
theorem floor_rounded_half {mode : RoundingMode} {x : ℝ} {result : Number} (mem : x ∈ double.finiteValues)
    (bounded : |x| ≤ 2 ^ 31) (rounded : double.IsRounded mode (x + 1 / 2) result)
    (differs : x ≠ dyadic (2 ^ 53 - 1) (-54)) : result.isFinite = true ∧ ⌊result.toReal⌋ = ⌊x + 1 / 2⌋ := by
  obtain ⟨least, most⟩ := abs_le.mp bounded
  have wide : (2 : ℝ) ^ 32 ∈ double.finiteValues := two_pow_mem_double (by norm_num)
  have isFinite := rounded.isFinite double_valid wide (abs_le.mpr ⟨by linarith, by linarith⟩)
  have isReal := Number.toEReal_of_isFinite isFinite
  have atMost {value : ℝ} (memValue : value ∈ double.finiteValues) (bound : x + 1 / 2 ≤ value) :
      result.toReal ≤ value := by
    have passed := rounded.le_of_le double_valid memValue bound
    rwa [isReal, EReal.coe_le_coe_iff] at passed
  refine ⟨isFinite, Int.floor_eq_iff.mpr ?_⟩
  have boundedN := abs_floor_add_half_le bounded
  generalize isFloor : ⌊x + 1 / 2⌋ = n at boundedN ⊢
  obtain ⟨below, above⟩ := Int.floor_eq_iff.mp isFloor
  -- Rounding passes no double: not the integer below, and on the way up not the next half.
  constructor
  · have passed := rounded.ge_of_ge double_valid (integer_mem boundedN) below
    rwa [isReal, EReal.coe_le_coe_iff] at passed
  · rcases le_or_gt (x + 1 / 2) (n + 1 / 2) with lower | upper
    · have within := atMost (half_integer_mem boundedN) lower
      linarith
    · rcases eq_or_ne n 0 with rfl | nonzero
      · -- Between zero and one half the predecessor of one half was left out.
        rw [Int.cast_zero] at above upper ⊢
        have few := le_of_lt_half mem (by linarith) (by linarith) differs
        have memOne : ((2 ^ 53 - 1 : ℤ) : ℝ) * 2 ^ (-53 : ℤ) ∈ double.finiteValues :=
          multiple_mem_double (by norm_num) (by norm_num) (by norm_num)
        have within := atMost memOne (by
          rw [dyadic] at few
          norm_num at few ⊢
          linarith)
        norm_num at within ⊢
        linarith
      · have sum := add_half_mem mem (by linarith) (by linarith) (show 1 ≤ n ∨ n ≤ -1 by omega)
        exact (atMost sum le_rfl).trans_lt above

end BinaryFormat

end PowerFpu
