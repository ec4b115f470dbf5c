import Mathlib.Algebra.Order.Field.Power
import Mathlib.Data.EReal.Operations
import Mathlib.Tactic
import PowerFpu.Float.Format

/-! The patterns of a format as a ladder of magnitudes.

Without its sign bit a pattern is a natural number, and the next pattern denotes the
next larger magnitude, also from the subnormal numbers to the normal ones and from
one exponent to the next. Infinity has the place of the power of two that would follow
the largest number. -/

set_option autoImplicit false

namespace PowerFpu

noncomputable def dyadic (significand : Nat) (exponent : Int) : ℝ :=
  significand * 2 ^ exponent

@[simp] theorem dyadic_zero (exponent : Int) : dyadic 0 exponent = 0 := by
  rw [dyadic, Nat.cast_zero, zero_mul]

theorem dyadic_nonneg (significand : Nat) (exponent : Int) : 0 ≤ dyadic significand exponent :=
  mul_nonneg (Nat.cast_nonneg significand) (zpow_pos two_pos exponent).le

theorem dyadic_pos {significand : Nat} (positive : 0 < significand) (exponent : Int) :
    0 < dyadic significand exponent :=
  mul_pos (Nat.cast_pos.mpr positive) (zpow_pos two_pos exponent)

theorem dyadic_add (significand distance : Nat) (unit : Int) :
    dyadic significand (distance + unit) = dyadic (significand <<< distance) unit := by
  rw [dyadic, dyadic, Nat.shiftLeft_eq, zpow_add₀ two_ne_zero, zpow_natCast]
  push_cast
  ring

namespace BinaryFormat

/-- A format whose numbers have a fraction, with room for more than the reserved exponents. -/
structure Valid (format : BinaryFormat) : Prop where
  fraction : 1 ≤ format.fractionBits
  exponent : 2 ≤ format.exponentBits

theorem double_valid : double.Valid := ⟨by decide, by decide⟩

theorem single_valid : single.Valid := ⟨by decide, by decide⟩

variable (format : BinaryFormat)

theorem hiddenBit_eq : format.hiddenBit = 2 ^ format.fractionBits :=
  Nat.one_shiftLeft _

theorem maxBiased_eq : format.maxBiased = 2 ^ format.exponentBits - 1 := by
  rw [maxBiased, Nat.one_shiftLeft]

theorem infinity_eq : format.infinity = format.maxBiased * 2 ^ format.fractionBits :=
  Nat.shiftLeft_eq _ _

theorem signBit_eq : format.signBit = 2 ^ (format.exponentBits + format.fractionBits) :=
  Nat.one_shiftLeft _

theorem signBit_eq_infinity_add : format.signBit = format.infinity + 2 ^ format.fractionBits := by
  have positive : 1 ≤ 2 ^ format.exponentBits := Nat.one_le_two_pow
  rw [signBit_eq, infinity_eq, maxBiased_eq, pow_add, Nat.sub_mul, one_mul,
    Nat.sub_add_cancel (Nat.le_mul_of_pos_left _ positive)]

theorem infinity_lt_signBit : format.infinity < format.signBit := by
  rw [signBit_eq_infinity_add]
  exact Nat.lt_add_of_pos_right (Nat.two_pow_pos _)

/-- How many steps the exponent of a pattern lies above the subnormal one. -/
def scale (pattern : Nat) : Nat :=
  pattern / 2 ^ format.fractionBits - 1

/-- The significand of a pattern, with the leading bit of a normal number. -/
def significand (pattern : Nat) : Nat :=
  pattern - format.scale pattern * 2 ^ format.fractionBits

/-- The magnitude of a pattern, and at infinity the power of two after the largest number. -/
noncomputable def magnitude (pattern : Nat) : ℝ :=
  dyadic (format.significand pattern) (format.minExponent + format.scale pattern)

variable {format} {pattern multiple steps : Nat}

theorem significand_bounds (format : BinaryFormat) (pattern : Nat) :
    pattern = format.scale pattern * 2 ^ format.fractionBits + format.significand pattern ∧
      format.significand pattern < 2 ^ (format.fractionBits + 1) ∧
      (format.scale pattern = 0 ∨ 2 ^ format.fractionBits ≤ format.significand pattern) := by
  have positive : 0 < 2 ^ format.fractionBits := Nat.two_pow_pos _
  have quotient := Nat.div_add_mod' pattern (2 ^ format.fractionBits)
  have remainder := Nat.mod_lt pattern positive
  rw [significand, scale, pow_succ]
  cases digits : pattern / 2 ^ format.fractionBits with
  | zero =>
    rw [digits] at quotient
    simp only [Nat.zero_sub, zero_mul, zero_add, Nat.sub_zero] at quotient ⊢
    rw [quotient] at remainder
    exact ⟨trivial, by omega, .inl trivial⟩
  | succ digits =>
    rw [digits, Nat.succ_mul] at quotient
    simp only [Nat.add_sub_cancel]
    omega

/-- The scale and the significand of a pattern are found from any sum that has their form;
a carry into the next exponent is allowed. -/
theorem magnitude_add (bound : multiple ≤ 2 ^ (format.fractionBits + 1))
    (normal : steps = 0 ∨ 2 ^ format.fractionBits ≤ multiple) :
    format.magnitude (steps * 2 ^ format.fractionBits + multiple) = dyadic multiple (format.minExponent + steps) := by
  have positive : 0 < 2 ^ format.fractionBits := Nat.two_pow_pos _
  have digits : (steps * 2 ^ format.fractionBits + multiple) / 2 ^ format.fractionBits =
      steps + multiple / 2 ^ format.fractionBits := by
    rw [add_comm, Nat.add_mul_div_right _ _ positive, add_comm]
  rw [pow_succ] at bound
  rcases lt_or_ge multiple (2 ^ format.fractionBits) with subnormal | normal'
  · have zeroSteps : steps = 0 := by omega
    have zeroDigits : multiple / 2 ^ format.fractionBits = 0 := Nat.div_eq_of_lt subnormal
    simp only [magnitude, significand, scale, zeroSteps, zeroDigits, Nat.zero_sub, zero_mul, Nat.sub_zero,
      zero_add]
  · rcases lt_or_ge multiple (2 * 2 ^ format.fractionBits) with below | top
    · have oneDigit : multiple / 2 ^ format.fractionBits = 1 :=
        Nat.div_eq_of_lt_le (by omega) (by omega)
      simp only [magnitude, significand, scale, digits, oneDigit, Nat.add_sub_cancel, Nat.add_sub_cancel_left]
    · -- The multiple is the next power of two: one exponent more, with half of the significand.
      have isTop : multiple = 2 * 2 ^ format.fractionBits := by omega
      have twoDigits : multiple / 2 ^ format.fractionBits = 2 := by
        rw [isTop, Nat.mul_div_cancel _ positive]
      have rest : steps * 2 ^ format.fractionBits + multiple - (steps + 1) * 2 ^ format.fractionBits =
          2 ^ format.fractionBits := by
        rw [add_mul, isTop]
        omega
      have exponents : format.minExponent + (steps + 1 : Nat) = (1 : Nat) + (format.minExponent + steps) := by
        push_cast
        ring
      simp only [magnitude, significand, scale, digits, twoDigits, Nat.add_succ_sub_one, rest]
      rw [exponents, dyadic_add, Nat.shiftLeft_eq, pow_one, mul_comm, isTop]

theorem magnitude_succ (pattern : Nat) :
    format.magnitude (pattern + 1) =
      format.magnitude pattern + 2 ^ (format.minExponent + format.scale pattern) := by
  obtain ⟨sum, bound, normal⟩ := significand_bounds format pattern
  have next : pattern + 1 = format.scale pattern * 2 ^ format.fractionBits + (format.significand pattern + 1) := by
    omega
  rw [next, magnitude_add (by omega) (by omega), magnitude, dyadic, dyadic]
  push_cast
  ring

theorem magnitude_strictMono (format : BinaryFormat) : StrictMono format.magnitude := by
  apply strictMono_nat_of_lt_succ
  intro pattern
  rw [magnitude_succ]
  exact lt_add_of_pos_right _ (zpow_pos two_pos _)

@[simp] theorem magnitude_zero : format.magnitude 0 = 0 := by
  simp [magnitude, significand]

theorem magnitude_nonneg (format : BinaryFormat) (pattern : Nat) : 0 ≤ format.magnitude pattern := by
  calc 0
    _ = format.magnitude 0 := magnitude_zero.symm
    _ ≤ format.magnitude pattern := format.magnitude_strictMono.monotone (Nat.zero_le pattern)

end BinaryFormat

/-! The real numbers that numbers and patterns denote. -/

namespace Number

def negative : Number → Bool
  | .nan => false
  | .infinity negative => negative
  | .finite negative _ _ => negative

def isFinite : Number → Bool
  | .finite .. => true
  | .nan | .infinity _ => false

noncomputable def toReal : Number → ℝ
  | .finite true significand exponent => -dyadic significand exponent
  | .finite false significand exponent => dyadic significand exponent
  | .nan | .infinity _ => 0

noncomputable def toEReal : Number → EReal
  | .infinity true => ⊥
  | .infinity false => ⊤
  | .finite negative significand exponent => (Number.finite negative significand exponent).toReal
  | .nan => 0

theorem toEReal_of_isFinite {x : Number} (isFinite : x.isFinite = true) : x.toEReal = x.toReal := by
  cases x with
  | finite negative significand exponent => rfl
  | nan | infinity negative => cases isFinite

@[simp] theorem negative_finite (negative : Bool) (significand : Nat) (exponent : Int) :
    (Number.finite negative significand exponent).negative = negative := rfl

@[simp] theorem toReal_finite_not (negative : Bool) (significand : Nat) (exponent : Int) :
    (Number.finite (!negative) significand exponent).toReal =
      -(Number.finite negative significand exponent).toReal := by
  cases negative with
  | false => rfl
  | true => exact (neg_neg _).symm

theorem toReal_negate (x : Number) : x.negate.toReal = -x.toReal := by
  cases x with
  | finite negative significand exponent => exact toReal_finite_not negative significand exponent
  | nan | infinity negative => exact neg_zero.symm

theorem toEReal_negate (x : Number) : x.negate.toEReal = -x.toEReal := by
  cases x with
  | finite negative significand exponent =>
    exact (congrArg Real.toEReal (toReal_negate (.finite negative significand exponent))).trans (EReal.coe_neg _)
  | nan => exact neg_zero.symm
  | infinity negative =>
    cases negative with
    | false => exact EReal.neg_top.symm
    | true => exact EReal.neg_bot.symm

theorem negate_negate (x : Number) : x.negate.negate = x := by
  cases x with
  | nan => rfl
  | infinity negative | finite negative => simp only [negate, Bool.not_not]

theorem isFinite_negate {x : Number} (isFinite : x.isFinite = true) : x.negate.isFinite = true := by
  cases x with
  | finite negative significand exponent => rfl
  | nan | infinity negative => cases isFinite

theorem ne_nan_of_isFinite {x : Number} (isFinite : x.isFinite = true) : x ≠ .nan := by
  rintro rfl
  cases isFinite

theorem isNan_iff {x : Number} : x.isNan = true ↔ x = .nan := by
  cases x <;> simp [isNan]

theorem isNan_of_ne_nan {x : Number} (isNumber : x ≠ .nan) : x.isNan = false := by
  cases x with
  | nan => exact absurd rfl isNumber
  | infinity negative | finite negative significand exponent => rfl

theorem negative_negate_of_isFinite {x : Number} (isFinite : x.isFinite = true) :
    x.negate.negative = !x.negative := by
  cases x with
  | nan | infinity negative => cases isFinite
  | finite negative significand exponent => rfl

theorem isZero_iff {x : Number} (isFinite : x.isFinite = true) : x.isZero = true ↔ x.toReal = 0 := by
  cases x with
  | nan | infinity negative => cases isFinite
  | finite negative significand exponent =>
    cases significand with
    | zero => cases negative <;> simp [isZero, toReal]
    | succ significand =>
      have positive := dyadic_pos (Nat.succ_pos significand) exponent
      cases negative with
      | false => exact iff_of_false Bool.false_ne_true positive.ne'
      | true => exact iff_of_false Bool.false_ne_true (neg_ne_zero.mpr positive.ne')

theorem isFinite_of_isZero {x : Number} (isZero : x.isZero = true) : x.isFinite = true := by
  cases x with
  | finite negative significand exponent => rfl
  | nan | infinity negative => cases isZero

theorem toEReal_of_isZero {x : Number} (isZero : x.isZero = true) : x.toEReal = 0 := by
  have isFinite := isFinite_of_isZero isZero
  rw [toEReal_of_isFinite isFinite, (isZero_iff isFinite).mp isZero, EReal.coe_zero]

theorem not_isInfinite_of_isFinite {x : Number} (isFinite : x.isFinite = true) : ¬ x.isInfinite = true := by
  cases x with
  | finite negative significand exponent => exact Bool.false_ne_true
  | nan | infinity negative => cases isFinite

theorem toReal_finite_eq_zero (negative : Bool) (significand : Nat) (exponent : Int) :
    (Number.finite negative significand exponent).toReal = 0 ↔ significand = 0 := by
  rw [← isZero_iff rfl]
  cases significand with
  | zero => exact iff_of_true rfl rfl
  | succ significand => exact iff_of_false Bool.false_ne_true (Nat.succ_ne_zero _)

end Number

namespace BinaryFormat

variable (format : BinaryFormat)

def assemble (negative : Bool) (pattern : Nat) : Number :=
  if pattern < format.infinity then
    .finite negative (format.significand pattern) (format.minExponent + format.scale pattern)
  else if pattern = format.infinity then .infinity negative
  else .nan

theorem decode_eq (pattern : Nat) :
    format.decode pattern =
      format.assemble (pattern.testBit (format.exponentBits + format.fractionBits)) (pattern % format.signBit) := by
  have biasedField : (pattern >>> format.fractionBits) % (1 <<< format.exponentBits) =
      pattern % format.signBit / 2 ^ format.fractionBits := by
    rw [Nat.shiftRight_eq_div_pow, Nat.one_shiftLeft, signBit_eq, add_comm, pow_add, Nat.mod_mul_right_div_self]
  have fractionField : pattern % format.hiddenBit = pattern % format.signBit % 2 ^ format.fractionBits := by
    rw [hiddenBit_eq, signBit_eq, pow_add, Nat.mod_mod_of_dvd _ (Dvd.intro_left _ rfl)]
  have bound : pattern % format.signBit < format.signBit := Nat.mod_lt _ (by rw [signBit_eq]; positivity)
  simp only [decode, biasedField, fractionField]
  clear biasedField fractionField
  generalize pattern % format.signBit = rest at bound
  generalize pattern.testBit (format.exponentBits + format.fractionBits) = negative
  have quotient := Nat.div_add_mod' rest (2 ^ format.fractionBits)
  have remainder := Nat.mod_lt rest (Nat.two_pow_pos format.fractionBits)
  rw [signBit_eq_infinity_add, infinity_eq, ← Nat.succ_mul] at bound
  rw [assemble, significand, scale, infinity_eq, hiddenBit_eq]
  generalize rest / 2 ^ format.fractionBits = digits at *
  generalize rest % 2 ^ format.fractionBits = fraction at *
  generalize 2 ^ format.fractionBits = unit at *
  have digitsBound : digits < format.maxBiased + 1 :=
    Nat.lt_of_mul_lt_mul_right (Nat.lt_of_le_of_lt (Nat.le.intro quotient) bound)
  -- The exponent field alone tells finite numbers from infinity and the NaNs.
  rcases Nat.lt_succ_iff_lt_or_eq.mp digitsBound with finite | special
  · have below : rest < format.maxBiased * unit := by
      have step : (digits + 1) * unit ≤ format.maxBiased * unit := Nat.mul_le_mul_right unit finite
      rw [Nat.succ_mul] at step
      omega
    rw [if_neg finite.ne, if_pos below]
    cases digits with
    | zero =>
      rw [if_pos rfl, Nat.zero_sub, Nat.zero_mul, Nat.sub_zero, ← quotient, Nat.zero_mul, Nat.zero_add,
        Nat.cast_zero, add_zero]
    | succ digits =>
      have significand : rest - digits * unit = unit + fraction := by
        rw [Nat.succ_mul] at quotient
        omega
      rw [if_neg (Nat.succ_ne_zero digits), Nat.add_sub_cancel, significand]
  · have above : ¬ rest < format.maxBiased * unit := by
      rw [← special]
      omega
    have atInfinity : rest = format.maxBiased * unit ↔ fraction = 0 := by
      rw [← special]
      omega
    rw [if_pos special, if_neg above]
    exact if_congr atInfinity.symm rfl rfl

variable {format}

theorem signed_lt {pattern : Nat} (bound : pattern < format.signBit) (negative : Bool) :
    format.signed negative pattern < 2 * format.signBit := by
  cases negative with
  | false =>
    simp only [signed, Bool.false_eq_true, if_false]
    omega
  | true =>
    simp only [signed, if_true]
    omega

theorem testBit_signed {pattern : Nat} (bound : pattern < format.signBit) (negative : Bool) :
    (format.signed negative pattern).testBit (format.exponentBits + format.fractionBits) = negative := by
  rw [signBit_eq] at bound
  cases negative with
  | false => exact Nat.testBit_lt_two_pow bound
  | true =>
    simp only [signed, if_true]
    rw [signBit_eq, Nat.testBit_two_pow_add_eq, Nat.testBit_lt_two_pow bound]
    rfl

theorem decode_signed {pattern : Nat} (bound : pattern < format.signBit) (negative : Bool) :
    format.decode (format.signed negative pattern) = format.assemble negative pattern := by
  have rest : format.signed negative pattern % format.signBit = pattern := by
    cases negative with
    | false => exact Nat.mod_eq_of_lt bound
    | true =>
      simp only [signed, if_true]
      rw [Nat.add_mod_left, Nat.mod_eq_of_lt bound]
  rw [decode_eq, testBit_signed bound, rest]

theorem assemble_finite {pattern : Nat} (finite : pattern < format.infinity) (negative : Bool) :
    format.assemble negative pattern =
      .finite negative (format.significand pattern) (format.minExponent + format.scale pattern) :=
  if_pos finite

theorem assemble_infinity (negative : Bool) : format.assemble negative format.infinity = .infinity negative := by
  rw [assemble, if_neg (lt_irrefl _), if_pos rfl]

theorem negate_assemble (negative : Bool) (pattern : Nat) :
    (format.assemble negative pattern).negate = format.assemble (!negative) pattern := by
  unfold assemble
  split
  · rfl
  · split
    · rfl
    · rfl

theorem le_infinity_of_assemble {negative : Bool} {pattern : Nat} (isNumber : format.assemble negative pattern ≠ .nan) :
    pattern ≤ format.infinity := by
  by_contra above
  rw [not_le] at above
  apply isNumber
  rw [assemble, if_neg above.not_gt, if_neg above.ne']

theorem exists_assemble {pattern : Nat} (isNumber : format.decode pattern ≠ .nan) :
    ∃ negative magnitude, magnitude ≤ format.infinity ∧
      format.decode pattern = format.assemble negative magnitude := by
  rw [decode_eq] at isNumber ⊢
  exact ⟨_, _, le_infinity_of_assemble isNumber, rfl⟩

theorem toReal_assemble {pattern : Nat} (finite : pattern < format.infinity) :
    (format.assemble false pattern).toReal = format.magnitude pattern := by
  rw [assemble_finite finite]
  rfl

end BinaryFormat

end PowerFpu
