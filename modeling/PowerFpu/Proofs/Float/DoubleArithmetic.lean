import PowerFpu.Proofs.Float.ExactReal
import PowerFpu.Proofs.Float.RoundMagnitude

/-! Arithmetic on doubles is exact arithmetic rounded once, which leaves one pattern to deliver. -/

set_option autoImplicit false

namespace PowerFpu

/-! Bit vectors as patterns: a sign in the top bit and a rung below it. -/

namespace BinaryFormat

variable {format : BinaryFormat} {width : Nat} (isWidth : format.exponentBits + format.fractionBits + 1 = width)
include isWidth

theorem two_mul_signBit : 2 * format.signBit = 2 ^ width := by
  rw [signBit_eq, ← isWidth, pow_succ, mul_comm]

section Signed
variable {pattern : Nat} (bound : pattern < format.signBit) (negative : Bool)
include bound

theorem toNat_ofNat_signed :
    (BitVec.ofNat width (format.signed negative pattern)).toNat = format.signed negative pattern := by
  rw [BitVec.toNat_ofNat, ← two_mul_signBit isWidth, Nat.mod_eq_of_lt (signed_lt bound negative)]

theorem decode_ofNat_signed :
    format.decode (BitVec.ofNat width (format.signed negative pattern)).toNat = format.assemble negative pattern := by
  rw [toNat_ofNat_signed isWidth bound, decode_signed bound]

theorem msb_ofNat_signed : (BitVec.ofNat width (format.signed negative pattern)).msb = negative := by
  rw [BitVec.msb_eq_getLsbD_last, BitVec.getLsbD, toNat_ofNat_signed isWidth bound, ← isWidth, Nat.add_sub_cancel,
    testBit_signed bound]

end Signed

theorem testBit_eq_msb (bits : BitVec width) :
    bits.toNat.testBit (format.exponentBits + format.fractionBits) = bits.msb := by
  subst isWidth
  rw [BitVec.msb_eq_getLsbD_last, BitVec.getLsbD, Nat.add_sub_cancel]

theorem decode_toNat (bits : BitVec width) :
    format.decode bits.toNat = format.assemble bits.msb (bits.toNat % format.signBit) := by
  rw [decode_eq, testBit_eq_msb isWidth]

theorem msb_eq_negative {bits : BitVec width} (isNumber : format.decode bits.toNat ≠ .nan) :
    bits.msb = (format.decode bits.toNat).negative := by
  rw [decode_toNat isWidth] at isNumber ⊢
  rcases (le_infinity_of_assemble isNumber).lt_or_eq with finite | isInfinity
  · rw [assemble_finite finite]
    rfl
  · rw [isInfinity, assemble_infinity]
    rfl

theorem toNat_eq_signed (bits : BitVec width) :
    bits.toNat = format.signed bits.msb (bits.toNat % format.signBit) := by
  have whole := two_mul_signBit isWidth
  have bound := bits.isLt
  have split := Nat.div_add_mod bits.toNat format.signBit
  rw [← whole] at bound
  cases sign : bits.msb with
  | false =>
    have below := BitVec.msb_eq_false_iff_two_mul_lt.mp sign
    rw [← whole] at below
    rw [Nat.mod_eq_of_lt (by omega)]
    rfl
  | true =>
    have above := BitVec.msb_eq_true_iff_two_mul_ge.mp sign
    rw [← whole] at above
    have digit : bits.toNat / format.signBit = 1 := Nat.div_eq_of_lt_le (by omega) (by omega)
    rw [digit, mul_one] at split
    exact split.symm

theorem eq_of_sign_of_rung {first second : BitVec width} (sign : first.msb = second.msb)
    (rung : first.toNat % format.signBit = second.toNat % format.signBit) : first = second := by
  apply BitVec.eq_of_toNat_eq
  rw [toNat_eq_signed isWidth first, toNat_eq_signed isWidth second, sign, rung]

end BinaryFormat

/-! Arithmetic on doubles is exact arithmetic rounded once. -/

section

open BinaryFormat (double)

namespace Double

/-- The pattern is the real number rounded once to double. The sign bit is told apart,
because a zero does not show its sign in its value. -/
def RoundsTo (mode : RoundingMode) (x : ℝ) (negative : Bool) (bits : Doubleword) : Prop :=
  double.IsRounded mode x (value bits) ∧ bits.msb = negative

variable (mode : RoundingMode)

theorem isWidth : double.exponentBits + double.fractionBits + 1 = 64 := rfl

theorem value_ofNat_signed {pattern : Nat} (bound : pattern < double.signBit) (negative : Bool) :
    value (.ofNat 64 (double.signed negative pattern)) = double.assemble negative pattern :=
  BinaryFormat.decode_ofNat_signed isWidth bound negative

theorem msb_ofNat_signed {pattern : Nat} (bound : pattern < double.signBit) (negative : Bool) :
    (BitVec.ofNat 64 (double.signed negative pattern)).msb = negative :=
  BinaryFormat.msb_ofNat_signed isWidth bound negative

theorem roundsTo_of_holds {x : ℝ} {magnitude : Magnitude} (holds : magnitude.Holds x)
    (guarded : magnitude.inexact = true →
      magnitude.significand ≠ 0 ∧ double.fractionBits < magnitude.significand.log2) (nonneg : 0 ≤ x)
    (negative : Bool) :
    RoundsTo mode (if negative then -x else x) negative
      (.ofNat 64 (double.signed negative (double.roundMagnitude mode negative magnitude))) := by
  have bound : double.roundMagnitude mode negative magnitude < double.signBit :=
    (BinaryFormat.roundMagnitude_le _ _ _).trans_lt double.infinity_lt_signBit
  constructor
  · rw [value_ofNat_signed bound, ← BinaryFormat.decode_signed bound]
    exact BinaryFormat.roundMagnitude_isRounded BinaryFormat.double_valid mode holds guarded nonneg negative
  · exact msb_ofNat_signed bound negative

theorem ofNumber_roundsTo {x : Number} (isFinite : x.isFinite = true) :
    RoundsTo mode x.toReal x.negative (ofNumber mode x) := by
  cases x with
  | nan | infinity negative => cases isFinite
  | finite negative significand exponent =>
    have holds : (⟨significand, exponent, false⟩ : Magnitude).Holds (dyadic significand exponent) := rfl
    have rounds := roundsTo_of_holds mode holds (fun inexact => by cases inexact) (dyadic_nonneg _ _) negative
    cases negative with
    | false => exact rounds
    | true => exact rounds

theorem value_signed_infinity (negative : Bool) :
    value (.ofNat 64 (double.signed negative double.infinity)) = .infinity negative := by
  rw [value_ofNat_signed double.infinity_lt_signBit, BinaryFormat.assemble_infinity]

theorem value_ofNumber_infinity (negative : Bool) : value (ofNumber mode (.infinity negative)) = .infinity negative :=
  value_signed_infinity negative

theorem zero_roundsTo (negative : Bool) : RoundsTo mode 0 negative (.ofNat 64 (double.signed negative 0)) := by
  have rounds := ofNumber_roundsTo mode (x := .finite negative 0 0) rfl
  have isZero : (Number.finite negative 0 0).toReal = 0 := (Number.isZero_iff rfl).mp rfl
  rwa [isZero, ofNumber, BinaryFormat.round, BinaryFormat.roundMagnitude_zero BinaryFormat.double_valid] at rounds

variable {a b : Doubleword}

theorem add_roundsTo (isFiniteA : (value a).isFinite = true) (isFiniteB : (value b).isFinite = true) :
    RoundsTo mode ((value a).toReal + (value b).toReal) (Number.sumNegative mode (value a) (value b))
      (add mode a b) := by
  obtain ⟨isFinite, sum, sign⟩ := Number.add_exact isFiniteA isFiniteB mode
  rw [← sum, ← sign]
  exact ofNumber_roundsTo mode isFinite

theorem sub_roundsTo (isFiniteA : (value a).isFinite = true) (isFiniteB : (value b).isFinite = true) :
    RoundsTo mode ((value a).toReal - (value b).toReal) (Number.sumNegative mode (value a) (value b).negate)
      (sub mode a b) := by
  obtain ⟨isFinite, sum, sign⟩ := Number.add_exact isFiniteA (Number.isFinite_negate isFiniteB) mode
  rw [sub_eq_add_neg, ← Number.toReal_negate, ← sum, ← sign]
  exact ofNumber_roundsTo mode isFinite

theorem mul_roundsTo (isFiniteA : (value a).isFinite = true) (isFiniteB : (value b).isFinite = true) :
    RoundsTo mode ((value a).toReal * (value b).toReal) ((value a).negative != (value b).negative)
      (mul mode a b) := by
  obtain ⟨isFinite, product, sign⟩ := Number.mul_exact isFiniteA isFiniteB
  rw [← product, ← sign]
  exact ofNumber_roundsTo mode isFinite

theorem div_roundsTo (isFiniteA : (value a).isFinite = true) (isFiniteB : (value b).isFinite = true)
    (nonzero : (value b).toReal ≠ 0) :
    RoundsTo mode ((value a).toReal / (value b).toReal) ((value a).negative != (value b).negative)
      (div mode a b) := by
  unfold div
  generalize value a = x at *
  generalize value b = y at *
  cases x with
  | nan | infinity negative => cases isFiniteA
  | finite negativeA m e =>
    cases y with
    | nan | infinity negative => cases isFiniteB
    | finite negativeB n f =>
      -- A finite number is zero only with a zero significand.
      have some : n ≠ 0 := by
        intro zero
        apply nonzero
        rw [zero]
        cases negativeB <;> simp [Number.toReal]
      have quotient : (Number.finite negativeA m e).toReal / (Number.finite negativeB n f).toReal =
          if negativeA != negativeB then -(dyadic m e / dyadic n f) else dyadic m e / dyadic n f := by
        cases negativeA <;> cases negativeB <;> simp [Number.toReal, neg_div, div_neg]
      have wide := Magnitude.quotient_wide double.guardedBits m e f some
      rw [quotient]
      simp only [BinaryFormat.divide, if_neg some]
      refine roundsTo_of_holds mode (Magnitude.quotient_holds double.guardedBits m e f some) ?_
        (div_nonneg (dyadic_nonneg m e) (dyadic_nonneg n f)) _
      intro inexact
      obtain ⟨nonzeroQuotient, bits⟩ := wide inexact
      exact ⟨nonzeroQuotient, lt_of_lt_of_le (by decide) bits⟩

theorem sqrt_roundsTo (isFinite : (value b).isFinite = true) (nonneg : 0 ≤ (value b).toReal) :
    RoundsTo mode (√(value b).toReal) (value b).negative (sqrt mode b) := by
  unfold sqrt
  generalize value b = x at *
  cases x with
  | nan | infinity negative => cases isFinite
  | finite negative m e =>
    rcases Nat.eq_zero_or_pos m with zero | some
    · -- A zero is its own root, with its sign.
      have isZero : (Number.finite negative 0 e).toReal = 0 := (Number.isZero_iff rfl).mp rfl
      rw [zero, isZero, Real.sqrt_zero, BinaryFormat.squareRoot, if_pos rfl]
      exact zero_roundsTo mode negative
    · cases negative with
      | true =>
        exact absurd nonneg (neg_neg_of_pos (dyadic_pos some e)).not_ge
      | false =>
        obtain ⟨nonzeroRoot, bits⟩ := Magnitude.root_wide double.guardedBits e some.ne'
        have guarded : (Magnitude.root double.guardedBits m e).inexact = true →
            (Magnitude.root double.guardedBits m e).significand ≠ 0 ∧
              double.fractionBits < (Magnitude.root double.guardedBits m e).significand.log2 :=
          fun _ => ⟨nonzeroRoot, lt_of_lt_of_le (by decide) bits⟩
        have rounds := roundsTo_of_holds mode (Magnitude.root_holds double.guardedBits m e) guarded
          (Real.sqrt_nonneg _) false
        rw [BinaryFormat.squareRoot, if_neg some.ne', if_neg Bool.false_ne_true]
        exact rounds

end Double

end

/-! A real number, a mode and a sign leave one pattern to round to.

A value determines its rung. Two closest rungs would both be even, and then the rung
between them is closer than either. -/

theorem RoundingMode.mirror_mirror (mode : RoundingMode) : mode.mirror.mirror = mode := by
  cases mode <;> rfl

namespace BinaryFormat

variable {format : BinaryFormat} {x : ℝ} {first second : Nat}

theorem toEReal_assemble_strictMono (finite : first < format.infinity) (bound : second ≤ format.infinity)
    (less : first < second) : (format.assemble false first).toEReal < (format.assemble false second).toEReal := by
  rw [toEReal_assemble finite]
  rcases bound.lt_or_eq with secondFinite | isInfinity
  · rw [toEReal_assemble secondFinite]
    exact EReal.coe_lt_coe_iff.mpr (format.magnitude_strictMono less)
  · rw [isInfinity, assemble_infinity]
    exact EReal.coe_lt_top _

theorem eq_of_toEReal_assemble (boundFirst : first ≤ format.infinity) (boundSecond : second ≤ format.infinity)
    (same : (format.assemble false first).toEReal = (format.assemble false second).toEReal) : first = second := by
  rcases lt_trichotomy first second with less | equal | greater
  · exact absurd same (toEReal_assemble_strictMono (less.trans_le boundSecond) boundSecond less).ne
  · exact equal
  · exact absurd same (toEReal_assemble_strictMono (greater.trans_le boundFirst) boundFirst greater).ne'

theorem closest_of_isNearest (finite : first < format.infinity)
    (nearest : format.IsNearest x (format.assemble false first)) :
    |x| < format.overflowThreshold ∧
      (∀ other < format.infinity, |format.magnitude first - x| ≤ |format.magnitude other - x|) ∧
      ∀ other < format.infinity, other ≠ first →
        |format.magnitude other - x| = |format.magnitude first - x| → format.significand first % 2 = 0 := by
  have value : (Number.finite false (format.significand first) (format.minExponent + format.scale first)).toReal =
      format.magnitude first := rfl
  have mem (other : Nat) (otherFinite : other < format.infinity) : format.magnitude other ∈ format.finiteValues :=
    mem_finiteValues.mpr ⟨other, otherFinite, .inl rfl⟩
  rw [assemble_finite finite] at nearest
  cases nearest with
  | finite negative significand exponent within closest even =>
    rw [value] at closest even
    refine ⟨within, fun other otherFinite => closest _ (mem other otherFinite), ?_⟩
    intro other otherFinite differs tie
    exact even _ (mem other otherFinite) (fun same => differs (format.magnitude_strictMono.injective same)) tie

theorem nearest_not_less (valid : format.Valid) (boundSecond : second ≤ format.infinity)
    (nearestFirst : format.IsNearest x (format.assemble false first))
    (nearestSecond : format.IsNearest x (format.assemble false second)) : ¬ first < second := by
  intro less
  have finite := less.trans_le boundSecond
  obtain ⟨within, closest, even⟩ := closest_of_isNearest finite nearestFirst
  rcases boundSecond.lt_or_eq with secondFinite | isInfinity
  · obtain ⟨-, closestSecond, evenSecond⟩ := closest_of_isNearest secondFinite nearestSecond
    have tie := le_antisymm (closestSecond first finite) (closest second secondFinite)
    have isEven := even second secondFinite less.ne' tie
    have isEvenSecond := evenSecond first finite less.ne tie.symm
    rw [significand_mod_two valid] at isEven isEvenSecond
    -- Both are even, so a rung lies strictly between them, and it is closer.
    have between : first + 1 < second := by omega
    have above := format.magnitude_strictMono (Nat.lt_succ_self first)
    have below := format.magnitude_strictMono between
    have noCloser := closest (first + 1) (between.trans secondFinite)
    rcases abs_eq_abs.mp tie with same | opposite
    · linarith
    · have distance : |format.magnitude first - x| = x - format.magnitude first := by
        rw [abs_of_nonpos (by linarith), neg_sub]
      have closer : |format.magnitude (first + 1) - x| < x - format.magnitude first :=
        abs_lt.mpr ⟨by linarith, by linarith⟩
      linarith
  · rw [isInfinity, assemble_infinity] at nearestSecond
    cases nearestSecond with
    | positiveInfinity above => exact absurd (within.trans_le above) (le_abs_self x).not_gt

theorem IsRounded.ne_nan {mode : RoundingMode} {result : Number} (rounded : format.IsRounded mode x result) :
    result ≠ .nan := by
  cases mode with
  | nearest =>
    intro isNan
    rw [isNan] at rounded
    cases rounded
  | towardZero =>
    rcases le_total 0 x with nonneg | nonpos
    · exact (rounded.1 nonneg).1
    · exact (rounded.2 nonpos).1
  | towardPosInf => exact rounded.1
  | towardNegInf => exact rounded.1

theorem IsRounded.unique_false (valid : format.Valid) {mode : RoundingMode}
    (boundFirst : first ≤ format.infinity) (boundSecond : second ≤ format.infinity)
    (roundedFirst : format.IsRounded mode x (format.assemble false first))
    (roundedSecond : format.IsRounded mode x (format.assemble false second)) : first = second := by
  have above (isAbove : format.IsAbove x (format.assemble false first))
      (isAboveSecond : format.IsAbove x (format.assemble false second)) : first = second :=
    eq_of_toEReal_assemble boundFirst boundSecond (isAbove.2.unique isAboveSecond.2)
  have below (isBelow : format.IsBelow x (format.assemble false first))
      (isBelowSecond : format.IsBelow x (format.assemble false second)) : first = second :=
    eq_of_toEReal_assemble boundFirst boundSecond (isBelow.2.unique isBelowSecond.2)
  cases mode with
  | nearest =>
    exact le_antisymm (not_lt.mp (nearest_not_less valid boundFirst roundedSecond roundedFirst))
      (not_lt.mp (nearest_not_less valid boundSecond roundedFirst roundedSecond))
  | towardZero =>
    rcases le_total 0 x with nonneg | nonpos
    · exact below (roundedFirst.1 nonneg) (roundedSecond.1 nonneg)
    · exact above (roundedFirst.2 nonpos) (roundedSecond.2 nonpos)
  | towardPosInf => exact above roundedFirst roundedSecond
  | towardNegInf => exact below roundedFirst roundedSecond

theorem IsRounded.unique (valid : format.Valid) {mode : RoundingMode} {negative : Bool}
    (boundFirst : first ≤ format.infinity) (boundSecond : second ≤ format.infinity)
    (roundedFirst : format.IsRounded mode x (format.assemble negative first))
    (roundedSecond : format.IsRounded mode x (format.assemble negative second)) : first = second := by
  cases negative with
  | false => exact unique_false valid boundFirst boundSecond roundedFirst roundedSecond
  | true =>
    rw [← mode.mirror_mirror] at roundedFirst roundedSecond
    have mirroredFirst := roundedFirst.negate
    have mirroredSecond := roundedSecond.negate
    rw [negate_assemble] at mirroredFirst mirroredSecond
    exact unique_false valid boundFirst boundSecond mirroredFirst mirroredSecond

section Pattern
variable {width : Nat} (isWidth : format.exponentBits + format.fractionBits + 1 = width)
  {first second : BitVec width} (sign : first.msb = second.msb)
include isWidth sign

theorem IsRounded.unique_pattern (valid : format.Valid) {mode : RoundingMode}
    (rounded : format.IsRounded mode x (format.decode first.toNat))
    (roundedSecond : format.IsRounded mode x (format.decode second.toNat)) : first = second := by
  rw [decode_toNat isWidth] at rounded roundedSecond
  have bound := le_infinity_of_assemble rounded.ne_nan
  have boundSecond := le_infinity_of_assemble roundedSecond.ne_nan
  rw [sign] at rounded
  exact eq_of_sign_of_rung isWidth sign (rounded.unique valid bound boundSecond roundedSecond)

theorem eq_of_toEReal (isNumber : format.decode first.toNat ≠ .nan)
    (isNumberSecond : format.decode second.toNat ≠ .nan)
    (same : (format.decode first.toNat).toEReal = (format.decode second.toNat).toEReal) : first = second := by
  rw [decode_toNat isWidth] at isNumber isNumberSecond
  rw [decode_toNat isWidth, decode_toNat isWidth, sign] at same
  have bound := le_infinity_of_assemble isNumber
  have boundSecond := le_infinity_of_assemble isNumberSecond
  refine eq_of_sign_of_rung isWidth sign (eq_of_toEReal_assemble bound boundSecond ?_)
  cases negative : second.msb with
  | false => rwa [negative] at same
  | true =>
    rw [negative, ← Bool.not_false, ← negate_assemble, ← negate_assemble, Number.toEReal_negate,
      Number.toEReal_negate] at same
    exact neg_injective same

end Pattern

end BinaryFormat

namespace Double

theorem value_eq_assemble (bits : Doubleword) :
    value bits = BinaryFormat.double.assemble bits.msb (bits.toNat % BinaryFormat.double.signBit) :=
  BinaryFormat.decode_toNat isWidth bits

theorem eq_of_value {first second : Doubleword} (isNumber : value second ≠ .nan) (same : value first = value second) :
    first = second := by
  have isNumberFirst : value first ≠ .nan := by rwa [same]
  have sign := BinaryFormat.msb_eq_negative isWidth isNumber
  have signFirst := BinaryFormat.msb_eq_negative isWidth isNumberFirst
  have decodes : BinaryFormat.double.decode first.toNat = BinaryFormat.double.decode second.toNat := same
  rw [decodes, ← sign] at signFirst
  exact BinaryFormat.eq_of_toEReal isWidth signFirst isNumberFirst isNumber (congrArg Number.toEReal same)

theorem RoundsTo.unique {mode : RoundingMode} {x : ℝ} {negative : Bool} {first second : Doubleword}
    (rounds : RoundsTo mode x negative first) (roundsSecond : RoundsTo mode x negative second) : first = second :=
  rounds.1.unique_pattern isWidth (rounds.2.trans roundsSecond.2.symm) BinaryFormat.double_valid roundsSecond.1

end Double

end PowerFpu
