import PowerFpu.Proofs.Float.Ideal
import PowerFpu.Proofs.Float.Narrow

/-! Rounding and the change of sign.

A number with its sign changed rounds in one mode to what the number rounds to in the
mirrored mode, with its sign changed. A sum does the same unless its terms cancel: then it is
a zero that has no sign of its own, and the mode alone gives it one. -/

set_option autoImplicit false

namespace PowerFpu

namespace BinaryFormat

variable {format : BinaryFormat}

theorem roundMagnitude_mirror (mode : RoundingMode) (negative : Bool) (magnitude : Magnitude) :
    format.roundMagnitude mode.mirror (!negative) magnitude = format.roundMagnitude mode negative magnitude := by
  cases negative with
  | false => rw [Bool.not_false, roundMagnitude_true, mode.mirror_mirror]
  | true => rw [Bool.not_true, roundMagnitude_true]

section Width
variable {width : Nat} (isWidth : format.exponentBits + format.fractionBits + 1 = width) (mode : RoundingMode)
  {x : Number} (isNumber : x ≠ .nan)
include isWidth isNumber

theorem exists_decode_round : ∃ pattern ≤ format.infinity,
    format.decode (BitVec.ofNat width (format.round mode x)).toNat = format.assemble x.negative pattern ∧
      format.decode (BitVec.ofNat width (format.round mode.mirror x.negate)).toNat =
        format.assemble (!x.negative) pattern := by
  cases x with
  | nan => exact absurd rfl isNumber
  | infinity negative =>
    have bound := format.infinity_lt_signBit
    exact ⟨format.infinity, le_rfl, decode_ofNat_signed isWidth bound negative,
      decode_ofNat_signed isWidth bound !negative⟩
  | finite negative significand exponent =>
    have most := format.roundMagnitude_le mode negative ⟨significand, exponent, false⟩
    have bound := most.trans_lt format.infinity_lt_signBit
    refine ⟨_, most, decode_ofNat_signed isWidth bound negative, ?_⟩
    rw [Number.negate, round, roundMagnitude_mirror]
    exact decode_ofNat_signed isWidth bound !negative

theorem decode_round_ne_nan : format.decode (BitVec.ofNat width (format.round mode x)).toNat ≠ .nan := by
  obtain ⟨pattern, bound, decodes, -⟩ := exists_decode_round isWidth mode isNumber
  rw [decodes]
  exact assemble_ne_nan bound x.negative

theorem decode_round_mirror :
    format.decode (BitVec.ofNat width (format.round mode.mirror x.negate)).toNat =
      (format.decode (BitVec.ofNat width (format.round mode x)).toNat).negate := by
  obtain ⟨pattern, -, decodes, negated⟩ := exists_decode_round isWidth mode isNumber
  rw [decodes, negated, negate_assemble]

end Width

end BinaryFormat

namespace Number

theorem negate_eq_nan_iff {x : Number} : x.negate = .nan ↔ x = .nan := by
  cases x <;> simp [negate]

theorem mul_negate (x y : Number) : x.negate.mul y = (x.mul y).negate := by
  cases x with
  | nan => rfl
  | infinity a =>
    cases y with
    | nan => rfl
    | infinity b => simp [negate, mul]
    | finite b n f => simp only [negate, mul]; split <;> simp
  | finite a m e =>
    cases y with
    | nan => rfl
    | infinity b => simp only [negate, mul]; split <;> simp
    | finite b n f => simp [negate, mul]

theorem isFinite_mul_iff {x y : Number} : (x.mul y).isFinite = true ↔ x.isFinite = true ∧ y.isFinite = true := by
  cases x <;> cases y <;> simp only [mul] <;> grind [isFinite]

theorem add_negate_eq_nan_iff (mode other : RoundingMode) (x y : Number) :
    x.negate.add mode y.negate = .nan ↔ x.add other y = .nan := by
  cases x <;> cases y <;> simp only [negate, add] <;> grind

structure Cancels (x y : Number) : Prop where
  isFiniteX : x.isFinite = true
  isFiniteY : y.isFinite = true
  sign : x.negative = !y.negative
  sum : x.toReal + y.toReal = 0

section Sum
variable (mode : RoundingMode) {x y : Number}

theorem cancels_finite_iff {a b : Bool} {m n : Nat} {e f : Int} :
    (finite a m e).Cancels (finite b n f) ↔
      a = !b ∧ alignedSignificand a m e (min e f) + alignedSignificand b n f (min e f) = 0 := by
  have valueA := alignedSignificand_value a m (min_le_left e f)
  have valueB := alignedSignificand_value b n (min_le_right e f)
  have unitPositive : (0 : ℝ) < 2 ^ min e f := zpow_pos two_pos _
  have sum : (finite a m e).toReal + (finite b n f).toReal = 0 ↔
      alignedSignificand a m e (min e f) + alignedSignificand b n f (min e f) = 0 := by
    rw [← valueA, ← valueB, ← add_mul, ← Int.cast_add, mul_eq_zero, Int.cast_eq_zero,
      or_iff_left unitPositive.ne']
  exact ⟨fun cancels => ⟨cancels.sign, sum.mp cancels.sum⟩, fun ⟨sign, zero⟩ => ⟨rfl, rfl, sign, sum.mpr zero⟩⟩

theorem add_of_cancels (cancels : x.Cancels y) : ∃ unit, x.add mode y = .finite (mode = .towardNegInf) 0 unit := by
  cases x with
  | nan | infinity a => cases cancels.isFiniteX
  | finite a m e =>
    cases y with
    | nan | infinity b => cases cancels.isFiniteY
    | finite b n f =>
      obtain ⟨sign, zero⟩ := cancels_finite_iff.mp cancels
      refine ⟨min e f, ?_⟩
      rw [add, if_pos zero, if_neg (by simp [sign])]

theorem Cancels.negate (cancels : x.Cancels y) : x.negate.Cancels y.negate where
  isFiniteX := isFinite_negate cancels.isFiniteX
  isFiniteY := isFinite_negate cancels.isFiniteY
  sign := by
    rw [negative_negate_of_isFinite cancels.isFiniteX, negative_negate_of_isFinite cancels.isFiniteY, cancels.sign]
  sum := by rw [toReal_negate, toReal_negate, ← neg_add, cancels.sum, neg_zero]

theorem alignedSignificand_not (negative : Bool) (significand : Nat) (exponent unit : Int) :
    alignedSignificand (!negative) significand exponent unit =
      -alignedSignificand negative significand exponent unit := by
  cases negative <;> simp [alignedSignificand]

theorem add_mirror (regular : mode.mirror = mode → ¬ x.Cancels y) :
    x.negate.add mode.mirror y.negate = (x.add mode y).negate := by
  cases x with
  | nan => rfl
  | infinity a =>
    cases y with
    | nan | finite b n f => rfl
    | infinity b => simp only [negate, add, Bool.not_inj_iff]; split <;> rfl
  | finite a m e =>
    cases y with
    | nan | infinity b => rfl
    | finite b n f =>
      simp only [negate, add, alignedSignificand_not, ← neg_add, neg_eq_zero, Int.natAbs_neg]
      rw [cancels_finite_iff] at regular
      generalize alignedSignificand a m e (min e f) + alignedSignificand b n f (min e f) = sum at *
      split
      next zero =>
        by_cases like : a = b
        · simp [like]
        · -- A zero of unlike signs has its sign from the mode, and the mirrored mode has the other one.
          have directed : mode.mirror ≠ mode := fun same => regular same ⟨Bool.eq_not.mpr like, zero⟩
          cases mode with
          | nearest | towardZero => exact absurd rfl directed
          | towardPosInf | towardNegInf => simp [like, RoundingMode.mirror]
      next nonzero =>
        have sign : decide (-sum < 0) = !decide (sum < 0) := by grind
        rw [sign]

end Sum

end Number

namespace Double

section OfNumber
variable (mode : RoundingMode) {x : Number}

theorem value_ofNumber_eq_nan_iff : value (ofNumber mode x) = .nan ↔ x = .nan := by
  constructor
  · intro isNan
    by_contra isNumber
    exact BinaryFormat.decode_round_ne_nan isWidth mode isNumber isNan
  · rintro rfl
    change value defaultNan = .nan
    decide

theorem ofNumber_mirror (isNumber : x ≠ .nan) : ofNumber mode.mirror x.negate = ofNumber mode x ^^^ signBit := by
  have flipped := BinaryFormat.decode_round_mirror isWidth mode isNumber
  change value (ofNumber mode.mirror x.negate) = (value (ofNumber mode x)).negate at flipped
  rw [← value_flip] at flipped
  refine eq_of_value ?_ flipped
  rw [value_flip, Ne, Number.negate_eq_nan_iff, value_ofNumber_eq_nan_iff]
  exact isNumber

theorem ofNumber_zero (exponent : Int) : ofNumber mode (.finite false 0 exponent) = 0 := by
  rw [ofNumber, BinaryFormat.round, BinaryFormat.roundMagnitude_zero BinaryFormat.double_valid]
  rfl

end OfNumber

theorem value_negate (bits : Doubleword) : value (negate bits) = (value bits).negate := by
  by_cases isNumber : value bits = .nan
  · rw [negate, isNan, isNumber, Number.isNan, if_pos rfl]
    decide
  · rw [negate_of_ne_nan isNumber, value_flip]

section Narrow
variable (mode : RoundingMode) {bits : Doubleword}

theorem value_narrow_eq_nan_iff : value (narrow mode bits) = .nan ↔ value bits = .nan := by
  rw [narrow, ofSingle, value_ofNumber_eq_nan_iff]
  constructor
  · intro isNan
    by_contra isNumber
    exact BinaryFormat.decode_round_ne_nan Single.isWidth mode isNumber isNan
  · intro isNan
    rw [toSingle_of_nan mode isNan]
    decide

theorem narrow_mirror (isNumber : value bits ≠ .nan) :
    narrow mode.mirror (bits ^^^ signBit) = narrow mode bits ^^^ signBit := by
  have flipped : Single.value (toSingle mode.mirror (bits ^^^ signBit)) = (Single.value (toSingle mode bits)).negate := by
    rw [toSingle, value_flip]
    exact BinaryFormat.decode_round_mirror Single.isWidth mode isNumber
  have isNumberNarrow : Single.value (toSingle mode bits) ≠ .nan :=
    BinaryFormat.decode_round_ne_nan Single.isWidth mode isNumber
  rw [narrow, ofSingle, flipped]
  exact ofNumber_mirror .nearest isNumberNarrow

end Narrow

end Double

namespace Precision

variable (precision : Precision) (mode : RoundingMode) {bits : Doubleword}

theorem value_deliver_eq_nan_iff :
    Double.value (precision.deliver mode bits) = .nan ↔ Double.value bits = .nan := by
  cases precision with
  | double => rfl
  | single => exact Double.value_narrow_eq_nan_iff mode

theorem deliver_mirror (isNumber : Double.value bits ≠ .nan) :
    precision.deliver mode.mirror (bits ^^^ Double.signBit) = precision.deliver mode bits ^^^ Double.signBit := by
  cases precision with
  | double => rfl
  | single => exact Double.narrow_mirror mode isNumber

theorem deliver_zero : precision.deliver mode 0 = 0 := by
  cases precision with
  | double => rfl
  | single => cases mode <;> decide

end Precision

/-- The product of the factors is exactly the number subtracted from it, in value and in
sign. The difference is then a zero that is not the sum of like zeros. -/
structure Sources.Cancels (sources : Sources) : Prop where
  isFiniteA : (Double.value sources.a).isFinite = true
  isFiniteB : (Double.value sources.b).isFinite = true
  isFiniteC : (Double.value sources.c).isFinite = true
  same : (Double.value sources.a).toReal * (Double.value sources.c).toReal = (Double.value sources.b).toReal
  sign : ((Double.value sources.a).negative != (Double.value sources.c).negative) = (Double.value sources.b).negative

namespace Sources

variable (sources : Sources)

def product : Number :=
  (Double.value sources.a).mul (Double.value sources.c)

def subtrahend : Number :=
  (Double.value sources.b).negate

theorem cancels_iff : sources.Cancels ↔ sources.product.Cancels sources.subtrahend := by
  constructor
  · intro cancels
    obtain ⟨isFinite, value, sign⟩ := Number.mul_exact cancels.isFiniteA cancels.isFiniteC
    refine ⟨isFinite, Number.isFinite_negate cancels.isFiniteB, ?_, ?_⟩
    · rw [product, subtrahend, sign, Number.negative_negate_of_isFinite cancels.isFiniteB, cancels.sign, Bool.not_not]
    · rw [product, subtrahend, value, Number.toReal_negate, cancels.same, add_neg_cancel]
  · intro cancels
    obtain ⟨isFiniteA, isFiniteC⟩ := Number.isFinite_mul_iff.mp cancels.isFiniteX
    obtain ⟨-, value, sign⟩ := Number.mul_exact isFiniteA isFiniteC
    have isFiniteB : (Double.value sources.b).isFinite = true := by
      rw [← Number.negate_negate (Double.value sources.b)]
      exact Number.isFinite_negate cancels.isFiniteY
    have sameSign := cancels.sign
    have same := cancels.sum
    rw [product, subtrahend, sign, Number.negative_negate_of_isFinite isFiniteB, Bool.not_not] at sameSign
    rw [product, subtrahend, value, Number.toReal_negate, ← sub_eq_add_neg, sub_eq_zero] at same
    exact ⟨isFiniteA, isFiniteB, isFiniteC, same, sameSign⟩

end Sources

namespace Arithmetic

variable (precision : Precision) (mode : RoundingMode) (sources : Sources)

theorem result_sub : (fused .sub precision).result mode sources =
    precision.deliver mode (Double.ofNumber mode (sources.product.add mode sources.subtrahend)) := by
  rw [result, FusedKind.apply, Double.fusedMultiplyAdd, Double.value_negate]
  rfl

theorem result_negatedSub : (fused .negatedSub precision).result mode sources =
    precision.deliver mode
      (Double.ofNumber mode (sources.product.negate.add mode sources.subtrahend.negate)) := by
  rw [result, FusedKind.apply, Double.fusedMultiplyAdd, Double.value_negate, Number.mul_negate, Sources.subtrahend,
    Number.negate_negate]
  rfl

theorem result_negatedSub_eq_nan_iff (other : RoundingMode) :
    Double.value ((fused .negatedSub precision).result mode sources) = .nan ↔
      Double.value ((fused .sub precision).result other sources) = .nan := by
  rw [result_sub, result_negatedSub, precision.value_deliver_eq_nan_iff, precision.value_deliver_eq_nan_iff,
    Double.value_ofNumber_eq_nan_iff, Double.value_ofNumber_eq_nan_iff, Number.add_negate_eq_nan_iff mode other]

/-- The negated difference is the difference with its sign bit flipped, once both are rounded
in opposite directions. -/
theorem result_negatedSub_mirror (regular : mode.mirror = mode → ¬ sources.Cancels)
    (isNumber : Double.value ((fused .sub precision).result mode.mirror sources) ≠ .nan) :
    (fused .negatedSub precision).result mode sources =
      (fused .sub precision).result mode.mirror sources ^^^ Double.signBit := by
  rw [result_sub, Ne, precision.value_deliver_eq_nan_iff] at isNumber
  have isNumberSum := isNumber
  rw [Double.value_ofNumber_eq_nan_iff] at isNumberSum
  have regularMirror : mode.mirror.mirror = mode.mirror → ¬ sources.product.Cancels sources.subtrahend := by
    rw [mode.mirror_mirror, ← sources.cancels_iff]
    exact fun same => regular same.symm
  have mirrored := Number.add_mirror mode.mirror regularMirror
  rw [mode.mirror_mirror] at mirrored
  have rounded := Double.ofNumber_mirror mode.mirror isNumberSum
  have delivered := precision.deliver_mirror mode.mirror isNumber
  rw [mode.mirror_mirror] at rounded delivered
  rw [result_negatedSub, result_sub, mirrored, rounded, delivered]

theorem result_of_cancels (symmetric : mode.mirror = mode) (cancels : sources.Cancels) :
    (fused .sub precision).result mode sources = 0 ∧ (fused .negatedSub precision).result mode sources = 0 := by
  have positive : decide (mode = .towardNegInf) = false := by
    cases mode with
    | nearest | towardZero => rfl
    | towardPosInf | towardNegInf => cases symmetric
  have sum := sources.cancels_iff.mp cancels
  obtain ⟨unit, zero⟩ := Number.add_of_cancels mode sum
  obtain ⟨unitNegated, zeroNegated⟩ := Number.add_of_cancels mode sum.negate
  rw [positive] at zero zeroNegated
  rw [result_sub, result_negatedSub, zero, zeroNegated, Double.ofNumber_zero, Double.ofNumber_zero,
    precision.deliver_zero]
  exact ⟨rfl, rfl⟩

end Arithmetic

end PowerFpu
