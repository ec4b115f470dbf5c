import PowerFpu.Proofs.Core.ControlWrites
import PowerFpu.Proofs.Core.FusedExceptions
import PowerFpu.Proofs.Core.ResultDescription
import PowerFpu.Proofs.Float.SingleRounding

/-! The negated forms of the fused operations, next to the forms that they negate. -/

set_option autoImplicit false

namespace PowerFpu

/-! The negated difference of a product and a number.

Its first factor changes sign before anything is rounded. It is therefore the difference
rounded in the mirrored mode with its sign bit flipped, which is not the flipped difference
of the same mode where the direction of rounding matters or where the terms cancel. -/

namespace Machine

variable {σ : Type} (bus : Bus σ) {machine mirrored : Machine σ}

/-- Unless the terms cancel in a mode that is its own mirror, which leaves a positive zero on
both sides, the negated difference is the difference of the mirrored mode with its sign bit
flipped. It is the flipped difference of the same mode if, in addition, the direction of
rounding does not matter, and never otherwise. -/
theorem negated_difference_flips_iff {mode : RoundingMode}
    (working : machine.core.fpscr.host.working machine.thread = mode)
    (workingMirrored : mirrored.core.fpscr.host.working mirrored.thread = mode.mirror)
    (sameRegisters : mirrored.core.fpr = machine.core.fpr)
    {precision : Precision} {difference negation : Request} {operands operandsNegated : Operands}
    (decoded : difference.operation? = some (.arithmetic (.fused .sub precision), operands))
    (decodedNegated : negation.operation? = some (.arithmetic (.fused .negatedSub precision), operandsNegated))
    (sameSources : machine.sources operandsNegated = machine.sources operands) :
    let stored := (machine.perform bus difference).machine.core.fpr.get operands.rd
    let storedMirrored := (mirrored.perform bus difference).machine.core.fpr.get operands.rd
    let storedNegated := (machine.perform bus negation).machine.core.fpr.get operandsNegated.rd
    let unsigned := mode.mirror = mode ∧ (machine.sources operands).Cancels
    (machine.perform bus difference).result = .ok () ∧
      (machine.perform bus negation).result = .ok () ∧
      (Double.value storedNegated = .nan ↔ Double.value stored = .nan) ∧
      (Double.value stored ≠ .nan →
        (storedNegated = stored ^^^ Double.signBit ↔ ¬ unsigned ∧ storedMirrored = stored) ∧
        (unsigned → stored = 0 ∧ storedNegated = 0) ∧
        (¬ unsigned → storedNegated = storedMirrored ^^^ Double.signBit)) := by
  intro stored storedMirrored storedNegated unsigned
  obtain ⟨result, isStored⟩ := perform_arithmetic_working bus working decoded
  obtain ⟨-, isMirrored⟩ := perform_arithmetic_working bus workingMirrored decoded
  obtain ⟨resultNegated, isNegated⟩ := perform_arithmetic_working bus working decodedNegated
  have sourcesMirrored : mirrored.sources operands = machine.sources operands := by
    simp only [Machine.sources, sameRegisters]
  rw [sourcesMirrored] at isMirrored
  rw [sameSources] at isNegated
  change stored = _ at isStored
  change storedMirrored = _ at isMirrored
  change storedNegated = _ at isNegated
  have sameNan (other : RoundingMode) :=
    Arithmetic.result_negatedSub_eq_nan_iff precision mode (machine.sources operands) other
  rw [← isNegated] at sameNan
  have sameNanStored : Double.value storedNegated = .nan ↔ Double.value stored = .nan := isStored ▸ sameNan mode
  refine ⟨result, resultNegated, sameNanStored, fun isNumber => ?_⟩
  have zeros (cancels : unsigned) : stored = 0 ∧ storedNegated = 0 := by
    rw [isStored, isNegated]
    exact Arithmetic.result_of_cancels precision mode _ cancels.1 cancels.2
  have flipped (regular : ¬ unsigned) : storedNegated = storedMirrored ^^^ Double.signBit := by
    have isNumberMirrored := mt (sameNan mode.mirror).mpr (mt sameNanStored.mp isNumber)
    rw [isNegated, isMirrored]
    exact Arithmetic.result_negatedSub_mirror precision mode _ (not_and.mp regular) isNumberMirrored
  refine ⟨?_, zeros, flipped⟩
  by_cases cancels : unsigned
  · obtain ⟨zero, zeroNegated⟩ := zeros cancels
    rw [zero, zeroNegated]
    exact iff_of_false (by decide) fun regular => regular.1 cancels
  · rw [flipped cancels, BitVec.xor_left_inj, and_iff_right cancels]

/-- One minus a tiny number is one when rounded upward. Its negation, rounded upward, is the
flipped difference rounded downward. -/
theorem negated_difference_flips_downward :
    let registers := ((Bank.zero.set 1 Double.one).set 2 0x3C30000000000000).set 4 Double.one
    let upward := resting 2 (.native .towardPosInf none) registers
    let downward := resting 3 (.native .towardNegInf none) registers
    let stored (machine : Machine Memory) (word : Word) :=
      (machine.perform Memory.bus (.word word)).machine.core.fpr.get 3
    stored upward 0xFC611138 = Double.one ∧
      stored upward 0xFC61113C = stored downward 0xFC611138 ^^^ Double.signBit := by
  intro registers upward downward stored
  have difference : (Request.word 0xFC611138).operation? =
      some (.arithmetic (.fused .sub .double), .decode 0xFC611138) := by decide
  have negated : (Request.word 0xFC61113C).operation? =
      some (.arithmetic (.fused .negatedSub .double), .decode 0xFC61113C) := by decide
  have working : upward.core.fpscr.host.working upward.thread = .towardPosInf := rfl
  have isOne : stored upward 0xFC611138 = Double.one :=
    (perform_arithmetic_working Memory.bus working difference).2.trans (by decide)
  obtain ⟨-, -, -, described⟩ := negated_difference_flips_iff Memory.bus working
    (show downward.core.fpscr.host.working downward.thread = .towardNegInf from rfl) rfl difference negated rfl
  change Double.value (stored upward 0xFC611138) ≠ .nan → _ at described
  rw [isOne] at described
  exact ⟨isOne, (described (by decide)).2.2 fun unsigned => by cases unsigned.1⟩

/-- Equal terms leave a positive zero with and without the negation. Rounding upward takes
the difference of one and a tiny number to one, and its negation to the next double above
minus one. -/
theorem negated_difference_not_flipped :
    let ones := ((Bank.zero.set 1 Double.one).set 2 Double.one).set 4 Double.one
    let cancelling := resting 0 (.native .nearest none) ones
    let directed := resting 2 (.native .towardPosInf none) (ones.set 2 0x3C30000000000000)
    let stored (machine : Machine Memory) (word : Word) :=
      (machine.perform Memory.bus (.word word)).machine.core.fpr.get 3
    stored cancelling 0xFC611138 = 0 ∧ stored cancelling 0xFC61113C = 0 ∧
      stored directed 0xFC611138 = Double.one ∧ stored directed 0xFC61113C = 0xBFEFFFFFFFFFFFFF := by
  intro ones cancelling directed stored
  have difference : (Request.word 0xFC611138).operation? =
      some (.arithmetic (.fused .sub .double), .decode 0xFC611138) := by decide
  have negated : (Request.word 0xFC61113C).operation? =
      some (.arithmetic (.fused .negatedSub .double), .decode 0xFC61113C) := by decide
  have nearest : cancelling.core.fpscr.host.working cancelling.thread = .nearest := rfl
  have upward : directed.core.fpscr.host.working directed.thread = .towardPosInf := rfl
  refine ⟨?_, ?_, ?_, ?_⟩
  · exact (perform_arithmetic_working Memory.bus nearest difference).2.trans (by decide)
  · exact (perform_arithmetic_working Memory.bus nearest negated).2.trans (by decide)
  · exact (perform_arithmetic_working Memory.bus upward difference).2.trans (by decide)
  · exact (perform_arithmetic_working Memory.bus upward negated).2.trans (by decide)

end Machine

/-! The negated sum of a product and a number.

Its sign changes after it was rounded, so it is the sum with its sign bit flipped, in every
mode. The single form narrows once more after that, which keeps what was narrowed before. -/

open Fpscr (Agree Has less greater equal unordered resultClass fprf)

namespace Double

/-- Narrowing in any mode leaves the negation of a narrowed double as it is. -/
theorem narrow_negate_narrow (mode other : RoundingMode) (bits : Doubleword) :
    narrow other (negate (narrow mode bits)) = negate (narrow mode bits) := by
  by_cases isNan : value (narrow mode bits) = .nan
  · have isDefault : negate (narrow mode bits) = defaultNan := if_pos (Number.isNan_iff.mpr isNan)
    rw [isDefault]
    exact narrow_of_nan other (by decide)
  · have mirrored := narrow_mirror other.mirror isNan
    rw [other.mirror_mirror, narrow_narrow] at mirrored
    rw [negate_of_ne_nan isNan, mirrored]

end Double

namespace Number

theorem has_resultBits_negate (x : Number) :
    (Has (Fpscr.resultBits x.negate) less ↔ Has (Fpscr.resultBits x) greater) ∧
      (Has (Fpscr.resultBits x.negate) greater ↔ Has (Fpscr.resultBits x) less) ∧
      Agree (resultClass ||| equal ||| unordered) (Fpscr.resultBits x.negate) (Fpscr.resultBits x) := by
  cases x with
  | nan => decide
  | infinity negative => cases negative <;> decide
  | finite negative significand exponent =>
    simp only [negate, Fpscr.resultBits]
    split
    · decide
    · cases negative <;> decide

end Number

namespace Fpscr

/-- Two words that describe a number and its negation, and are the same otherwise. -/
structure Opposite (bits negated : Word) : Prop where
  outside : Agree (~~~fprf) negated bits
  less_iff : Has negated less ↔ Has bits greater
  greater_iff : Has negated greater ↔ Has bits less
  others : Agree (resultClass ||| equal ||| unordered) negated bits

theorem agree_fprf_classifyResult (result : Doubleword) (bits : Word) :
    Agree fprf (classifyResult result bits) (resultBits (Double.value result)) := by
  rw [Agree, classifyResult, replace_and (resultBits_within _), resultBits_within]

theorem opposite_classifyResult {result negated : Doubleword} (bits : Word)
    (negates : Double.value negated = (Double.value result).negate) :
    Opposite (classifyResult result bits) (classifyResult negated bits) := by
  have described := agree_fprf_classifyResult result bits
  have describedNegated := agree_fprf_classifyResult negated bits
  rw [negates] at describedNegated
  obtain ⟨lessIff, greaterIff, others⟩ := (Double.value result).has_resultBits_negate
  constructor
  · exact (agree_classifyResult negated bits (by decide)).trans (agree_classifyResult result bits (by decide)).symm
  · rw [(describedNegated.mono (by decide)).has, (described.mono (by decide)).has, lessIff]
  · rw [(describedNegated.mono (by decide)).has, (described.mono (by decide)).has, greaterIff]
  · exact ((describedNegated.mono (by decide)).trans others).trans (described.mono (by decide)).symm

end Fpscr

namespace Arithmetic

variable (precision : Precision) (mode : RoundingMode) (sources : Sources) (bits : Word)

theorem result_negatedAdd :
    (fused .negatedAdd precision).result mode sources = Double.negate ((fused .add precision).result mode sources) := by
  cases precision with
  | double => rfl
  | single => exact Double.narrow_negate_narrow mode mode _

/-- The exceptions do not depend on the sign of the sum, of which only a NaN is noticed. -/
theorem exceptionBits_negatedAdd :
    (fused .negatedAdd precision).exceptionBits mode sources bits =
      (fused .add precision).exceptionBits mode sources bits := by
  simp only [exceptionBits]
  split
  next isNan =>
    have isNanValue := Number.isNan_iff.mp isNan
    have same (kind : FusedKind) :=
      kind.check_invalidBits isNanValue (kind.value_apply_of_nan precision mode isNanValue)
    simp only [Fpscr.classifyOperands, same]
  next => rfl

theorem opposite_fpscrAfter_negatedAdd :
    Fpscr.Opposite ((fused .add precision).fpscrAfter mode sources bits)
      ((fused .negatedAdd precision).fpscrAfter mode sources bits) := by
  simp only [fpscrAfter, exceptionBits_negatedAdd]
  apply Fpscr.opposite_classifyResult
  rw [result_negatedAdd, Double.value_negate]

end Arithmetic

namespace Machine

variable {σ : Type} (bus : Bus σ) (machine : Machine σ)

theorem host_rewrite_congr {bits other : Word} (agree : Agree Fpscr.rn bits other) :
    (machine.rewrite bits).core.fpscr.host = (machine.rewrite other).core.fpscr.host := by
  simp only [rewrite_eq, Fpscr.heard, agree.ofBits]

theorem perform_arithmetic_fpscr {request : Request} {op : Arithmetic} {operands : Operands}
    (decoded : request.operation? = some (.arithmetic op, operands)) :
    (machine.perform bus request).machine.core.fpscr =
      (machine.rewrite (op.fpscrAfter (machine.core.fpscr.host.working machine.thread) (machine.sources operands)
        machine.core.fpscr.bits)).core.fpscr := by
  obtain ⟨-, change, same⟩ := machine.perform_decoded bus decoded
  rw [same, machine.dispatch_completed bus (.arithmetic op) operands rfl]
  rfl

/-- The negated sum is the sum negated, in every mode and with every environment. A sum that is a
number is stored with its sign bit flipped, and a NaN stays a NaN. The FPSCRs differ in the
description of the result, where less and greater are exchanged, and in nothing else. So what
the single form narrows after the sign has changed is left as it is. -/
theorem negated_sum_flips {precision : Precision} {sum negation : Request} {operands operandsNegated : Operands}
    (decoded : sum.operation? = some (.arithmetic (.fused .add precision), operands))
    (decodedNegated : negation.operation? = some (.arithmetic (.fused .negatedAdd precision), operandsNegated))
    (sameSources : machine.sources operandsNegated = machine.sources operands) :
    let after := (machine.perform bus sum).machine
    let afterNegated := (machine.perform bus negation).machine
    let stored := after.core.fpr.get operands.rd
    let storedNegated := afterNegated.core.fpr.get operandsNegated.rd
    (machine.perform bus sum).result = .ok () ∧
      (machine.perform bus negation).result = .ok () ∧
      (Double.value stored ≠ .nan → storedNegated = stored ^^^ Double.signBit) ∧
      (Double.value stored = .nan → Double.value storedNegated = .nan) ∧
      Fpscr.Opposite after.core.fpscr.bits afterNegated.core.fpscr.bits ∧
      afterNegated.core.fpscr.host = after.core.fpscr.host ∧
      ∀ (mode : RoundingMode) (bits : Doubleword),
        Double.narrow mode (Double.negate (Double.narrow mode bits)) = Double.negate (Double.narrow mode bits) := by
  intro after afterNegated stored storedNegated
  let mode := machine.core.fpscr.host.working machine.thread
  have working : machine.core.fpscr.host.working machine.thread = mode := rfl
  obtain ⟨result, isStored⟩ := perform_arithmetic_working bus working decoded
  obtain ⟨resultNegated, isNegated⟩ := perform_arithmetic_working bus working decodedNegated
  have isNegation : storedNegated = Double.negate stored := by
    rw [show storedNegated = _ from isNegated, sameSources, Arithmetic.result_negatedAdd, ← isStored]
  have fpscr : after.core.fpscr = _ := machine.perform_arithmetic_fpscr bus decoded
  have fpscrNegated : afterNegated.core.fpscr = _ := machine.perform_arithmetic_fpscr bus decodedNegated
  have opposite := Arithmetic.opposite_fpscrAfter_negatedAdd precision mode (machine.sources operands)
    machine.core.fpscr.bits
  refine ⟨result, resultNegated, ?_, ?_, ?_, ?_, fun mode bits => Double.narrow_negate_narrow mode mode bits⟩
  · intro isNumber
    rw [isNegation, Double.negate_of_ne_nan isNumber]
  · intro isNan
    rw [isNegation, Double.value_negate_of_nan isNan]
  · rw [fpscr, fpscrNegated, sameSources, rewrite_bits, rewrite_bits]
    exact opposite
  · rw [fpscr, fpscrNegated, sameSources]
    exact machine.host_rewrite_congr (opposite.outside.mono (by decide))

/-- One and a tiny number, in single precision and rounded upward. -/
theorem negated_sum_flips_upward :
    let registers := ((Bank.zero.set 1 Double.one).set 2 0x3C30000000000000).set 4 Double.one
    let machine := resting 2 (.native .towardPosInf none) registers
    let after := (machine.perform Memory.bus (.word 0xEC61113A)).machine
    let afterNegated := (machine.perform Memory.bus (.word 0xEC61113E)).machine
    after.core.fpr.get 3 = 0x3FF0000020000000 ∧ afterNegated.core.fpr.get 3 = 0xBFF0000020000000 ∧
      Has after.core.fpscr.bits greater ∧ Has afterNegated.core.fpscr.bits less := by
  intro registers machine after afterNegated
  have sum : (Request.word 0xEC61113A).operation? =
      some (.arithmetic (.fused .add .single), .decode 0xEC61113A) := by decide
  have negated : (Request.word 0xEC61113E).operation? =
      some (.arithmetic (.fused .negatedAdd .single), .decode 0xEC61113E) := by decide
  obtain ⟨-, -, flips, -, opposite, -⟩ := negated_sum_flips Memory.bus machine sum negated rfl
  have working : machine.core.fpscr.host.working machine.thread = .towardPosInf := rfl
  have stored : after.core.fpr.get 3 = 0x3FF0000020000000 :=
    (perform_arithmetic_working Memory.bus working sum).2.trans (by decide +kernel)
  change Double.value (after.core.fpr.get 3) ≠ .nan →
    afterNegated.core.fpr.get 3 = after.core.fpr.get 3 ^^^ Double.signBit at flips
  rw [stored] at flips
  have described : Has after.core.fpscr.bits greater := by decide +kernel
  exact ⟨stored, flips (by decide), described, opposite.less_iff.mpr described⟩

end Machine

end PowerFpu
