import PowerFpu.Proofs.Core.Request
import PowerFpu.Proofs.Float.IntegerPart
import PowerFpu.Proofs.Fpscr.Summaries

/-! The integer that a conversion delivers, and the inputs that have one. -/

set_option autoImplicit false

namespace PowerFpu

section

open BinaryFormat (double)

/-- The integer that a mode makes of a real number. To nearest, halves go up. -/
noncomputable def RoundingMode.integerOf (mode : RoundingMode) (x : ℝ) : ℤ :=
  match mode with
  | .nearest => ⌊x + (1 / 2 : ℚ)⌋
  | .towardZero => if 0 ≤ x then ⌊x⌋ else ⌈x⌉
  | .towardPosInf => ⌈x⌉
  | .towardNegInf => ⌊x⌋

structure Double.HasWord (bits : Doubleword) : Prop where
  isNumber : value bits ≠ .nan
  atLeast : ((-2 ^ 31 : ℝ) : EReal) ≤ (value bits).toEReal
  atMost : (value bits).toEReal ≤ ((2 ^ 31 - 1 : ℝ) : EReal)

namespace RoundingMode

theorem integerOf_bounds (mode : RoundingMode) {x : ℝ} (atLeast : -2 ^ 31 ≤ x) (atMost : x ≤ 2 ^ 31 - 1) :
    -2 ^ 31 ≤ mode.integerOf x ∧ mode.integerOf x < 2 ^ 31 := by
  have floorBounds {y : ℝ} (least : -2 ^ 31 ≤ y) (most : y < 2 ^ 31) : -2 ^ 31 ≤ ⌊y⌋ ∧ ⌊y⌋ < 2 ^ 31 := by
    refine ⟨Int.le_floor.mpr ?_, Int.floor_lt.mpr ?_⟩
    · push_cast
      linarith
    · push_cast
      linarith
  have ceilBounds : -2 ^ 31 ≤ ⌈x⌉ ∧ ⌈x⌉ < 2 ^ 31 := by
    refine ⟨Int.le_ceil_iff.mpr ?_, Int.lt_of_le_sub_one (Int.ceil_le.mpr ?_)⟩
    · push_cast
      linarith
    · push_cast
      linarith
  cases mode with
  | nearest =>
    refine floorBounds ?_ ?_
    · push_cast
      linarith
    · push_cast
      linarith
  | towardZero =>
    unfold integerOf
    dsimp only
    split
    · exact floorBounds atLeast (by linarith)
    · exact ceilBounds
  | towardPosInf => exact ceilBounds
  | towardNegInf => exact floorBounds atLeast (by linarith)

end RoundingMode

namespace Conversion

/-- The integer that a conversion stores for an input that has one. Rounding to nearest
adds a half in the mode of the host, and the sum is rounded: the predecessor of one half
is lifted to one when that mode rounds the sum up. -/
noncomputable def integer (mode host : RoundingMode) (input : Doubleword) : ℤ :=
  if mode = .nearest ∧ input = 0x3FDFFFFFFFFFFFFF ∧ (host = .nearest ∨ host = .towardPosInf) then 1
  else mode.integerOf (Double.value input).toReal

end Conversion

namespace Double

variable {input : Doubleword}

theorem HasWord.isFinite (hasWord : HasWord input) : (value input).isFinite = true := by
  obtain ⟨isNumber, atLeast, atMost⟩ := hasWord
  cases isValue : value input with
  | nan => exact absurd isValue isNumber
  | finite negative significand exponent => rfl
  | infinity negative =>
    rw [isValue] at atLeast atMost
    cases negative with
    | false => exact absurd atMost (EReal.coe_lt_top _).not_ge
    | true => exact absurd atLeast (EReal.bot_lt_coe _).not_ge

theorem HasWord.bounds (hasWord : HasWord input) :
    -2 ^ 31 ≤ (value input).toReal ∧ (value input).toReal ≤ 2 ^ 31 - 1 := by
  have isReal := Number.toEReal_of_isFinite hasWord.isFinite
  obtain ⟨-, atLeast, atMost⟩ := hasWord
  rw [isReal, EReal.coe_le_coe_iff] at atLeast atMost
  exact ⟨atLeast, atMost⟩

theorem value_predecessor_of_half : value 0x3FDFFFFFFFFFFFFF = .finite false (2 ^ 53 - 1) (-54) := by decide

theorem eq_predecessor_of_half (isFinite : (value input).isFinite = true)
    (same : (value input).toReal = dyadic (2 ^ 53 - 1) (-54)) : input = 0x3FDFFFFFFFFFFFFF := by
  have isNumber := Number.ne_nan_of_isFinite isFinite
  have sign : input.msb = (value input).negative := BinaryFormat.msb_eq_negative isWidth isNumber
  have positive : (value input).negative = false := by
    cases isValue : value input with
    | nan | infinity negative =>
      rw [isValue] at isFinite
      cases isFinite
    | finite negative significand exponent =>
      cases negative with
      | false => rfl
      | true =>
        rw [isValue] at same
        have nonpos := neg_nonpos.mpr (dyadic_nonneg significand exponent)
        exact absurd (same.symm.trans_le nonpos) (dyadic_pos (by norm_num) _).not_ge
  refine BinaryFormat.eq_of_toEReal isWidth (sign.trans positive) isNumber (by decide) ?_
  change (value input).toEReal = (value 0x3FDFFFFFFFFFFFFF).toEReal
  rw [value_predecessor_of_half, Number.toEReal_of_isFinite isFinite, same]
  rfl

end Double

section Nearest
variable (host : RoundingMode)

theorem toInteger_predecessor_of_half :
    RoundingMode.nearest.toInteger host 0x3FDFFFFFFFFFFFFF = Conversion.integer .nearest host 0x3FDFFFFFFFFFFFFF := by
  have lowers : RoundingMode.nearest.integerOf (Double.value 0x3FDFFFFFFFFFFFFF).toReal = 0 := by
    rw [Double.value_predecessor_of_half, RoundingMode.integerOf, Int.floor_eq_iff]
    norm_num [Number.toReal, dyadic]
  rw [Conversion.integer, lowers]
  cases host <;> decide +kernel

theorem toInteger_nearest {input : Doubleword} (hasWord : Double.HasWord input)
    (differs : input ≠ 0x3FDFFFFFFFFFFFFF) :
    RoundingMode.nearest.toInteger host input = ⌊(Double.value input).toReal + 1 / 2⌋ := by
  have isFinite := hasWord.isFinite
  obtain ⟨atLeast, atMost⟩ := hasWord.bounds
  have half : (Double.value Double.half).toReal = 1 / 2 := by
    rw [show Double.value Double.half = .finite false (2 ^ 52) (-53) by decide]
    norm_num [Number.toReal, dyadic]
  have rounds := (Double.add_roundsTo host isFinite (b := Double.half) (by decide)).1
  rw [half] at rounds
  have mem : (Double.value input).toReal ∈ double.finiteValues := ⟨input.toNat, isFinite, rfl⟩
  obtain ⟨isFiniteSum, same⟩ := BinaryFormat.floor_rounded_half mem
    (abs_le.mpr ⟨by linarith, by linarith⟩) rounds (fun same => differs (Double.eq_predecessor_of_half isFinite same))
  rw [RoundingMode.toInteger, Number.floor_eq isFiniteSum, same]

end Nearest

theorem RoundingMode.toInteger_eq (mode host : RoundingMode) {input : Doubleword} (hasWord : Double.HasWord input) :
    mode.toInteger host input = Conversion.integer mode host input := by
  have isFinite := hasWord.isFinite
  cases mode with
  | towardZero => exact Number.trunc_eq isFinite
  | towardPosInf => exact Number.ceil_eq isFinite
  | towardNegInf => exact Number.floor_eq isFinite
  | nearest =>
    by_cases special : input = 0x3FDFFFFFFFFFFFFF
    · rw [special, toInteger_predecessor_of_half]
    · rw [toInteger_nearest host hasWord special, Conversion.integer,
        if_neg (fun exceptional => special exceptional.2.1), integerOf]
      push_cast
      rfl

namespace Conversion

section Range
variable {input : Doubleword}

theorem below_iff (isNumber : Double.value input ≠ .nan) :
    ((Double.value input).compare? (.finite true 1 31) == some .lt) = true ↔
      (Double.value input).toEReal < ((-2 ^ 31 : ℝ) : EReal) := by
  have least : (Number.finite true 1 31).toEReal = ((-2 ^ 31 : ℝ) : EReal) :=
    congrArg Real.toEReal (by norm_num [Number.toReal, dyadic])
  rw [beq_iff_eq, (Number.compare?_iff isNumber Number.noConfusion).1, least]

theorem above_iff (isNumber : Double.value input ≠ .nan) :
    ((Double.value input).compare? (.finite false 0x7FFFFFFF 0) == some .gt) = true ↔
      ((2 ^ 31 - 1 : ℝ) : EReal) < (Double.value input).toEReal := by
  have most : (Number.finite false 0x7FFFFFFF 0).toEReal = ((2 ^ 31 - 1 : ℝ) : EReal) :=
    congrArg Real.toEReal (by norm_num [Number.toReal, dyadic])
  rw [beq_iff_eq, (Number.compare?_iff isNumber Number.noConfusion).2, most]

variable (mode host : RoundingMode) (bits : Word)

theorem integer_bounds (hasWord : Double.HasWord input) :
    -2 ^ 31 ≤ integer mode host input ∧ integer mode host input < 2 ^ 31 := by
  unfold integer
  split
  next => norm_num
  next => exact mode.integerOf_bounds hasWord.bounds.1 hasWord.bounds.2

theorem toIntegerOutcome_of_hasWord (hasWord : Double.HasWord input) :
    toIntegerOutcome mode host input bits =
      .completed ⟨bits, some (boxInteger (.ofInt 32 (integer mode host input))), none⟩ := by
  obtain ⟨isNumber, atLeast, atMost⟩ := id hasWord
  simp only [toIntegerOutcome, Number.isNan_of_ne_nan isNumber, Bool.false_or, below_iff isNumber,
    above_iff isNumber, if_neg atLeast.not_gt, if_neg atMost.not_gt, mode.toInteger_eq host hasWord]

theorem toIntegerOutcome_of_not_hasWord (hasNone : ¬ Double.HasWord input) :
    toIntegerOutcome mode host input bits =
      invalid input (if ((2 ^ 31 - 1 : ℝ) : EReal) < (Double.value input).toEReal then 0xFFF800007FFFFFFF
        else 0xFFF8000080000000) bits := by
  by_cases isNumber : Double.value input = .nan
  · have isZero : ¬ ((2 ^ 31 - 1 : ℝ) : EReal) < (0 : EReal) := by
      rw [← EReal.coe_zero, EReal.coe_lt_coe_iff]
      norm_num
    simp only [toIntegerOutcome, isNumber, Number.isNan, Bool.true_or, if_true, Number.toEReal, if_neg isZero]
    rfl
  · simp only [toIntegerOutcome, Number.isNan_of_ne_nan isNumber, Bool.false_or, below_iff isNumber,
      above_iff isNumber]
    -- The code looks below the range first, so the limit has to be told apart from that side.
    split
    next below =>
      have ordered : ((-2 ^ 31 : ℝ) : EReal) < ((2 ^ 31 - 1 : ℝ) : EReal) := EReal.coe_lt_coe_iff.mpr (by norm_num)
      rw [if_neg (below.trans ordered).not_gt]
      rfl
    next notBelow =>
      split
      next above => rfl
      next notAbove => exact absurd ⟨isNumber, not_lt.mp notBelow, not_lt.mp notAbove⟩ hasNone

end Range

end Conversion

end

/-! Conversion to an integer from the source register to the target register. -/

open Fpscr (fr fi vx vxcvi vxsnan fex ve Has)

namespace Machine

variable {σ : Type} (bus : Bus σ) (machine : Machine σ)

theorem toInteger_outcome (truncating : Bool) (operands : Operands) :
    machine.outcome? (.conversion (.toInteger truncating)) (operands.seenBy (.conversion (.toInteger truncating))) =
      some (Conversion.toIntegerOutcome (if truncating then .towardZero else .ofBits machine.core.fpscr.bits)
        (machine.core.fpscr.host.working machine.thread) (machine.core.fpr.get operands.rb)
        machine.core.fpscr.bits) := rfl

/-- A conversion to an integer, for every source and every FPSCR. An input with an integer
is stored as the signed word of that integer, which never wraps. Without one the causes
are noted in the FPSCR and nothing else in it changes; then the nearest limit is stored,
or with VE on the conversion traps. The half of the nearest mode is added in the mode that
the thread has then: a native core adds it to nearest, a detached one as its thread rounds. -/
theorem integer_conversion {request : Request} {truncating : Bool} {operands : Operands}
    (decoded : request.operation? = some (.conversion (.toInteger truncating), operands)) :
    let bits := machine.core.fpscr.bits
    let mode := if truncating then .towardZero else .ofBits bits
    let host := machine.core.fpscr.host.working machine.thread
    let input := machine.core.fpr.get operands.rb
    let flagged := (bits &&& ~~~(fr ||| fi)) ||| (vx ||| vxcvi) |||
      (if Double.isSignaling input then vxsnan else 0)
    let limit : Doubleword := if ((2 ^ 31 - 1 : ℝ) : EReal) < (Double.value input).toEReal then 0xFFF800007FFFFFFF
      else 0xFFF8000080000000
    let step := machine.perform bus request
    (Double.HasWord input →
      step.result = .ok () ∧ step.machine.core.fpscr.bits = bits ∧
        ∃ word : Word, word.toInt = Conversion.integer mode host input ∧
          step.machine.core.fpr = machine.core.fpr.set operands.rd ((0xFFF80000 : Word) ++ word)) ∧
    (¬ Double.HasWord input → bits &&& ve = 0 →
      step.result = .ok () ∧ step.machine.core.fpscr.bits = flagged ∧
        step.machine.core.fpr = machine.core.fpr.set operands.rd limit) ∧
    (¬ Double.HasWord input → bits &&& ve ≠ 0 →
      step.result = .error .floatingPointEnabled ∧ step.machine.core.fpscr.bits = flagged ||| fex ∧
        step.machine.core.fpr = machine.core.fpr) ∧
    ∀ rounding, machine.RoundsIn rounding → truncating = false → mode = .nearest → host = .nearest := by
  intro bits mode host input flagged limit step
  have outcome := machine.toInteger_outcome truncating operands
  refine ⟨?_, ?_, ?_, ?_⟩
  · intro hasWord
    rw [Conversion.toIntegerOutcome_of_hasWord _ _ _ hasWord] at outcome
    obtain ⟨result, same, fpr, -⟩ := perform_completed bus decoded outcome
    obtain ⟨least, most⟩ := Conversion.integer_bounds mode host hasWord
    exact ⟨result, same, _, BitVec.toInt_ofInt_eq_self (by decide) least most, fpr⟩
  · intro hasNone disabled
    rw [Conversion.toIntegerOutcome_of_not_hasWord _ _ _ hasNone,
      Conversion.invalid_of_disabled _ (not_not.mpr disabled)] at outcome
    obtain ⟨result, same, fpr, -⟩ := perform_completed bus decoded outcome
    exact ⟨result, same, fpr⟩
  · intro hasNone enabled
    rw [Conversion.toIntegerOutcome_of_not_hasWord _ _ _ hasNone, Conversion.invalid_of_enabled _ enabled] at outcome
    obtain ⟨result, same, fpr, -⟩ := perform_trapped bus decoded outcome
    exact ⟨result, same, fpr⟩
  · intro rounding rounds notTruncating toNearest
    have isMode : mode = .ofBits bits := if_neg (by rw [notTruncating]; exact Bool.false_ne_true)
    have isHost : host = rounding := rounds.working
    cases rounds with
    | native saved isNative => rw [isHost, ← isMode, toNearest]
    | detached guest isDetached onNearest => exact isHost

/-- The predecessor of one half becomes one. A signalling NaN traps with VE on. -/
theorem integer_conversion_of_predecessor_and_trap :
    (let machine := resting 0 (.native .nearest none) (Bank.zero.set 2 0x3FDFFFFFFFFFFFFF)
     (machine.perform Memory.bus (.word 0xFC60101C)).machine.core.fpr.get 3 = 0xFFF8000000000001) ∧
    (let machine := resting 0x80 (.detached .nearest) (Bank.zero.set 2 0x7FF0000000000001)
     let step := machine.perform Memory.bus (.word 0xFC60101C)
     step.result = .error .floatingPointEnabled ∧ step.machine.core.fpscr.bits = 0x61000180) := by
  have decoded : (Request.word 0xFC60101C).operation? =
      some (.conversion (.toInteger false), .decode 0xFC60101C) := by decide
  constructor
  · intro machine
    have input : machine.core.fpr.get 2 = 0x3FDFFFFFFFFFFFFF := Bank.get_set_self _ _ _
    have hasWord : Double.HasWord (machine.core.fpr.get 2) := by
      rw [input]
      refine ⟨by decide, ?_, ?_⟩
      · rw [Double.value_predecessor_of_half, Number.toEReal_of_isFinite rfl, EReal.coe_le_coe_iff]
        norm_num [Number.toReal, dyadic]
      · rw [Double.value_predecessor_of_half, Number.toEReal_of_isFinite rfl, EReal.coe_le_coe_iff]
        norm_num [Number.toReal, dyadic]
    obtain ⟨-, -, word, isInteger, fpr⟩ := (machine.integer_conversion Memory.bus decoded).1 hasWord
    have isOne : word = 1 := by
      apply BitVec.eq_of_toInt_eq
      rw [isInteger]
      exact if_pos ⟨by decide, input, .inl (by decide)⟩
    rw [fpr, isOne]
    exact Bank.get_set_self _ _ _
  · intro machine step
    have hasNone : ¬ Double.HasWord (machine.core.fpr.get 2) := fun hasWord => hasWord.isNumber (by decide)
    obtain ⟨result, bits, -⟩ := (machine.integer_conversion Memory.bus decoded).2.2.1 hasNone (by decide)
    refine ⟨result, bits.trans ?_⟩
    decide

/-- A detached core adds the half in the mode of its thread, whatever RN says. On a thread
that rounds toward zero the predecessor of one half becomes zero. -/
theorem predecessor_of_half_toward_zero :
    let machine :=
      { resting 0 (.detached .nearest) (Bank.zero.set 2 0x3FDFFFFFFFFFFFFF) with thread := .towardZero }
    let step := machine.perform Memory.bus (.word 0xFC60101C)
    machine.core.fpscr.rounding = .nearest ∧ step.result = .ok () ∧
      step.machine.core.fpr.get 3 = 0xFFF8000000000000 ∧
      ¬ ∀ machine : Machine Memory, machine.core.fpscr.rounding = .nearest →
        machine.core.fpr.get 2 = 0x3FDFFFFFFFFFFFFF →
          (machine.perform Memory.bus (.word 0xFC60101C)).machine.core.fpr.get 3 = 0xFFF8000000000001 := by
  intro machine step
  have isZero : step.machine.core.fpr.get 3 = 0xFFF8000000000000 := by decide +kernel
  have toNearest : machine.core.fpscr.rounding = .nearest := by decide
  refine ⟨toNearest, by decide +kernel, isZero, ?_⟩
  intro always
  have isOne := always machine toNearest (Bank.get_set_self _ _ _)
  exact absurd (isZero.symm.trans isOne) (by decide)

end Machine

end PowerFpu
