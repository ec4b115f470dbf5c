import PowerFpu.Proofs.Core.FusedExceptions
import PowerFpu.Proofs.Core.Run
import PowerFpu.Proofs.Execution.Comparison

/-! The estimate of a reciprocal square root, rounded twice.

Both roundings are of numbers far from the ends of the format: the root of a positive double
lies between two powers of two, and so does the reciprocal of what the root is rounded to. -/

set_option autoImplicit false

namespace PowerFpu

section

open BinaryFormat (double)

namespace BinaryFormat

theorem two_zpow_mem_double {exponent : ℤ} (least : -1074 ≤ exponent) (most : exponent < 1024) :
    (2 : ℝ) ^ exponent ∈ double.finiteValues := by
  have isDyadic : dyadic 1 exponent = (2 : ℝ) ^ exponent := by rw [dyadic, Nat.cast_one, one_mul]
  rw [← isDyadic]
  refine dyadic_mem_finiteValues (by decide) least ?_
  rw [isDyadic, double_magnitude_infinity, ← zpow_natCast]
  exact zpow_lt_zpow_right₀ one_lt_two most

theorem bounds_of_pos {value : ℝ} (mem : value ∈ double.finiteValues) (positive : 0 < value) :
    (2 : ℝ) ^ (-1074 : ℤ) ≤ value ∧ value ≤ 2 ^ (1024 : ℤ) := by
  constructor
  · obtain ⟨multiple, exponent, same, -, coarse, -, -⟩ := exists_multiple_of_mem mem
    have unitPositive : (0 : ℝ) < 2 ^ exponent := zpow_pos two_pos _
    rw [same] at positive ⊢
    have atLeastOne : (1 : ℝ) ≤ multiple := by
      have nonzero : (0 : ℝ) < multiple := pos_of_mul_pos_left positive unitPositive.le
      exact_mod_cast Int.cast_pos.mp nonzero
    calc
      (2 : ℝ) ^ (-1074 : ℤ) ≤ 2 ^ exponent := zpow_le_zpow_right₀ one_le_two coarse
      _ ≤ multiple * 2 ^ exponent := le_mul_of_one_le_left unitPositive.le atLeastOne
  · have below := abs_lt_of_mem_finiteValues mem
    rw [abs_of_pos positive, double_magnitude_infinity, ← zpow_natCast] at below
    exact below.le

end BinaryFormat

namespace Double

variable (mode : RoundingMode) {b : Doubleword}

theorem toReal_mem_finiteValues (isFinite : (value b).isFinite = true) :
    (value b).toReal ∈ double.finiteValues :=
  ⟨b.toNat, isFinite, rfl⟩

theorem sqrt_bounds (isFinite : (value b).isFinite = true) (positive : 0 < (value b).toReal) :
    (value (sqrt mode b)).isFinite = true ∧ (2 : ℝ) ^ (-537 : ℤ) ≤ (value (sqrt mode b)).toReal ∧
      (value (sqrt mode b)).toReal ≤ 2 ^ (512 : ℤ) := by
  obtain ⟨least, most⟩ := BinaryFormat.bounds_of_pos (toReal_mem_finiteValues isFinite) positive
  obtain ⟨rounded, -⟩ := sqrt_roundsTo mode isFinite positive.le
  have above : (2 : ℝ) ^ (-537 : ℤ) ≤ √(value b).toReal := by
    rw [Real.le_sqrt' (zpow_pos two_pos _), ← zpow_natCast, ← zpow_mul]
    exact least
  have below : √(value b).toReal ≤ 2 ^ (512 : ℤ) := by
    refine Real.sqrt_le_iff.mpr ⟨(zpow_pos two_pos _).le, ?_⟩
    rw [← zpow_natCast, ← zpow_mul]
    exact most
  exact rounded.between BinaryFormat.double_valid (BinaryFormat.two_zpow_mem_double (by decide) (by decide))
    (BinaryFormat.two_zpow_mem_double (by decide) (by decide)) (zpow_pos two_pos _).le above below

theorem value_one : (value one).isFinite = true ∧ (value one).toReal = 1 := by
  have decoded : value one = .finite false (2 ^ 52) (-52) := by decide
  rw [decoded]
  exact ⟨rfl, by norm_num [Number.toReal, dyadic]⟩

/-- The root is neither tiny nor huge, nor is the estimate, which is therefore a positive double. -/
theorem estimate_of_positive (isFinite : (value b).isFinite = true) (positive : 0 < (value b).toReal) :
    (value (div mode one (sqrt mode b))).isFinite = true ∧ 0 < (value (div mode one (sqrt mode b))).toReal := by
  obtain ⟨isFiniteRoot, least, most⟩ := sqrt_bounds mode isFinite positive
  obtain ⟨isFiniteOne, isOne⟩ := value_one
  have rootPositive : 0 < (value (sqrt mode b)).toReal := (zpow_pos two_pos _).trans_le least
  obtain ⟨rounded, -⟩ := div_roundsTo mode isFiniteOne isFiniteRoot rootPositive.ne'
  rw [isOne] at rounded
  have above : (2 : ℝ) ^ (-512 : ℤ) ≤ 1 / (value (sqrt mode b)).toReal := by
    rw [zpow_neg, ← one_div]
    exact one_div_le_one_div_of_le rootPositive most
  have below : 1 / (value (sqrt mode b)).toReal ≤ 2 ^ (537 : ℤ) := by
    have reciprocal := one_div_le_one_div_of_le (zpow_pos two_pos _) least
    rwa [zpow_neg, one_div (2 ^ (537 : ℤ))⁻¹, inv_inv] at reciprocal
  obtain ⟨isFiniteResult, aboveResult, -⟩ := rounded.between BinaryFormat.double_valid
    (BinaryFormat.two_zpow_mem_double (by decide) (by decide))
    (BinaryFormat.two_zpow_mem_double (by decide) (by decide)) (zpow_pos two_pos _).le above below
  exact ⟨isFiniteResult, (zpow_pos two_pos _).trans_le aboveResult⟩

theorem isZero_iff : (value b).isZero = true ↔ b ∈ [0, signBit] := by
  constructor
  · intro isZero
    have isNumber := Number.ne_nan_of_isFinite (Number.isFinite_of_isZero isZero)
    have zero := Number.toEReal_of_isZero isZero
    have same {other : Doubleword} (isOther : other ∈ [0, signBit]) (sign : b.msb = other.msb) : b = other := by
      obtain ⟨isNumberOther, zeroOther⟩ := value_of_zero isOther
      exact BinaryFormat.eq_of_toEReal isWidth sign isNumber isNumberOther (zero.trans zeroOther.symm)
    cases sign : b.msb with
    | false => exact List.mem_cons.mpr (.inl (same List.mem_cons_self sign))
    | true => exact List.mem_cons_of_mem 0 (List.mem_singleton.mpr (same (by decide) sign))
  · intro isZero
    simp only [List.mem_cons, List.not_mem_nil, or_false] at isZero
    rcases isZero with rfl | rfl
    · decide
    · decide

theorem msb_of_pos (isFinite : (value b).isFinite = true) (positive : 0 < (value b).toReal) : b.msb = false := by
  rw [BinaryFormat.msb_eq_negative isWidth (Number.ne_nan_of_isFinite isFinite)]
  change (value b).negative = false
  cases isB : value b with
  | nan | infinity negative =>
    rw [isB] at isFinite
    cases isFinite
  | finite negative significand exponent =>
    cases negative with
    | false => rfl
    | true =>
      rw [isB] at positive
      exact absurd positive (neg_nonpos.mpr (dyadic_nonneg significand exponent)).not_gt

/-- The operands without a root, those whose root has no reciprocal or no end, and all others. -/
theorem estimate_cases (b : Doubleword) :
    (value b = .nan ∨ (value b).toEReal < 0) ∨ b ∈ [0, signBit] ∨ value b = .infinity false ∨
      (value b).isFinite = true ∧ 0 < (value b).toReal := by
  cases isB : value b with
  | nan => exact .inl (.inl rfl)
  | infinity negative =>
    cases negative with
    | false => exact .inr (.inr (.inl rfl))
    | true => exact .inl (.inr EReal.bot_lt_zero)
  | finite negative significand exponent =>
    rw [Number.toEReal_of_isFinite rfl, EReal.coe_neg', ← isZero_iff, isB, Number.isZero_iff rfl]
    rcases lt_trichotomy (Number.finite negative significand exponent).toReal 0 with below | zero | positive
    · exact .inl (.inr below)
    · exact .inr (.inl zero)
    · exact .inr (.inr (.inr ⟨rfl, positive⟩))

theorem estimate_of_invalid (invalid : value b = .nan ∨ (value b).toEReal < 0) :
    div mode one (sqrt mode b) = defaultNan := by
  have root := sqrt_delivers mode b
  have none : (value b).idealRoot = .invalid := by
    rcases invalid with isNan | below
    · rw [isNan]
      rfl
    · cases isB : value b with
      | nan => rfl
      | infinity negative =>
        rw [isB] at below
        cases negative with
        | false => cases below.not_ge le_top
        | true => rfl
      | finite negative significand exponent =>
        rw [isB, Number.toEReal_of_isFinite rfl, EReal.coe_neg'] at below
        exact if_pos below
  rw [none] at root
  have isDefault : sqrt mode b = defaultNan := root
  rw [isDefault]
  cases mode <;> decide

theorem estimate_of_zero (isZero : b ∈ [0, signBit]) :
    value (div mode one (sqrt mode b)) = .infinity b.msb := by
  simp only [List.mem_cons, List.not_mem_nil, or_false] at isZero
  rcases isZero with rfl | rfl
  · cases mode <;> decide
  · cases mode <;> decide

theorem estimate_of_infinity (isInfinity : value b = .infinity false) : div mode one (sqrt mode b) = 0 := by
  rw [sqrt, isInfinity]
  cases mode <;> decide

/-- An estimate of the reciprocal square root of a double: a NaN where there is no root, an
infinity for a zero, and otherwise a finite number that is not negative. -/
structure EstimatesRoot (b estimate : Doubleword) : Prop where
  nan_iff : value estimate = .nan ↔ value b = .nan ∨ (value b).toEReal < 0
  infinite_iff : (value estimate).isInfinite = true ↔ b ∈ [0, signBit]
  sign : b ∈ [0, signBit] → value estimate = .infinity b.msb
  finite : ¬ (value b = .nan ∨ (value b).toEReal < 0) → b ∉ [0, signBit] →
    (value estimate).isFinite = true ∧ estimate.msb = false ∧
      ((value estimate).toReal = 0 ↔ value b = .infinity false)

theorem EstimatesRoot.of_isFinite {b estimate : Doubleword} (valid : ¬ (value b = .nan ∨ (value b).toEReal < 0))
    (nonzero : b ∉ [0, signBit]) (isFinite : (value estimate).isFinite = true) (sign : estimate.msb = false)
    (zeroIff : (value estimate).toReal = 0 ↔ value b = .infinity false) : EstimatesRoot b estimate where
  nan_iff := iff_of_false (Number.ne_nan_of_isFinite isFinite) valid
  infinite_iff := iff_of_false (Number.not_isInfinite_of_isFinite isFinite) nonzero
  sign := fun isZero => absurd isZero nonzero
  finite := fun _ _ => ⟨isFinite, sign, zeroIff⟩

theorem estimate_estimatesRoot (b : Doubleword) : EstimatesRoot b (div mode one (sqrt mode b)) := by
  have notZero (invalid : value b = .nan ∨ (value b).toEReal < 0) : b ∉ [0, signBit] := by
    intro isZero
    obtain ⟨isNumber, zero⟩ := value_of_zero isZero
    rw [zero] at invalid
    exact invalid.elim isNumber (lt_irrefl 0)
  rcases estimate_cases b with invalid | isZero | isInfinity | ⟨isFinite, positive⟩
  · have isDefault : value (div mode one (sqrt mode b)) = .nan := by
      rw [estimate_of_invalid mode invalid]
      decide
    constructor
    · exact iff_of_true isDefault invalid
    · rw [isDefault]
      exact iff_of_false Bool.false_ne_true (notZero invalid)
    · exact fun isZero => absurd isZero (notZero invalid)
    · exact fun valid => absurd invalid valid
  · have isInfinite := estimate_of_zero mode isZero
    constructor
    · rw [isInfinite]
      exact iff_of_false Number.noConfusion fun invalid => notZero invalid isZero
    · rw [isInfinite]
      exact iff_of_true rfl isZero
    · exact fun _ => isInfinite
    · exact fun _ nonzero => absurd isZero nonzero
  · rw [estimate_of_infinity mode isInfinity]
    refine .of_isFinite ?_ ?_ (by decide) (by decide) (iff_of_true ?_ isInfinity)
    · rw [isInfinity]
      rintro (isNan | below)
      · cases isNan
      · exact absurd below not_top_lt
    · rw [← isZero_iff, isInfinity]
      exact Bool.false_ne_true
    · exact (Number.isZero_iff (by decide)).mp (by decide)
  · obtain ⟨isFiniteEstimate, positiveEstimate⟩ := estimate_of_positive mode isFinite positive
    refine .of_isFinite ?_ ?_ isFiniteEstimate (msb_of_pos isFiniteEstimate positiveEstimate)
      (iff_of_false positiveEstimate.ne' ?_)
    · rw [Number.toEReal_of_isFinite isFinite, EReal.coe_neg']
      rintro (isNan | below)
      · exact Number.ne_nan_of_isFinite isFinite isNan
      · exact lt_asymm below positive
    · rw [← isZero_iff, Number.isZero_iff isFinite]
      exact positive.ne'
    · intro isInfinity
      rw [isInfinity] at isFinite
      cases isFinite

end Double

end

/-! The exceptions that the estimate of a reciprocal square root notes.

They are told from the operand in two places, by the check of roots and after it case by
case. Together they say what the result says: no root is an invalid operation, and a zero
is a division by zero. -/

open Fpscr (Agree Has Summarized derived fx recheckedBits summary vxidi vxsnan vxsqrt zx)

namespace Fpscr

def estimateFlags (invalid signaling zero : Bool) : Word :=
  (if invalid then fx ||| vxsqrt else 0) ||| (if signaling then fx ||| vxsnan else 0) |||
    (if zero then fx ||| zx else 0)

section Flags
variable (invalid signaling zero : Bool)

theorem has_estimateFlags_vxsqrt : Has (estimateFlags invalid signaling zero) vxsqrt ↔ invalid = true := by
  revert invalid signaling zero
  decide

theorem has_estimateFlags_vxsnan : Has (estimateFlags invalid signaling zero) vxsnan ↔ signaling = true := by
  revert invalid signaling zero
  decide

theorem has_estimateFlags_zx : Has (estimateFlags invalid signaling zero) zx ↔ zero = true := by
  revert invalid signaling zero
  decide

theorem has_estimateFlags_fx :
    Has (estimateFlags invalid signaling zero) fx ↔ invalid = true ∨ signaling = true ∨ zero = true := by
  revert invalid signaling zero
  decide

theorem not_has_estimateFlags_vxidi : ¬ Has (estimateFlags invalid signaling zero) vxidi := by
  revert invalid signaling zero
  decide

/-- The check, which knows NaNs and minus one, and then the first case that applies. -/
theorem check_or_case : ∀ nan minusOne signaling zero negative : Bool, (minusOne = true → negative = true) →
    (signaling = true → nan = true) → (nan = true → zero = false ∧ negative = false) →
    (zero = true → negative = false) →
    (if (nan || minusOne) = true then fx ||| vxsqrt else 0) |||
        (if signaling = true then fx ||| vxsnan else if zero = true then fx ||| zx
          else if negative = true then fx ||| vxsqrt else 0) =
      estimateFlags (nan || negative) signaling zero := by
  decide

end Flags

end Fpscr

def Double.estimateFlags (b : Doubleword) : Word :=
  Fpscr.estimateFlags (isNan b || (value b).isNegative) (isSignaling b) (value b).isZero

namespace Arithmetic

variable (mode : RoundingMode) (sources : Sources) (bits : Word)

theorem root_check_or_case (b : Doubleword) :
    OperandCheck.root.invalidBits 0 b |||
        (if Double.isSignaling b = true then fx ||| vxsnan else if (Double.value b).isZero = true then fx ||| zx
          else if (Double.value b).isNegative = true then fx ||| vxsqrt else 0) = Double.estimateFlags b := by
  apply Fpscr.check_or_case
  · intro isMinusOne
    rw [beq_iff_eq.mp isMinusOne]
    decide
  · exact fun isSignaling => (Bool.and_eq_true_iff.mp isSignaling).1
  · intro isNan
    rw [Number.isNan_iff.mp isNan]
    exact ⟨rfl, rfl⟩
  · intro isZero
    have notNegative := Number.isNegative_iff.not.mpr (Number.toEReal_of_isZero isZero).not_lt
    exact Bool.eq_false_of_not_eq_true notNegative

theorem agree_exceptionBits_rootEstimate :
    Agree (~~~summary) (rootEstimate.exceptionBits mode sources bits)
      ((bits &&& ~~~recheckedBits) ||| Double.estimateFlags sources.b) := by
  let checked := Fpscr.classifyOperands .root 0 sources.b bits
  let noted := if Double.isSignaling sources.b = true then fx ||| vxsnan
    else if (Double.value sources.b).isZero = true then fx ||| zx
    else if (Double.value sources.b).isNegative = true then fx ||| vxsqrt else 0
  have cases : rootEstimate.exceptionBits mode sources bits = Fpscr.summarize (checked ||| noted) := by
    simp only [exceptionBits, noted]
    split
    next => rfl
    next =>
      split
      next => rfl
      next =>
        split
        next => rfl
        next => exact congrArg Fpscr.summarize BitVec.or_zero.symm
  rw [cases, ← root_check_or_case, ← BitVec.or_assoc]
  exact (Fpscr.agree_summarize _).trans ((Fpscr.agree_classifyOperands .root 0 sources.b bits).or_right noted)

theorem agree_fpscrAfter_rootEstimate :
    Agree (~~~derived) (rootEstimate.fpscrAfter mode sources bits)
      ((bits &&& ~~~recheckedBits) ||| Double.estimateFlags sources.b) := by
  have described : Agree (~~~derived) (rootEstimate.fpscrAfter mode sources bits)
      (rootEstimate.exceptionBits mode sources bits) := Fpscr.agree_classifyResult _ _ (by decide)
  exact described.trans ((agree_exceptionBits_rootEstimate mode sources bits).mono (by decide))

section Flags
variable {flag : Word} (inside : flag &&& ~~~derived = flag)
include inside

/-- A flag that the check leaves alone is only added to. -/
theorem has_fpscrAfter_rootEstimate (apart : recheckedBits &&& flag = 0) :
    Has (rootEstimate.fpscrAfter mode sources bits) flag ↔
      Has bits flag ∨ Has (Double.estimateFlags sources.b) flag := by
  rw [((agree_fpscrAfter_rootEstimate mode sources bits).mono inside).has, Fpscr.has_or,
    (Fpscr.agree_clear recheckedBits apart).has]

theorem has_fpscrAfter_rootEstimate_rechecked (rechecked : flag &&& recheckedBits = flag) :
    Has (rootEstimate.fpscrAfter mode sources bits) flag ↔ Has (Double.estimateFlags sources.b) flag := by
  rw [((agree_fpscrAfter_rootEstimate mode sources bits).mono inside).has, Fpscr.has_or,
    or_iff_right (Fpscr.not_has_clear rechecked)]

end Flags

end Arithmetic

namespace Double.EstimatesRoot

variable {b estimate : Doubleword} (estimates : EstimatesRoot b estimate)
include estimates

theorem invalid_iff : (isNan b || (value b).isNegative) = true ↔ value estimate = .nan := by
  rw [Bool.or_eq_true, Number.isNegative_iff, estimates.nan_iff]
  exact or_congr_left Number.isNan_iff

theorem zero_iff : (value b).isZero = true ↔ (value estimate).isInfinite = true :=
  isZero_iff.trans estimates.infinite_iff.symm

theorem nan_of_signaling (signaling : isSignaling b = true) : value estimate = .nan :=
  estimates.nan_iff.mpr (.inl (Number.isNan_iff.mp (Bool.and_eq_true_iff.mp signaling).1))

end Double.EstimatesRoot

namespace Machine

variable {σ : Type}

/-- The flags of the estimate match its result, for every word, every operand and every mode. It
completes with a NaN where there is no root, an infinity of its sign for a zero, and a
finite number that is not negative for all other operands. VXSQRT is added for a NaN, ZX
for an infinity and VXSNAN for a signalling operand. FX tells of the first two and does not
outlive the check, nor does VXIDI, and the summaries are those of the final word. -/
theorem root_estimate_flags (bus : Bus σ) (machine : Machine σ) {request : Request} {operands : Operands}
    (decoded : request.operation? = some (.arithmetic .rootEstimate, operands)) :
    let step := machine.perform bus request
    let before := machine.core.fpscr.bits
    let after := step.machine.core.fpscr.bits
    let b := machine.core.fpr.get operands.rb
    let stored := step.machine.core.fpr.get operands.rd
    let isNan := Double.value stored = .nan
    let isInfinite := (Double.value stored).isInfinite = true
    step.result = .ok () ∧
      Double.EstimatesRoot b stored ∧
      (Has after vxsqrt ↔ Has before vxsqrt ∨ isNan) ∧
      (Has after zx ↔ Has before zx ∨ isInfinite) ∧
      (Has after vxsnan ↔ Has before vxsnan ∨ Double.isSignaling b = true) ∧
      (Has after fx ↔ isNan ∨ isInfinite) ∧
      ¬ Has after vxidi ∧
      Summarized after := by
  intro step before after b stored isNan isInfinite
  let sources := machine.sources operands
  let mode := machine.core.fpscr.host.working machine.thread
  have yields : machine.outcome? (.arithmetic .rootEstimate) (operands.seenBy (.arithmetic .rootEstimate)) =
      some (.completed (Arithmetic.rootEstimate.effect mode sources before)) := rfl
  obtain ⟨result, bits, -⟩ := perform_completed bus decoded yields
  have isStored : stored = Double.div mode Double.one (Double.sqrt mode b) :=
    (perform_arithmetic_working bus rfl decoded).2
  have estimates : Double.EstimatesRoot sources.b stored := by
    rw [isStored]
    exact Double.estimate_estimatesRoot mode b
  have word : after = Arithmetic.rootEstimate.fpscrAfter mode sources before := bits
  rw [word]
  refine ⟨result, estimates, ?_, ?_, ?_, ?_, ?_, ?_⟩
  · rw [Arithmetic.has_fpscrAfter_rootEstimate mode sources before (by decide) (by decide), Double.estimateFlags,
      Fpscr.has_estimateFlags_vxsqrt, estimates.invalid_iff]
  · rw [Arithmetic.has_fpscrAfter_rootEstimate mode sources before (by decide) (by decide), Double.estimateFlags,
      Fpscr.has_estimateFlags_zx, estimates.zero_iff]
  · rw [Arithmetic.has_fpscrAfter_rootEstimate mode sources before (by decide) (by decide), Double.estimateFlags,
      Fpscr.has_estimateFlags_vxsnan]
    exact Iff.rfl
  · rw [Arithmetic.has_fpscrAfter_rootEstimate_rechecked mode sources before (by decide) (by decide),
      Double.estimateFlags, Fpscr.has_estimateFlags_fx, estimates.invalid_iff, estimates.zero_iff]
    -- A signalling NaN has a NaN as its estimate, so it is told already.
    constructor
    · rintro (invalid | signaling | zero)
      · exact .inl invalid
      · exact .inl (estimates.nan_of_signaling signaling)
      · exact .inr zero
    · exact Or.imp_right .inr
  · rw [Arithmetic.has_fpscrAfter_rootEstimate_rechecked mode sources before (by decide) (by decide)]
    exact Fpscr.not_has_estimateFlags_vxidi _ _ _
  · have describes : Arithmetic.rootEstimate.describesResult = true := rfl
    exact Arithmetic.fpscrAfter_summarized describes mode sources before

/-- A signalling NaN, a negative zero and the least positive double rounded upward, each from a
word with FX, VXIDI and every enable. -/
theorem root_estimate_flags_of_nan_zero_and_least :
    let fpr : Bank 64 := ((Bank.zero.set 1 0x7FF0000000000001).set 2 Double.signBit).set 3 1
    let machine := resting 0x804000FA (.native .towardPosInf none) fpr
    let after (inst : Word) := (machine.perform Memory.bus (.word inst)).machine
    Has (after 0xFC800834).core.fpscr.bits vxsnan ∧ Has (after 0xFC800834).core.fpscr.bits vxsqrt ∧
      (after 0xFC801034).core.fpr.get 4 = 0xFFF0000000000000 ∧ Has (after 0xFC801034).core.fpscr.bits zx ∧
      (after 0xFC801834).core.fpr.get 4 = 0x6180000000000000 ∧ ¬ Has (after 0xFC801834).core.fpscr.bits fx := by
  intro fpr machine after
  have nan : (Request.word 0xFC800834).operation? = some (.arithmetic .rootEstimate, .decode 0xFC800834) := by decide
  have zero : (Request.word 0xFC801034).operation? = some (.arithmetic .rootEstimate, .decode 0xFC801034) := by decide
  have least : (Request.word 0xFC801834).operation? = some (.arithmetic .rootEstimate, .decode 0xFC801834) := by decide
  obtain ⟨-, ofNan, invalid, -, signaling, -⟩ := root_estimate_flags Memory.bus machine nan
  obtain ⟨-, ofZero, -, zeroDivide, -⟩ := root_estimate_flags Memory.bus machine zero
  obtain ⟨-, -, -, -, -, any, -⟩ := root_estimate_flags Memory.bus machine least
  have isZero : machine.core.fpr.get 2 ∈ [0, Double.signBit] := by decide
  have stored : (after 0xFC801834).core.fpr.get 4 = 0x6180000000000000 := by decide +kernel
  refine ⟨signaling.mpr (.inr (by decide)), invalid.mpr (.inr (ofNan.nan_iff.mpr (.inl (by decide)))), ?_,
    zeroDivide.mpr (.inr (ofZero.infinite_iff.mpr isZero)), stored, ?_⟩
  · exact Double.eq_of_value (by decide) ((ofZero.sign isZero).trans (by decide))
  · refine any.not.mpr ?_
    change ¬ (Double.value ((after 0xFC801834).core.fpr.get 4) = .nan ∨
      (Double.value ((after 0xFC801834).core.fpr.get 4)).isInfinite = true)
    rw [stored]
    decide

end Machine

end PowerFpu
