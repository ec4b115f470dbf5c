import PowerFpu.Proofs.Core.Request
import PowerFpu.Proofs.Float.SingleRounding

/-! Double arithmetic of a native core is correctly rounded in the mode of RN. -/

set_option autoImplicit false

namespace PowerFpu

namespace Arithmetic

/-- The exact result of an operation on finite doubles, with the sign of the result. -/
inductive Exact (mode : RoundingMode) (sources : Sources) : Arithmetic → ℝ → Bool → Prop where
  | add (isFiniteA : (Double.value sources.a).isFinite = true)
      (isFiniteB : (Double.value sources.b).isFinite = true) :
      Exact mode sources (.binary .add .double)
        ((Double.value sources.a).toReal + (Double.value sources.b).toReal)
        (Number.sumNegative mode (Double.value sources.a) (Double.value sources.b))
  | sub (isFiniteA : (Double.value sources.a).isFinite = true)
      (isFiniteB : (Double.value sources.b).isFinite = true) :
      Exact mode sources (.binary .sub .double)
        ((Double.value sources.a).toReal - (Double.value sources.b).toReal)
        (Number.sumNegative mode (Double.value sources.a) (Double.value sources.b).negate)
  | mul (isFiniteA : (Double.value sources.a).isFinite = true)
      (isFiniteC : (Double.value sources.c).isFinite = true) :
      Exact mode sources (.binary .mul .double)
        ((Double.value sources.a).toReal * (Double.value sources.c).toReal)
        ((Double.value sources.a).negative != (Double.value sources.c).negative)
  | div (isFiniteA : (Double.value sources.a).isFinite = true)
      (isFiniteB : (Double.value sources.b).isFinite = true)
      (nonzero : (Double.value sources.b).toReal ≠ 0) :
      Exact mode sources (.binary .div .double)
        ((Double.value sources.a).toReal / (Double.value sources.b).toReal)
        ((Double.value sources.a).negative != (Double.value sources.b).negative)
  | squareRoot (isFiniteB : (Double.value sources.b).isFinite = true)
      (nonneg : 0 ≤ (Double.value sources.b).toReal) :
      Exact mode sources (.squareRoot .double)
        (√(Double.value sources.b).toReal) (Double.value sources.b).negative

theorem result_roundsTo {mode : RoundingMode} {sources : Sources} {op : Arithmetic} {x : ℝ} {negative : Bool}
    (exact : op.Exact mode sources x negative) :
    Double.RoundsTo mode x negative (op.result mode sources) := by
  cases exact with
  | add isFiniteA isFiniteB => exact Double.add_roundsTo mode isFiniteA isFiniteB
  | sub isFiniteA isFiniteB => exact Double.sub_roundsTo mode isFiniteA isFiniteB
  | mul isFiniteA isFiniteC => exact Double.mul_roundsTo mode isFiniteA isFiniteC
  | div isFiniteA isFiniteB nonzero => exact Double.div_roundsTo mode isFiniteA isFiniteB nonzero
  | squareRoot isFiniteB nonneg => exact Double.sqrt_roundsTo mode isFiniteB nonneg

end Arithmetic

namespace Machine

variable {σ : Type} (bus : Bus σ) (machine : Machine σ)

theorem perform_arithmetic {saved : Option RoundingMode}
    (isNative : machine.core.fpscr.host = .native machine.core.fpscr.rounding saved)
    {request : Request} {op : Arithmetic} {operands : Operands}
    (decoded : request.operation? = some (.arithmetic op, operands)) :
    (machine.perform bus request).result = .ok () ∧
      (machine.perform bus request).machine.core.fpr.get operands.rd =
        op.result machine.core.fpscr.rounding (machine.sources operands) :=
  (RoundsIn.native saved isNative).perform_arithmetic bus decoded

/-- Every double operation on finite operands delivers the exact result rounded once in
the mode of RN, with the sign that the exact result has; no other pattern is that. The
environment of a native core holds the mode of RN by `Linked`, in a window or outside. -/
theorem double_arithmetic_rounds_once {saved : Option RoundingMode}
    (isNative : machine.core.fpscr.host = .native (.ofBits machine.core.fpscr.bits) saved)
    {request : Request} {op : Arithmetic} {operands : Operands}
    (decoded : request.operation? = some (.arithmetic op, operands)) {x : ℝ} {negative : Bool}
    (exact : op.Exact (.ofBits machine.core.fpscr.bits) (machine.sources operands) x negative) :
    let step := machine.perform bus request
    let stored := step.machine.core.fpr.get operands.rd
    step.result = .ok () ∧
      Double.RoundsTo (.ofBits machine.core.fpscr.bits) x negative stored ∧
      ∀ bits, Double.RoundsTo (.ofBits machine.core.fpscr.bits) x negative bits → bits = stored := by
  intro step stored
  obtain ⟨result, same⟩ := machine.perform_arithmetic bus isNative decoded
  have rounds : Double.RoundsTo (.ofBits machine.core.fpscr.bits) x negative stored := by
    change Double.RoundsTo _ x negative ((machine.perform bus request).machine.core.fpr.get operands.rd)
    rw [same]
    exact Arithmetic.result_roundsTo exact
  exact ⟨result, rounds, fun bits roundsBits => roundsBits.unique rounds⟩

/-- One third, rounded upwards. -/
theorem double_arithmetic_rounds_once_of_third :
    let machine := resting 2 (.native .towardPosInf none)
      ((Bank.zero.set 1 0x3FF0000000000000).set 2 0x4008000000000000)
    Double.RoundsTo .towardPosInf (1 / 3) false
      ((machine.perform Memory.bus (.word 0xFC611024)).machine.core.fpr.get 3) := by
  intro machine
  have isNative : machine.core.fpscr.host = .native (.ofBits machine.core.fpscr.bits) none := by
    simp only [machine]
    rfl
  have sources : machine.sources (.decode 0xFC611024) = ⟨0x3FF0000000000000, 0x4008000000000000, 0⟩ := by
    simp only [machine]
    rfl
  have one : Double.value 0x3FF0000000000000 = .finite false (2 ^ 52) (-52) := by decide
  have three : Double.value 0x4008000000000000 = .finite false (3 * 2 ^ 51) (-51) := by decide
  have quotient : (1 / 3 : ℝ) =
      (Double.value 0x3FF0000000000000).toReal / (Double.value 0x4008000000000000).toReal := by
    rw [one, three]
    norm_num [Number.toReal, dyadic]
  have nonzero : (Double.value 0x4008000000000000).toReal ≠ 0 := by
    rw [three]
    norm_num [Number.toReal, dyadic]
  have exact : (Arithmetic.binary .div .double).Exact (.ofBits machine.core.fpscr.bits)
      (machine.sources (.decode 0xFC611024)) (1 / 3) false := by
    rw [sources, quotient]
    exact .div (by decide) (by decide) nonzero
  have decoded : (Request.word 0xFC611024).operation? =
      some (.arithmetic (.binary .div .double), .decode 0xFC611024) := by decide
  have mode : RoundingMode.ofBits machine.core.fpscr.bits = .towardPosInf := by
    simp only [machine]
    decide
  have rounds := (machine.double_arithmetic_rounds_once Memory.bus isNative decoded exact).2.1
  rw [mode] at rounds
  exact rounds

end Machine

/-! The fused sums and differences store their exact value rounded once. -/

namespace Machine

variable {σ : Type} (bus : Bus σ) {machine : Machine σ}

/-- A fused sum, difference or negated sum of finite doubles is the exact product and the
addend rounded once, and no other pattern is that. Nothing is asked of the product, which
may lie outside of all doubles. -/
theorem fused_rounds_once {mode : RoundingMode} (rounds : machine.RoundsIn mode) {request : Request}
    {kind : FusedKind} (other : kind ≠ .negatedSub) {operands : Operands}
    (decoded : request.operation? = some (.arithmetic (.fused kind .double), operands))
    (isFiniteA : (Double.value (machine.sources operands).a).isFinite = true)
    (isFiniteB : (Double.value (machine.sources operands).b).isFinite = true)
    (isFiniteC : (Double.value (machine.sources operands).c).isFinite = true) :
    let step := machine.perform bus request
    let stored := step.machine.core.fpr.get operands.rd
    let a := Double.value (machine.sources operands).a
    let b := Double.value (machine.sources operands).b
    let c := Double.value (machine.sources operands).c
    step.result = .ok () ∧
      kind.Delivers mode a b c stored ∧
      ∀ bits, kind.Delivers mode a b c bits → bits = stored := by
  intro step stored a b c
  obtain ⟨result, same⟩ := rounds.perform_arithmetic bus decoded
  have delivers : kind.Delivers mode a b c stored := by
    change kind.Delivers mode a b c ((machine.perform bus request).machine.core.fpr.get operands.rd)
    rw [same]
    exact FusedKind.apply_delivers other isFiniteA isFiniteB isFiniteC
  exact ⟨result, delivers, fun bits deliversBits => deliversBits.unique delivers⟩

/-- The product overflows on its own; the addend brings the sum back into range, and the
sign is flipped. -/
theorem fused_rounds_once_of_overflowing_product :
    let machine := resting 0 (.detached .towardPosInf)
      (((Bank.zero.set 1 0x5FF0000000000000).set 2 0x5FF0000000000000).set 4 0xFFE0000000000000)
    let stored := (machine.perform Memory.bus (.word 0xFC6120BE)).machine.core.fpr.get 3
    ∃ sum, Double.RoundsTo .nearest (2 ^ 1023) false sum ∧ stored = sum ^^^ Double.signBit := by
  intro machine stored
  have rounds : machine.RoundsIn .nearest := .detached .towardPosInf rfl rfl
  have decoded : (Request.word 0xFC6120BE).operation? =
      some (.arithmetic (.fused .negatedAdd .double), .decode 0xFC6120BE) := by decide
  have sources : machine.sources (.decode 0xFC6120BE) =
      ⟨0x5FF0000000000000, 0xFFE0000000000000, 0x5FF0000000000000⟩ := by
    simp only [machine]
    rfl
  have factor : Double.value 0x5FF0000000000000 = .finite false (2 ^ 52) 460 := by decide
  have addend : Double.value 0xFFE0000000000000 = .finite true (2 ^ 52) 971 := by decide
  obtain ⟨-, delivers, -⟩ := fused_rounds_once Memory.bus rounds FusedKind.noConfusion decoded
    (by rw [sources]; decide) (by rw [sources]; decide) (by rw [sources]; decide)
  have square : dyadic (2 ^ 52) 460 * dyadic (2 ^ 52) 460 = 2 ^ 1023 * 2 := by
    rw [dyadic, show (460 : ℤ) = (460 : Nat) from rfl, zpow_natCast, Nat.cast_pow, Nat.cast_ofNat, ← pow_add,
      ← pow_add, ← pow_succ]
  have cancelled : dyadic (2 ^ 52) 971 = 2 ^ 1023 := by
    rw [dyadic, show (971 : ℤ) = (971 : Nat) from rfl, zpow_natCast, Nat.cast_pow, Nat.cast_ofNat, ← pow_add]
  have sum : (Number.finite false (2 ^ 52) 460).toReal * (Number.finite false (2 ^ 52) 460).toReal +
      (Number.finite true (2 ^ 52) 971).toReal = 2 ^ 1023 := by
    rw [Number.toReal, Number.toReal, square, cancelled, mul_two, add_neg_cancel_right]
  have positive : (0 : ℝ) < 2 ^ 1023 := by positivity
  have sign : RoundingMode.nearest.sumNegative
      ((Number.finite false (2 ^ 52) 460).toReal * (Number.finite false (2 ^ 52) 460).toReal)
      (Number.finite true (2 ^ 52) 971).toReal (false != false) true = false := by
    rw [RoundingMode.sumNegative, sum, if_neg positive.ne']
    exact decide_eq_false positive.not_gt
  rw [sources] at delivers
  simp only [factor, addend] at delivers
  generalize isStored : (machine.perform Memory.bus (.word 0xFC6120BE)).machine.core.fpr.get
    (Operands.decode 0xFC6120BE).rd = last at delivers
  cases delivers with
  | negatedAdd delivered =>
    cases delivered with
    | add rounded =>
      simp only [Number.negative_finite, sum, sign] at rounded
      exact ⟨_, rounded, isStored⟩

end Machine

/-! The single forms, which round twice, deliver what rounding once to single does. -/

theorem Double.IsSingle.fitsSingle {bits : Doubleword} (isSingle : IsSingle bits) : (value bits).FitsSingle :=
  fun isFinite => isSingle.mem_finiteValues isFinite

namespace Arithmetic

/-- The exact result of a single form, when the operands it reads are singles. -/
inductive SingleIdeal (mode : RoundingMode) (sources : Sources) : Arithmetic → Ideal → Prop where
  | binary (kind : BinaryKind) (isSingleFirst : Double.IsSingle sources.a)
      (isSingleSecond : Double.IsSingle (kind.second sources)) :
      SingleIdeal mode sources (.binary kind .single)
        (kind.ideal mode (Double.value sources.a) (Double.value (kind.second sources)))
  | squareRoot (isSingle : Double.IsSingle sources.b) :
      SingleIdeal mode sources (.squareRoot .single) (Double.value sources.b).idealRoot

theorem result_deliversSingle {mode : RoundingMode} {sources : Sources} {op : Arithmetic} {ideal : Ideal}
    (exact : op.SingleIdeal mode sources ideal) :
    Double.DeliversSingle mode ideal (op.result mode sources) := by
  cases exact with
  | binary kind isSingleFirst isSingleSecond =>
    exact (kind.apply_delivers mode sources.a (kind.second sources)).narrow
      (kind.ideal_settled mode isSingleFirst.fitsSingle isSingleSecond.fitsSingle)
  | squareRoot isSingle =>
    exact (Double.sqrt_delivers mode sources.b).narrow (Number.idealRoot_settled isSingle.fitsSingle)

end Arithmetic

namespace Machine

variable {σ : Type} (bus : Bus σ) {machine : Machine σ}

/-- A single form on operands that are singles stores the double of the exact result
rounded once to single, an infinity or the default NaN where the exact result is one,
and no other pattern is that. -/
theorem single_arithmetic_rounds_once {mode : RoundingMode} (rounds : machine.RoundsIn mode) {request : Request}
    {op : Arithmetic} {operands : Operands} (decoded : request.operation? = some (.arithmetic op, operands))
    {ideal : Ideal} (exact : op.SingleIdeal mode (machine.sources operands) ideal) :
    let step := machine.perform bus request
    let stored := step.machine.core.fpr.get operands.rd
    step.result = .ok () ∧
      Double.DeliversSingle mode ideal stored ∧
      ∀ bits, Double.DeliversSingle mode ideal bits → bits = stored := by
  intro step stored
  obtain ⟨result, same⟩ := rounds.perform_arithmetic bus decoded
  have delivers : Double.DeliversSingle mode ideal stored := by
    change Double.DeliversSingle mode ideal ((machine.perform bus request).machine.core.fpr.get operands.rd)
    rw [same]
    exact Arithmetic.result_deliversSingle exact
  exact ⟨result, delivers, fun bits deliversBits => deliversBits.unique delivers⟩

/-- Half of the least single, which rounding upwards brings to the least single itself. -/
theorem single_arithmetic_rounds_once_of_underflow :
    let machine := resting 2 (.native .towardPosInf none) (Bank.zero.set 1 0x3B40000000000000)
    let stored := (machine.perform Memory.bus (.word 0xEC610072)).machine.core.fpr.get 3
    ∃ rounded, Single.RoundsTo .towardPosInf (1 / 2 ^ 150) false rounded ∧ Double.Represents stored rounded := by
  intro machine stored
  have isNative : machine.core.fpscr.host = .native (.ofBits machine.core.fpscr.bits) none := by
    simp only [machine]
    rfl
  have sources : machine.sources (.decode 0xEC610072) = ⟨0x3B40000000000000, 0, 0x3B40000000000000⟩ := by
    simp only [machine]
    rfl
  have mode : RoundingMode.ofBits machine.core.fpscr.bits = .towardPosInf := by
    simp only [machine]
    decide
  have decoded : (Request.word 0xEC610072).operation? =
      some (.arithmetic (.binary .mul .single), .decode 0xEC610072) := by decide
  have factor : Double.value 0x3B40000000000000 = .finite false (2 ^ 52) (-127) := by decide
  have narrowed : Single.value 0x1A000000 = .finite false (2 ^ 23) (-98) := by decide
  have isSingle : Double.IsSingle 0x3B40000000000000 := by
    refine ⟨0x1A000000, by decide, by decide, ?_, by decide⟩
    rw [factor, narrowed]
    norm_num [Number.toEReal, Number.toReal, dyadic]
  have product : (1 / 2 ^ 150 : ℝ) =
      (Number.finite false (2 ^ 52) (-127)).toReal * (Number.finite false (2 ^ 52) (-127)).toReal := by
    norm_num [Number.toReal, dyadic]
  have ideal : BinaryKind.mul.ideal (.ofBits machine.core.fpscr.bits) (Double.value 0x3B40000000000000)
      (Double.value 0x3B40000000000000) = .real (1 / 2 ^ 150) false := by
    rw [product, factor]
    rfl
  have exact : (Arithmetic.binary .mul .single).SingleIdeal (.ofBits machine.core.fpscr.bits)
      (machine.sources (.decode 0xEC610072)) (.real (1 / 2 ^ 150) false) := by
    rw [sources, ← ideal]
    exact .binary .mul isSingle isSingle
  have delivers := (single_arithmetic_rounds_once Memory.bus (.native none isNative) decoded exact).2.1
  rw [mode] at delivers
  exact delivers

end Machine

end PowerFpu
