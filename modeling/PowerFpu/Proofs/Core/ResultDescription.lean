import PowerFpu.Proofs.Core.RecordBit
import PowerFpu.Proofs.Core.Run
import PowerFpu.Proofs.Core.StickyExceptions
import PowerFpu.Proofs.Execution.Comparison

/-! The result description always tells the class of the last described result.

Arithmetic and the conversion to single describe what they have stored, after narrowing.
Compares replace the condition code alone, and nothing else but the writes of FPSCR fields
and bits touches the description. -/

set_option autoImplicit false

namespace PowerFpu

section

open Fpscr (Agree)

/-- The class of a pattern. Without its sign bit a NaN lies above infinity, and a finite
number below it. -/
def Double.classBits (x : Doubleword) : Word :=
  let magnitude := x.toNat % 0x8000000000000000
  let infinity := 0x7FF0000000000000
  let sign := if x.msb then Fpscr.less else Fpscr.greater
  if infinity < magnitude then Fpscr.resultClass ||| Fpscr.unordered
  else if magnitude = infinity then sign ||| Fpscr.unordered
  else if magnitude = 0 then Fpscr.equal
  else sign

theorem BinaryFormat.significand_eq_zero (format : BinaryFormat) (pattern : Nat) :
    format.significand pattern = 0 ↔ pattern = 0 := by
  obtain ⟨sum, -, normal⟩ := format.significand_bounds pattern
  have positive : 0 < 2 ^ format.fractionBits := Nat.two_pow_pos _
  constructor
  · intro zero
    have subnormal : format.scale pattern = 0 := normal.resolve_right (by omega)
    rw [sum, subnormal, zero, zero_mul]
  · intro zero
    rw [zero, significand, zero_tsub]

theorem Double.resultBits_value (x : Doubleword) : Fpscr.resultBits (value x) = classBits x := by
  have signBit : BinaryFormat.double.signBit = 0x8000000000000000 := rfl
  have infinity : BinaryFormat.double.infinity = 0x7FF0000000000000 := rfl
  rw [value, BinaryFormat.decode_toNat isWidth, BinaryFormat.assemble, signBit, infinity]
  unfold classBits
  generalize x.toNat % 0x8000000000000000 = magnitude
  rcases Nat.lt_trichotomy magnitude 0x7FF0000000000000 with finite | isInfinity | isNan
  · simp only [finite, finite.not_gt, finite.ne, if_true, if_false, Fpscr.resultBits,
      BinaryFormat.significand_eq_zero]
  · simp only [isInfinity, lt_irrefl, if_true, if_false, Fpscr.resultBits]
  · simp only [isNan, isNan.not_gt, if_true, if_false, isNan.ne', Fpscr.resultBits]

namespace Fpscr

theorem replace_and {mask value : Word} (inside : value &&& mask = value) (bits : Word) :
    ((bits &&& ~~~mask) ||| value) &&& mask = value := by
  have merged : Agree mask ((bits &&& ~~~mask) ||| (value &&& mask)) value := agree_merge
  rwa [Agree, inside] at merged

theorem classifyResult_fprf (result : Doubleword) (bits : Word) :
    classifyResult result bits &&& fprf = Double.classBits result := by
  rw [classifyResult, replace_and (resultBits_within _), Double.resultBits_value]

theorem compareEffect_fpcc (target : FieldIndex) (sources : Sources) (bits : Word) :
    (compareEffect target sources bits).fpscr &&& fpcc = (compareCode sources.a sources.b).setWidth 32 <<< 12 :=
  replace_and (code_within _) bits

end Fpscr

namespace Operation

def describesResult : Operation → Bool
  | .arithmetic (.binary ..) | .arithmetic (.fused ..) | .arithmetic (.squareRoot _)
  | .arithmetic .rootEstimate | .arithmetic .reciprocalEstimate | .conversion .toSingle => true
  | .arithmetic (.move _) | .arithmetic .select | .conversion (.toInteger _) => false
  | .compare _ | .control _ | .transfer _ => false

def deliversSingle : Operation → Bool
  | .arithmetic (.binary _ .single) | .arithmetic (.fused _ .single) | .arithmetic (.squareRoot .single) => true
  | .arithmetic .reciprocalEstimate | .conversion .toSingle => true
  | _ => false

/-- The operations that may change the description: besides those the compares, and the
writes of FPSCR fields and bits. -/
def writesDescription (op : Operation) : Bool :=
  match op with
  | .compare _ | .control .writeFields | .control .writeImmediate | .control (.writeBit _) => true
  | .control .readFpscr | .control .drainField => false
  | .arithmetic _ | .conversion _ | .transfer _ => op.describesResult

theorem describesResult_arithmetic (op : Arithmetic) :
    (arithmetic op).describesResult = op.describesResult := by
  cases op <;> rfl

theorem outcome_of_describesResult {op : Operation} (describes : op.describesResult = true) (mode : RoundingMode)
    (model : ProcessorModel) (operands : Operands) (sources : Sources) (bits : Word) :
    ∃ result checked,
      op.outcome? mode model operands sources bits =
        some (.completed ⟨Fpscr.classifyResult result checked, some result, none⟩) ∧
      (op.deliversSingle = true → ∃ single, result = Double.ofSingle single) := by
  cases op with
  | arithmetic op =>
    refine ⟨op.result mode sources, op.exceptionBits mode sources bits, ?_, ?_⟩
    · have described : op.describesResult = true := by rwa [describesResult_arithmetic] at describes
      simp only [outcome?, Arithmetic.effect, Arithmetic.fpscrAfter, described, if_true]
    · intro narrows
      cases op with
      | binary kind precision | fused kind precision | squareRoot precision =>
        cases precision with
        | double => cases narrows
        | single => exact ⟨_, rfl⟩
      | reciprocalEstimate => exact ⟨_, rfl⟩
      | rootEstimate | move change | select => cases narrows
  | conversion op =>
    cases op with
    | toSingle => exact ⟨_, _, rfl, fun _ => ⟨_, rfl⟩⟩
    | toInteger truncating => cases describes
  | compare ordered | control op | transfer op => cases describes

theorem agree_outcome {op : Operation} (spares : op.writesDescription = false) {mode : RoundingMode}
    {model : ProcessorModel} {operands : Operands} {sources : Sources} {bits : Word} {outcome : Outcome}
    (yields : op.outcome? mode model operands sources bits = some outcome) :
    Agree Fpscr.fprf outcome.fpscr bits := by
  cases op with
  | arithmetic op =>
    cases yields
    have copies : op.describesResult = false := by rwa [writesDescription, describesResult_arithmetic] at spares
    exact congrArg (· &&& Fpscr.fprf) (Arithmetic.fpscrAfter_of_copies copies mode sources bits)
  | conversion op =>
    cases yields
    cases op with
    | toSingle => cases spares
    | toInteger truncating =>
      obtain ⟨limit, ends⟩ | ⟨result, ends⟩ := Conversion.toIntegerOutcome_cases
        (if truncating then .towardZero else .ofBits bits) mode sources.b bits
      · simp only [Conversion.outcome, ends, Conversion.invalid]
        have flagged : Agree Fpscr.fprf (Conversion.invalidBits sources.b bits) bits :=
          Conversion.agree_invalidBits _ _ (by decide)
        split
        · exact flagged
        · exact (Fpscr.agree_summarizeFex _ (by decide)).trans flagged
      · simp only [Conversion.outcome, ends]
        rfl
  | control op =>
    cases op with
    | readFpscr =>
      cases yields
      rfl
    | drainField =>
      cases yields
      exact Fpscr.agree_drainField _ _ (by decide) (by decide)
    | writeFields | writeImmediate | writeBit value => cases spares
  | compare ordered => cases spares
  | transfer op => cases yields

end Operation

namespace Machine

variable {σ : Type} (bus : Bus σ) (machine : Machine σ)

section Perform
variable {request : Request}

theorem perform_describes {op : Operation} {operands : Operands}
    (decoded : request.operation? = some (op, operands)) (describes : op.describesResult = true) :
    let step := machine.perform bus request
    step.result = .ok () ∧
      step.machine.core.fpscr.bits &&& Fpscr.fprf = Double.classBits (step.machine.core.fpr.get operands.rd) ∧
      (op.deliversSingle = true → ∃ single, step.machine.core.fpr.get operands.rd = Double.ofSingle single) := by
  intro step
  obtain ⟨result, checked, yields, narrows⟩ := op.outcome_of_describesResult describes
    (machine.core.fpscr.host.working machine.thread) machine.core.model (operands.seenBy op)
    (machine.sources operands) machine.core.fpscr.bits
  obtain ⟨completes, bits, fpr, -⟩ := perform_completed bus decoded yields
  have stored : step.machine.core.fpr.get operands.rd = result := by
    rw [fpr]
    exact Bank.get_set_self _ _ _
  refine ⟨completes, ?_, ?_⟩
  · rw [bits, stored]
    exact Fpscr.classifyResult_fprf result checked
  · rw [stored]
    exact narrows

theorem perform_compares {ordered : Bool} {operands : Operands}
    (decoded : request.operation? = some (.compare ordered, operands)) :
    let step := machine.perform bus request
    step.result = .ok () ∧
      step.machine.core.fpscr.bits &&& Fpscr.fpcc =
        (compareCode (machine.core.fpr.get operands.ra) (machine.core.fpr.get operands.rb)).setWidth 32 <<< 12 ∧
      Agree (~~~Fpscr.fpcc) step.machine.core.fpscr.bits machine.core.fpscr.bits := by
  intro step
  let sources := machine.sources operands
  have yields : machine.outcome? (.compare ordered) (operands.seenBy (.compare ordered)) =
      some (.completed (compareEffect operands.crfd sources machine.core.fpscr.bits)) := rfl
  obtain ⟨completes, bits, -, -⟩ := perform_completed bus decoded yields
  refine ⟨completes, ?_, ?_⟩
  · rw [bits]
    exact Fpscr.compareEffect_fpcc operands.crfd sources machine.core.fpscr.bits
  · rw [bits]
    exact Fpscr.agree_compareEffect operands.crfd sources machine.core.fpscr.bits (by decide)

theorem perform_agree (spares : request.isOf Operation.writesDescription = false) :
    Agree Fpscr.fprf (machine.perform bus request).machine.core.fpscr.bits machine.core.fpscr.bits := by
  refine machine.perform_bits bus (motive := (Agree Fpscr.fprf · machine.core.fpscr.bits)) request rfl ?_
  intro op operands outcome decoded yields
  simp only [Request.isOf, decoded, Option.any_some] at spares
  exact Operation.agree_outcome spares yields

end Perform

/-- The description follows the stored result. In any state and host mode, an operation that
describes its result completes, and the description is then the class of the pattern in
its target, a single for a single form. A compare replaces the condition code and no other
bit; and whatever is not one of these or a write of FPSCR fields or bits, a failed
instruction included, keeps the description. -/
theorem description_follows_result (bus : Bus σ) (machine : Machine σ) (request : Request) :
    let step := machine.perform bus request
    let before := machine.core.fpscr.bits
    let after := step.machine.core.fpscr.bits
    (∀ op operands, request.operation? = some (op, operands) → op.describesResult = true →
      step.result = .ok () ∧
        after &&& Fpscr.fprf = Double.classBits (step.machine.core.fpr.get operands.rd) ∧
        (op.deliversSingle = true →
          ∃ single, step.machine.core.fpr.get operands.rd = Double.ofSingle single)) ∧
    (∀ ordered operands, request.operation? = some (.compare ordered, operands) →
      step.result = .ok () ∧
        after &&& Fpscr.fpcc =
          (compareCode (machine.core.fpr.get operands.ra) (machine.core.fpr.get operands.rb)).setWidth 32 <<< 12 ∧
        after &&& ~~~Fpscr.fpcc = before &&& ~~~Fpscr.fpcc) ∧
    (request.isOf Operation.writesDescription = false → after &&& Fpscr.fprf = before &&& Fpscr.fprf) := by
  refine ⟨?_, ?_, ?_⟩
  · intro op operands decoded describes
    exact machine.perform_describes bus decoded describes
  · intro ordered operands decoded
    exact machine.perform_compares bus decoded
  · exact machine.perform_agree bus

/-- From a word that describes a NaN: a single product that underflows, one that overflows,
a compare and a move. -/
theorem description_follows_result_of_underflow :
    let machine := resting 0x11000 (.native .nearest none)
      ((Bank.zero.set 1 0x39B0000000000000).set 2 0x47E0000000000000)
    let after (inst : Word) := (machine.perform Memory.bus (.word inst)).machine.core
    (after 0xEC610072).fpr.get 3 = 0 ∧ (after 0xEC610072).fpscr.bits &&& Fpscr.fprf = Fpscr.equal ∧
      (after 0xEC6200B2).fpscr.bits &&& Fpscr.fprf = Fpscr.greater ||| Fpscr.unordered ∧
      (after 0xFC011000).fpscr.bits &&& Fpscr.fpcc = Fpscr.less ∧
      (after 0xFC011000).fpscr.bits &&& ~~~Fpscr.fpcc = Fpscr.resultClass ∧
      (after 0xFC600890).fpscr.bits &&& Fpscr.fprf = Fpscr.resultClass ||| Fpscr.unordered := by
  intro machine after
  have follows (inst : Word) := description_follows_result Memory.bus machine (.word inst)
  let product := Operation.arithmetic (.binary .mul .single)
  obtain ⟨-, underflows, -⟩ := (follows 0xEC610072).1 product (.decode 0xEC610072) (by decide) rfl
  obtain ⟨-, overflows, -⟩ := (follows 0xEC6200B2).1 product (.decode 0xEC6200B2) (by decide) rfl
  obtain ⟨-, compared, kept⟩ := (follows 0xFC011000).2.1 false (.decode 0xFC011000) (by decide)
  have zero : (after 0xEC610072).fpr.get 3 = 0 := by decide +kernel
  have infinite : (after 0xEC6200B2).fpr.get 3 = 0x7FF0000000000000 := by decide +kernel
  refine ⟨zero, ?_, ?_, ?_, kept.trans (by decide), ((follows 0xFC600890).2.2 (by decide)).trans (by decide)⟩
  · exact underflows.trans (congrArg Double.classBits zero)
  · exact overflows.trans (congrArg Double.classBits infinite)
  · exact compared.trans (by decide)

end Machine

end

/-! Comparison is reported consistently.

The compares write one code to two places and keep all else; ordered and unordered compares
are one. The select asks the same question about zero. -/

open ConditionRegister (less greater equal unordered)
open Fpscr (Agree)

namespace Machine

variable {σ : Type} (bus : Bus σ) (machine : Machine σ)

/-- Whether a step completed and reported a code in the FPSCR and in one field of the
condition register, and changed no other of their bits and no floating-point register. -/
structure Reports (before : Machine σ) (target : FieldIndex) (code : BitVec 4) (step : Step σ) : Prop where
  result : step.result = .ok ()
  fpcc : step.machine.core.fpscr.bits &&& Fpscr.fpcc = code.setWidth 32 <<< 12
  fpscr : Agree (~~~Fpscr.fpcc) step.machine.core.fpscr.bits before.core.fpscr.bits
  field : Field.get step.machine.core.cr target = code
  cr : ∀ other, other ≠ target → Field.get step.machine.core.cr other = Field.get before.core.cr other
  fpr : step.machine.core.fpr = before.core.fpr

theorem perform_reports {request : Request} {ordered : Bool} {operands : Operands}
    (decoded : request.operation? = some (.compare ordered, operands)) :
    Reports machine operands.crfd
      (compareCode (machine.core.fpr.get operands.ra) (machine.core.fpr.get operands.rb))
      (machine.perform bus request) := by
  let sources := machine.sources operands
  let effect := compareEffect operands.crfd sources machine.core.fpscr.bits
  have yields : machine.outcome? (.compare ordered) (operands.seenBy (.compare ordered)) =
      some (.completed effect) := rfl
  obtain ⟨result, change, same⟩ := machine.perform_decoded bus decoded
  obtain ⟨completes, fpcc, kept⟩ := machine.perform_compares bus decoded
  rw [machine.dispatch_completed bus _ _ yields] at same
  have cr : (machine.perform bus request).machine.core.cr =
      Field.set machine.core.cr operands.crfd (compareCode sources.a sources.b) := by
    -- A compare has no record form, so nothing is copied behind its code.
    have unrecorded : (operands.seenBy (.compare ordered)).record = false := Bool.and_false _
    simp only [same, mapStatistics, applyEffect, unrecorded]
    rfl
  refine ⟨completes, fpcc, kept, ?_, ?_, ?_⟩
  · rw [cr, Field.get_set, if_pos rfl]
    rfl
  · intro other apart
    rw [cr, Field.get_set, if_neg apart.symm]
  · rw [same]
    rfl

theorem perform_select {request : Request} {operands : Operands}
    (decoded : request.operation? = some (.arithmetic .select, operands)) {zero : Doubleword}
    (isZero : zero ∈ [0, Double.signBit]) :
    let code := compareCode (machine.core.fpr.get operands.ra) zero
    (machine.perform bus request).result = .ok () ∧
      (machine.perform bus request).machine.core.fpr.get operands.rd =
        if code = greater ∨ code = equal then machine.core.fpr.get operands.rc
        else machine.core.fpr.get operands.rb := by
  intro code
  obtain ⟨result, stored⟩ := perform_arithmetic_working bus rfl decoded
  refine ⟨result, ?_⟩
  rw [stored]
  exact Arithmetic.result_select _ (machine.sources operands) isZero

/-- Comparison is the order of the values. Its code tells how two doubles are ordered, a swap
of them swaps the strict orders, and what it finds at most another is transitively so.
Ordered and unordered compares are one step, which completes and reports the code in both
places in every state; and the select goes by the code of a comparison with either zero. -/
theorem comparison_consistent :
    (∀ a b : Doubleword, Tells a b (compareCode a b)) ∧
      (∀ a b : Doubleword,
        (compareCode b a = less ↔ compareCode a b = greater) ∧
          (compareCode b a = greater ↔ compareCode a b = less) ∧
          (compareCode b a = equal ↔ compareCode a b = equal) ∧
          (compareCode b a = unordered ↔ compareCode a b = unordered)) ∧
      (∀ a b c : Doubleword, AtMost a b → AtMost b c → AtMost a c) ∧
      (∀ operands : Operands,
        machine.dispatch bus (.compare true) operands = machine.dispatch bus (.compare false) operands) ∧
      (∀ (request : Request) (ordered : Bool) (operands : Operands),
        request.operation? = some (.compare ordered, operands) →
          Reports machine operands.crfd
            (compareCode (machine.core.fpr.get operands.ra) (machine.core.fpr.get operands.rb))
            (machine.perform bus request)) ∧
      ∀ (request : Request) (operands : Operands) (zero : Doubleword),
        request.operation? = some (.arithmetic .select, operands) → zero ∈ [0, Double.signBit] →
          let code := compareCode (machine.core.fpr.get operands.ra) zero
          (machine.perform bus request).result = .ok () ∧
            (machine.perform bus request).machine.core.fpr.get operands.rd =
              if code = greater ∨ code = equal then machine.core.fpr.get operands.rc
              else machine.core.fpr.get operands.rb := by
  refine ⟨compareCode_tells, compareCode_swap, fun _ _ _ => AtMost.trans, fun _ => rfl, ?_, ?_⟩
  · intro request ordered operands decoded
    exact machine.perform_reports bus decoded
  · intro request operands zero decoded isZero
    exact machine.perform_select bus decoded isZero

/-- With VE set, an ordered compare of a signalling NaN with a number, and selects on that NaN
and on the negative zero. -/
theorem comparison_consistent_of_nan_and_zero :
    let machine := resting 0x80 (.native .nearest none)
      ((Bank.zero.set 1 0x7FF0000000000001).set 2 0x8000000000000000)
    let compared := machine.perform Memory.bus (.word 0xFE811040)
    let selects (inst : Word) := (machine.perform Memory.bus (.word inst)).machine.core.fpr.get 3
    Reports machine 5 unordered compared ∧ selects 0xFC6100AE = machine.core.fpr.get 0 ∧
      selects 0xFC6200AE = machine.core.fpr.get 2 := by
  intro machine compared selects
  obtain ⟨-, -, -, -, reports, chooses⟩ := comparison_consistent Memory.bus machine
  have isZero : 0 ∈ [0, Double.signBit] := List.mem_cons_self
  have reported := reports (.word 0xFE811040) true (.decode 0xFE811040) (by decide)
  have field : (Operands.decode 0xFE811040).crfd = 5 := by decide
  have code : compareCode (machine.core.fpr.get (Operands.decode 0xFE811040).ra)
      (machine.core.fpr.get (Operands.decode 0xFE811040).rb) = unordered := by decide
  rw [field, code] at reported
  have onNan := (chooses (.word 0xFC6100AE) (.decode 0xFC6100AE) 0 (by decide) isZero).2
  have onZero := (chooses (.word 0xFC6200AE) (.decode 0xFC6200AE) 0 (by decide) isZero).2
  exact ⟨reported, onNan.trans (by decide), onZero.trans (by decide)⟩

end Machine

end PowerFpu
