import PowerFpu.Proofs.Core.Request
import PowerFpu.Proofs.Fpscr.Summaries

/-! Results depend on what the source registers hold, and not on which registers they are.

An operation takes its sources before it writes anything, so a target that is also a
source makes no difference. -/

set_option autoImplicit false

namespace PowerFpu

inductive Source where
  | a
  | b
  | c
  deriving DecidableEq

def Sources.get (sources : Sources) : Source → Doubleword
  | .a => sources.a
  | .b => sources.b
  | .c => sources.c

def Arithmetic.reads : Arithmetic → List Source
  | .binary .mul _ => [.a, .c]
  | .binary .add _ | .binary .sub _ | .binary .div _ => [.a, .b]
  | .fused .. | .select => [.a, .b, .c]
  | .squareRoot _ | .rootEstimate | .reciprocalEstimate | .move _ => [.b]

namespace Operation

/-- The sources of an operation that stores a result; the others store none. -/
def reads : Operation → List Source
  | .arithmetic op => op.reads
  | .conversion _ => [.b]
  | .compare _ | .control _ | .transfer _ => []

def computes (op : Operation) : Prop :=
  op.opClass = .arithmetic ∨ op.opClass = .conversion

end Operation

section Outcome
variable {sources other : Sources} (mode : RoundingMode) (bits : Word)

theorem Arithmetic.effect_congr {op : Arithmetic}
    (same : ∀ source ∈ op.reads, sources.get source = other.get source) :
    op.effect mode sources bits = op.effect mode other bits := by
  obtain ⟨a, b, c⟩ := sources
  obtain ⟨a', b', c'⟩ := other
  cases op with
  | binary kind precision =>
    cases kind <;> simp_all [reads, Sources.get, effect, fpscrAfter, exceptionBits, result, BinaryKind.second]
  | fused kind precision | select =>
    obtain ⟨rfl, rfl, rfl⟩ : a = a' ∧ b = b' ∧ c = c' := by simpa [reads, Sources.get] using same
    rfl
  | squareRoot precision | rootEstimate | reciprocalEstimate | move change =>
    obtain rfl : b = b' := by simpa [reads, Sources.get] using same
    rfl

theorem Operation.outcome?_of_reads {op : Operation} (computes : op.computes)
    (same : ∀ source ∈ op.reads, sources.get source = other.get source) (model otherModel : ProcessorModel)
    (operands otherOperands : Operands) :
    op.outcome? mode model operands sources bits = op.outcome? mode otherModel otherOperands other bits := by
  cases op with
  | arithmetic op => simp only [outcome?, op.effect_congr mode bits same]
  | conversion op =>
    have sameSource : sources.b = other.b := same .b (by simp [reads])
    cases op <;> simp only [outcome?, Conversion.outcome, sameSource]
  | compare ordered | control op | transfer op => simp [Operation.computes, opClass] at computes

end Outcome

namespace Machine

variable {σ τ : Type} {machine : Machine σ} {other : Machine τ} {op : Operation} {operands otherOperands : Operands}

/-- Whether an operation finds the same sources in the registers of two machines, and the
same settings and status. -/
structure SameInputs (op : Operation) (machine : Machine σ) (operands : Operands) (other : Machine τ)
    (otherOperands : Operands) : Prop where
  fpscr : machine.core.fpscr = other.core.fpscr
  cr : machine.core.cr = other.core.cr
  thread : machine.thread = other.thread
  record : operands.record = otherOperands.record
  sources : ∀ source ∈ op.reads, (machine.sources operands).get source = (other.sources otherOperands).get source

/-- Whether two steps end alike, with one value in the target of each if they complete. -/
structure SameEnd (step : Step σ) (target : RegisterIndex) (otherStep : Step τ) (otherTarget : RegisterIndex) :
    Prop where
  result : step.result = otherStep.result
  stored : step.result = .ok () →
    step.machine.core.fpr.get target = otherStep.machine.core.fpr.get otherTarget
  fpscr : step.machine.core.fpscr = otherStep.machine.core.fpscr
  cr : step.machine.core.cr = otherStep.machine.core.cr

theorem rewrite_congr (fpscr : machine.core.fpscr = other.core.fpscr) (thread : machine.thread = other.thread)
    (bits : Word) : (machine.rewrite bits).core.fpscr = (other.rewrite bits).core.fpscr := by
  simp only [rewrite, leave, writeFpscr, enter, fpscr, thread]

theorem SameInputs.outcome? (inputs : SameInputs op machine operands other otherOperands) (computes : op.computes) :
    machine.outcome? op (operands.seenBy op) = other.outcome? op (otherOperands.seenBy op) := by
  rw [Machine.outcome?, Machine.outcome?, inputs.fpscr, inputs.thread]
  exact Operation.outcome?_of_reads _ _ computes inputs.sources _ _ _ _

theorem exists_outcome (machine : Machine σ) (operands : Operands) (computes : op.computes) :
    (∃ bits value, machine.outcome? op operands = some (.completed ⟨bits, some value, none⟩)) ∨
      ∃ bits, machine.outcome? op operands = some (.trapped bits) := by
  cases op with
  | arithmetic op => exact .inl ⟨_, _, rfl⟩
  | conversion op =>
    cases op with
    | toSingle => exact .inl ⟨_, _, rfl⟩
    | toInteger truncating =>
      simp only [Machine.outcome?, Operation.outcome?, Conversion.outcome]
      obtain ⟨limit, ends⟩ | ⟨result, ends⟩ := Conversion.toIntegerOutcome_cases
        (if truncating then .towardZero else .ofBits machine.core.fpscr.bits)
        (machine.core.fpscr.host.working machine.thread) (machine.sources operands).b machine.core.fpscr.bits
      · rw [ends, Conversion.invalid]
        split
        · exact .inl ⟨_, _, rfl⟩
        · exact .inr ⟨_, rfl⟩
      · rw [ends]
        exact .inl ⟨_, _, rfl⟩
  | compare ordered | control op | transfer op => simp [Operation.computes, Operation.opClass] at computes

theorem SameInputs.dispatch (bus : Bus σ) (otherBus : Bus τ)
    (inputs : SameInputs op machine operands other otherOperands) (computes : op.computes) :
    SameEnd (machine.dispatch bus op operands) operands.rd (other.dispatch otherBus op otherOperands)
      otherOperands.rd := by
  have same := inputs.outcome? computes
  rcases machine.exists_outcome (operands.seenBy op) computes with ⟨bits, value, yields⟩ | ⟨bits, yields⟩
  · have yieldsOther := same.symm.trans yields
    rw [machine.dispatch_completed bus op operands yields,
      other.dispatch_completed otherBus op otherOperands yieldsOther]
    refine ⟨rfl, fun _ => ?_, rewrite_congr inputs.fpscr inputs.thread bits, ?_⟩
    · exact (Bank.get_set_self _ _ _).trans (Bank.get_set_self _ _ _).symm
    · have cr (core : Core) (record : Operands) :
          (applyEffect core record ⟨bits, some value, none⟩).cr =
            if record.record then ConditionRegister.recordExceptions core.cr bits else core.cr := rfl
      have kept : (machine.rewrite bits).core.cr = (other.rewrite bits).core.cr := inputs.cr
      rw [cr, cr, kept, Operands.seenBy, Operands.seenBy, inputs.record]
  · have yieldsOther := same.symm.trans yields
    rw [machine.dispatch_trapped bus op operands yields, other.dispatch_trapped otherBus op otherOperands yieldsOther]
    exact ⟨rfl, (nomatch ·), rewrite_congr inputs.fpscr inputs.thread bits, inputs.cr⟩

/-- Arithmetic and conversions depend on the values of their sources alone. With one FPSCR,
condition register and thread they end alike wherever the values come from, on whatever bus
and processor model; and on one machine the choice of the target changes nothing, whether it
is one of the sources or not. -/
theorem results_depend_on_sources (bus : Bus σ) (otherBus : Bus τ) (computes : op.computes) :
    (∀ (machine : Machine σ) (other : Machine τ) (operands otherOperands : Operands),
      SameInputs op machine operands other otherOperands →
        SameEnd (machine.dispatch bus op operands) operands.rd
          (other.dispatch otherBus op otherOperands) otherOperands.rd) ∧
      ∀ (machine : Machine σ) (operands : Operands) (target : RegisterIndex),
        SameEnd (machine.dispatch bus op operands) operands.rd
          (machine.dispatch bus op { operands with rd := target }) target := by
  constructor
  · intro machine other operands otherOperands inputs
    exact inputs.dispatch bus otherBus computes
  · intro machine operands target
    have inputs : SameInputs op machine operands machine { operands with rd := target } :=
      ⟨rfl, rfl, rfl, rfl, fun _ _ => rfl⟩
    exact inputs.dispatch bus bus computes

/-- A fused sum whose addend is its second factor: in registers of their own, with the
target among them, and with the first factor as the target. -/
theorem results_depend_on_sources_of_aliased_target :
    let op := Operation.arithmetic (.fused .add .double)
    let machine := resting 0x80 (.native .nearest none)
      ((Bank.zero.set 1 0x3FF0000000000001).set 2 0x7FF0000000000001)
    let other := resting 0x80 (.native .nearest none)
      ((Bank.zero.set 7 0x3FF0000000000001).set 8 0x7FF0000000000001)
    let operands := Operands.decode 0xFC6110BB
    let aliased := Operands.decode 0xFD07423B
    SameEnd (machine.dispatch Memory.bus op operands) operands.rd
        (other.dispatch Memory.bus op aliased) aliased.rd ∧
      SameEnd (machine.dispatch Memory.bus op operands) operands.rd
        (machine.dispatch Memory.bus op { operands with rd := 1 }) 1 := by
  intro op machine other operands aliased
  have computes : op.computes := .inl rfl
  obtain ⟨places, targets⟩ := results_depend_on_sources Memory.bus Memory.bus computes
  have inputs : SameInputs op machine operands other aliased := ⟨rfl, rfl, rfl, by decide, by decide⟩
  exact ⟨places machine other operands aliased inputs, targets machine operands 1⟩

end Machine

end PowerFpu
