import PowerFpu.Proofs.Core.Step
import PowerFpu.Proofs.Fpscr.Accrual

/-! Sticky exception bits.

In a run without a write of FPSCR fields every operation lets the word accrue, so a
cause that is noticed stays until the end. FX and VXIDI are the two that a check of
operands clears, and only such a check does. -/

set_option autoImplicit false

namespace PowerFpu

open Fpscr (Has Accrues stickyBits)

def Arithmetic.checksOperands : Arithmetic → Bool
  | .binary .. | .fused .. | .squareRoot _ | .rootEstimate => true
  | .reciprocalEstimate | .move _ | .select => false

namespace Operation

def checksOperands : Operation → Bool
  | .arithmetic op => op.checksOperands
  | .conversion _ | .compare _ | .control _ | .transfer _ => false

def writesFpscr : Operation → Bool
  | .control .writeFields | .control .writeImmediate | .control (.writeBit _) | .control .drainField => true
  | .control .readFpscr => false
  | .arithmetic _ | .conversion _ | .compare _ | .transfer _ => false

end Operation

theorem Arithmetic.accrues_exceptionBits (op : Arithmetic) (mode : RoundingMode) (sources : Sources) (bits : Word) :
    Accrues (stickyBits op.checksOperands) bits (op.exceptionBits mode sources bits) := by
  cases op with
  | binary kind precision => exact Fpscr.accrues_classifyOperands ..
  | fused kind precision =>
    -- A NaN addend makes a second check of what the first one left.
    have first := Fpscr.accrues_classifyOperands .mul sources.a sources.c bits
    simp only [exceptionBits]
    split
    · exact first.trans (Fpscr.accrues_classifyOperands ..)
    · exact first
  | squareRoot precision => exact Fpscr.accrues_classifyOperands ..
  | rootEstimate =>
    refine Accrues.trans (Fpscr.accrues_classifyOperands .root 0 sources.b bits)
      (Accrues.trans ?_ (Fpscr.accrues_summarize (by decide) _))
    split
    · exact Fpscr.accrues_set (by decide)
    · split
      · exact Fpscr.accrues_set (by decide)
      · split
        · exact Fpscr.accrues_set (by decide)
        · exact .refl _ _
  | reciprocalEstimate =>
    refine Accrues.trans ?_ (Fpscr.accrues_summarize (by decide) _)
    split
    · exact Fpscr.accrues_set (by decide)
    · split
      · exact Fpscr.accrues_set (by decide)
      · split
        · exact (Fpscr.accrues_clear (by decide) (by decide)).trans (Fpscr.accrues_set (by decide))
        · exact .refl _ _
  | move change | select => exact .refl _ _

theorem Arithmetic.accrues_fpscrAfter (op : Arithmetic) (mode : RoundingMode) (sources : Sources) (bits : Word) :
    Accrues (stickyBits op.checksOperands) bits (op.fpscrAfter mode sources bits) := by
  have checked := op.accrues_exceptionBits mode sources bits
  simp only [fpscrAfter]
  split
  · exact checked.trans (Fpscr.accrues_classifyResult (Fpscr.stickyBits_underived _) _ _)
  · exact checked

namespace Conversion

theorem accrues_invalidBits (x : Doubleword) (bits : Word) :
    Accrues (stickyBits false) bits (invalidBits x bits) := by
  have cleared : Accrues (stickyBits false) bits (bits &&& ~~~Fpscr.roundingBits) :=
    Fpscr.accrues_clear (by decide) (by decide)
  refine (cleared.trans (Fpscr.accrues_set (by decide))).trans (Fpscr.accrues_set ?_)
  split
  · decide
  · decide

theorem accrues_outcome (op : Conversion) (host : RoundingMode) (sources : Sources) (bits : Word) :
    Accrues (stickyBits false) bits (op.outcome host sources bits).fpscr := by
  cases op with
  | toSingle => exact Fpscr.accrues_classifyResult (by decide) _ _
  | toInteger truncating =>
    obtain ⟨limit, ends⟩ | ⟨result, ends⟩ := toIntegerOutcome_cases
      (if truncating then .towardZero else .ofBits bits) host sources.b bits
    · simp only [outcome, ends, invalid]
      split
      · exact accrues_invalidBits _ _
      · exact (accrues_invalidBits _ _).trans
          (Fpscr.accrues_of_agree (by decide) (Fpscr.agree_summarizeFex _ (by decide)))
    · simp only [outcome, ends]
      exact .refl _ _

end Conversion

theorem Operation.accrues_outcome {op : Operation} (spares : op.writesFpscr = false) {mode : RoundingMode}
    {model : ProcessorModel} {operands : Operands} {sources : Sources} {bits : Word} {outcome : Outcome}
    (yields : op.outcome? mode model operands sources bits = some outcome) :
    Accrues (stickyBits op.checksOperands) bits outcome.fpscr := by
  cases op with
  | arithmetic op =>
    cases yields
    exact op.accrues_fpscrAfter mode sources bits
  | conversion op =>
    cases yields
    exact op.accrues_outcome mode sources bits
  | compare ordered =>
    cases yields
    exact Fpscr.accrues_of_agree (Fpscr.stickyBits_underived _) (Fpscr.agree_compareEffect _ _ _ (by decide))
  | control op =>
    cases op with
    | readFpscr =>
      cases yields
      exact .refl _ _
    | writeFields | writeImmediate | writeBit value | drainField => cases spares
  | transfer op => cases yields

namespace Machine

variable {σ : Type} (bus : Bus σ) (machine : Machine σ)

theorem perform_accrues {request : Request} (spares : request.isOf Operation.writesFpscr = false) :
    Accrues (stickyBits (request.isOf Operation.checksOperands)) machine.core.fpscr.bits
      (machine.perform bus request).machine.core.fpscr.bits := by
  refine machine.perform_bits bus request (.refl _ _) ?_
  intro op operands outcome decoded yields
  simp only [Request.isOf, decoded, Option.any_some] at spares ⊢
  exact Operation.accrues_outcome spares yields

theorem performAll_accrues {requests : List Request}
    (spares : ∀ request ∈ requests, request.isOf Operation.writesFpscr = false) :
    Accrues Fpscr.stickyCauses machine.core.fpscr.bits (machine.performAll bus requests).core.fpscr.bits := by
  induction requests generalizing machine with
  | nil => exact .refl _ _
  | cons request requests ih =>
    have step := machine.perform_accrues bus (spares request List.mem_cons_self)
    have rest := ih (machine.perform bus request).machine
      (fun later member => spares later (List.mem_cons_of_mem request member))
    exact (step.mono (Fpscr.stickyCauses_inside _)).trans rest

/-- Exceptions stick. In a run that writes no FPSCR fields the enables, the controls and
the causes that nothing notices are at the end what they were at the start. From any
moment of the run on, a cause that is set stays set, FR and FI are not set again, and FX
and VXIDI go only in a step that checks operands. -/
theorem exceptions_stick (machine : Machine σ) (earlier later : List Request)
    (spares : ∀ request ∈ earlier ++ later, request.isOf Operation.writesFpscr = false) :
    let start := machine.core.fpscr.bits
    let reached := machine.performAll bus earlier
    let now := reached.core.fpscr.bits
    let final := (machine.performAll bus (earlier ++ later)).core.fpscr.bits
    (∀ field ∈ [Fpscr.ve, Fpscr.oe, Fpscr.ue, Fpscr.ze, Fpscr.xe, Fpscr.ni, Fpscr.rn, Fpscr.reserved,
        Fpscr.ox, Fpscr.ux, Fpscr.xx, Fpscr.vximz, Fpscr.vxvc, Fpscr.vxsoft],
      final &&& field = start &&& field) ∧
    (∀ cause ∈ [Fpscr.zx, Fpscr.vxsnan, Fpscr.vxisi, Fpscr.vxzdz, Fpscr.vxsqrt, Fpscr.vxcvi],
      Has now cause → Has final cause) ∧
    (∀ bit ∈ [Fpscr.fr, Fpscr.fi], Has final bit → Has now bit) ∧
    ∀ request rest, later = request :: rest → ∀ bit ∈ [Fpscr.fx, Fpscr.vxidi],
      Has now bit → ¬ Has (reached.perform bus request).machine.core.fpscr.bits bit →
        request.isOf Operation.checksOperands = true := by
  intro start reached now final
  have before : Accrues Fpscr.stickyCauses start now :=
    machine.performAll_accrues bus fun request member => spares request (List.mem_append_left later member)
  have after : Accrues Fpscr.stickyCauses now final := by
    simp only [final, performAll_append]
    exact reached.performAll_accrues bus fun request member => spares request (List.mem_append_right earlier member)
  refine ⟨?_, ?_, ?_, ?_⟩
  · intro field member
    exact (before.trans after).keeps.mono (Fpscr.inside_of_all (by decide) member)
  · intro cause member
    exact after.gains cause (Fpscr.inside_of_all (by decide) member)
  · intro bit member
    exact after.fades bit (Fpscr.inside_of_all (by decide) member)
  · intro request rest next bit member isSet isGone
    have step := reached.perform_accrues bus (spares request (by simp [next]))
    cases checks : request.isOf Operation.checksOperands with
    | true => rfl
    | false =>
      -- A step that checks nothing keeps these two bits as well.
      rw [checks] at step
      exact absurd (step.gains bit (Fpscr.inside_of_all (by decide) member) isSet) isGone

/-- A quotient of zeros, a sum whose check clears FX, and a NaN that has no integer, which
clears FR and FI: the cause of the first is still there at the end, and so is OX. -/
theorem exceptions_stick_of_quotient_and_conversion :
    let machine := resting 0x90060002 (.native .towardPosInf none) (Bank.zero.set 4 0x7FF8000000000000)
    let earlier : List Request := [.word 0xFC611024]
    let later : List Request := [.word 0xFC61102A, .word 0xFCA0201E]
    let now := (machine.performAll Memory.bus earlier).core.fpscr.bits
    let final := (machine.performAll Memory.bus (earlier ++ later)).core.fpscr.bits
    now = 0xB0271002 ∧ final = 0x30202102 ∧
      (∀ request ∈ earlier ++ later, request.isOf Operation.writesFpscr = false) ∧
      Has final Fpscr.vxzdz ∧ final &&& Fpscr.ox = machine.core.fpscr.bits &&& Fpscr.ox := by
  intro machine earlier later now final
  have spares : ∀ request ∈ earlier ++ later, request.isOf Operation.writesFpscr = false := by decide
  obtain ⟨keeps, gains, -⟩ := exceptions_stick Memory.bus machine earlier later spares
  refine ⟨by decide +kernel, by decide +kernel, spares, ?_, ?_⟩
  · exact gains Fpscr.vxzdz (by simp) (by decide +kernel)
  · exact keeps Fpscr.ox (by simp)

end Machine

end PowerFpu
