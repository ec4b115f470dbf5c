import PowerFpu.Proofs.Core.ControlWrites
import PowerFpu.Proofs.Core.FusedExceptions
import PowerFpu.Proofs.Core.RecordBit

/-! Reading the FPSCR field by field into the condition register.

A field is read as it was and drained of its exception bits, which is a masked write of
zeros. So the order of such reads does not show, and once every field has been read there
is no exception left. -/

set_option autoImplicit false

namespace PowerFpu

open Fpscr

namespace Fpscr

def exceptionsIn (field : FieldIndex) : Word :=
  Field.mask field &&& clearable

def exceptionsAmong (fields : List FieldIndex) : Word :=
  fields.foldr (fun field mask => exceptionsIn field ||| mask) 0

section Drain
variable (field : FieldIndex) (bits : Word)

theorem drainField_eq : drainField field bits = writeMasked (exceptionsIn field) 0 bits := by
  rw [drainField, writeMasked, merge_zero, exceptionsIn]

theorem not_has_drainField : ¬ Has (drainField field bits) (exceptionsIn field) := by
  have outside : exceptionsIn field &&& ~~~summary = exceptionsIn field := by
    revert field
    decide
  rw [drainField, ((agree_summarize _).mono outside).has]
  exact not_has_clear (BitVec.and_self)

theorem agree_drainField_outside :
    Agree (~~~(exceptionsIn field ||| summary)) (drainField field bits) bits := by
  have apart : exceptionsIn field &&& ~~~(exceptionsIn field ||| summary) = 0 := by
    revert field
    decide
  have outside : ~~~(exceptionsIn field ||| summary) &&& ~~~summary = ~~~(exceptionsIn field ||| summary) := by
    rw [BitVec.not_or, BitVec.and_assoc, BitVec.and_self]
  exact ((agree_summarize _).mono outside).trans (agree_clear _ apart)

theorem ofBits_drainField : RoundingMode.ofBits (drainField field bits) = .ofBits bits :=
  (agree_drainField field bits (by decide) (by decide)).ofBits

end Drain

section Among
variable {fields others : List FieldIndex}

theorem exceptionsIn_or_among {field : FieldIndex} (member : field ∈ fields) :
    exceptionsIn field ||| exceptionsAmong fields = exceptionsAmong fields := by
  induction member with
  | head rest =>
    change exceptionsIn field ||| (exceptionsIn field ||| exceptionsAmong rest) = _
    rw [← BitVec.or_assoc, BitVec.or_self]
    rfl
  | @tail other rest _ ih =>
    change exceptionsIn field ||| (exceptionsIn other ||| exceptionsAmong rest) =
      exceptionsIn other ||| exceptionsAmong rest
    rw [← BitVec.or_assoc, BitVec.or_comm (exceptionsIn field), BitVec.or_assoc, ih]

theorem exceptionsAmong_or_of_subset (subset : fields ⊆ others) :
    exceptionsAmong fields ||| exceptionsAmong others = exceptionsAmong others := by
  induction fields with
  | nil => exact BitVec.zero_or
  | cons field fields ih =>
    obtain ⟨member, rest⟩ := List.cons_subset.mp subset
    calc
      exceptionsAmong (field :: fields) ||| exceptionsAmong others =
          exceptionsIn field ||| (exceptionsAmong fields ||| exceptionsAmong others) := BitVec.or_assoc _ _ _
      _ = exceptionsAmong others := by rw [ih rest, exceptionsIn_or_among member]

/-- Neither the order of the fields nor their number matters. -/
theorem exceptionsAmong_congr (subset : fields ⊆ others) (superset : others ⊆ fields) :
    exceptionsAmong fields = exceptionsAmong others := by
  rw [← exceptionsAmong_or_of_subset superset, BitVec.or_comm]
  exact exceptionsAmong_or_of_subset subset

theorem exceptionsAmong_of_all (all : ∀ field, field ∈ fields) : exceptionsAmong fields = clearable := by
  have every : ∀ field, field ∈ ([0, 1, 2, 3, 4, 5, 6, 7] : List FieldIndex) := by decide
  calc
    exceptionsAmong fields = exceptionsAmong [0, 1, 2, 3, 4, 5, 6, 7] :=
      exceptionsAmong_congr (fun field _ => every field) (fun field _ => all field)
    _ = clearable := by decide

end Among

theorem cleared_summarized (bits : Word) : Summarized (bits &&& ~~~(clearable ||| summary)) := by
  have none (part : Word) (inside : part &&& (clearable ||| summary) = part) :
      ¬ Has (bits &&& ~~~(clearable ||| summary)) part :=
    not_has_clear inside
  constructor
  · rw [← has_invalidCauses]
    exact iff_of_false (none vx (by decide)) (none invalidCauses (by decide))
  · apply iff_of_false (none fex (by decide))
    rintro (⟨set, -⟩ | ⟨set, -⟩ | ⟨set, -⟩ | ⟨set, -⟩ | ⟨set, -⟩)
    · exact none vx (by decide) set
    · exact none ox (by decide) set
    · exact none ux (by decide) set
    · exact none zx (by decide) set
    · exact none xx (by decide) set

theorem writeMasked_clearable (bits : Word) :
    writeMasked clearable 0 bits = bits &&& ~~~(clearable ||| summary) := by
  apply (summarize_summarized _).eq_of_agree (cleared_summarized bits)
  have split : ~~~(clearable ||| summary) = ~~~clearable &&& ~~~summary := BitVec.not_or
  have kept : Agree (~~~summary) (bits &&& ~~~clearable) (bits &&& ~~~(clearable ||| summary)) := by
    rw [Agree, split, ← BitVec.and_assoc, BitVec.and_assoc _ (~~~summary), BitVec.and_self]
  rw [← merge_zero] at kept
  exact (agree_writeMasked clearable 0 bits).trans kept

end Fpscr

/-- Requests that read the given fields of the FPSCR, each into a field of its choice. -/
abbrev Drains (requests : List Request) (fields : List FieldIndex) : Prop :=
  List.Forall₂ (fun request field => ∃ operands,
    request.operation? = some (.control .drainField, operands) ∧ operands.crfs = field) requests fields

namespace Machine

variable {σ : Type}

section Reads
variable (bus : Bus σ) (machine : Machine σ)

/-- A read keeps RN, so the environment hears of nothing. -/
theorem perform_drain {request : Request} {operands : Operands}
    (decoded : request.operation? = some (.control .drainField, operands)) :
    let host := machine.core.fpscr.host
    let after := (machine.perform bus request).machine
    (machine.perform bus request).result = .ok () ∧
      after.core.fpscr = ⟨drainField operands.crfs machine.core.fpscr.bits, .closed host.kind host.rounding⟩ ∧
      after.core.cr =
        Field.set machine.core.cr operands.crfd (Field.get machine.core.fpscr.bits operands.crfs) := by
  intro host after
  let bits := drainField operands.crfs machine.core.fpscr.bits
  obtain ⟨result, change, same⟩ := machine.perform_decoded bus decoded
  rw [machine.dispatch_completed bus (.control .drainField) operands rfl] at result same
  have unheard : machine.core.fpscr.heard bits = host.rounding :=
    if_pos (ofBits_drainField operands.crfs machine.core.fpscr.bits)
  have written : (machine.rewrite bits).core.fpscr = ⟨bits, .closed host.kind host.rounding⟩ := by
    rw [rewrite_eq, unheard]
  refine ⟨result, ?_, ?_⟩
  · rw [show after = _ from same]
    exact written
  · have quiet : (operands.seenBy (.control .drainField)).record = false := Bool.and_false operands.record
    rw [show after = _ from same]
    simp only [mapStatistics, applyEffect, quiet, Bool.false_eq_true, if_false]
    rfl

theorem performAll_drains {requests : List Request} {fields : List FieldIndex} (drains : Drains requests fields)
    (nonempty : fields ≠ []) :
    (machine.performAll bus requests).core.fpscr =
      ⟨writeMasked (exceptionsAmong fields) 0 machine.core.fpscr.bits,
        .closed machine.core.fpscr.host.kind machine.core.fpscr.host.rounding⟩ := by
  -- On the reads, from any machine: what the first of them clears is joined to what the others clear.
  induction drains generalizing machine with
  | nil => exact absurd rfl nonempty
  | @cons request field requests fields drain drains ih =>
    obtain ⟨operands, decoded, isField⟩ := drain
    obtain ⟨-, fpscr, -⟩ := machine.perform_drain bus decoded
    rw [isField, drainField_eq] at fpscr
    change ((machine.perform bus request).machine.performAll bus requests).core.fpscr = _
    cases fields with
    | nil =>
      cases drains
      have last : exceptionsAmong [field] = exceptionsIn field := BitVec.or_zero
      rw [last]
      exact fpscr
    | cons next fields =>
      rw [ih _ (List.cons_ne_nil next fields), fpscr]
      simp only [HostEnvironment.kind_closed, HostEnvironment.rounding_closed, writeMasked_writeMasked]
      rfl

end Reads

/-- Reading a field of the FPSCR into the condition register drains it. The field arrives as it
was, in its own place only; its exception bits are then clear, the summaries are right, and
nothing else of the FPSCR has changed. Reads of all eight fields, in any order and into
any places, end with the same register: no exception, cause or summary is left in it, and
the result description, the enables and the modes are as they were. -/
theorem fields_drained (bus : Bus σ) (machine : Machine σ) :
    let before := machine.core.fpscr
    (∀ (request : Request) (operands : Operands),
      request.operation? = some (.control .drainField, operands) →
        let step := machine.perform bus request
        let after := step.machine.core.fpscr.bits
        step.result = .ok () ∧
          Field.get step.machine.core.cr operands.crfd = Field.get before.bits operands.crfs ∧
          (∀ index, index ≠ operands.crfd →
            Field.get step.machine.core.cr index = Field.get machine.core.cr index) ∧
          ¬ Has after (Field.mask operands.crfs &&& clearable) ∧
          Agree (~~~((Field.mask operands.crfs &&& clearable) ||| summary)) after before.bits ∧
          Summarized after) ∧
    ∀ (requests : List Request) (fields : List FieldIndex), Drains requests fields →
      (∀ field, field ∈ fields) →
        let after := (machine.performAll bus requests).core.fpscr
        after = ⟨before.bits &&& ~~~(clearable ||| summary), .closed before.host.kind before.host.rounding⟩ ∧
          ¬ Has after.bits (fx ||| fex ||| vx ||| ox ||| ux ||| zx ||| xx ||| invalidCauses) ∧
          Agree (fr ||| fi ||| fprf ||| reserved ||| ve ||| oe ||| ue ||| ze ||| xe ||| ni ||| rn)
            after.bits before.bits := by
  intro before
  constructor
  · intro request operands decoded step after
    obtain ⟨result, fpscr, cr⟩ := machine.perform_drain bus decoded
    have word : after = drainField operands.crfs before.bits := congrArg Fpscr.bits fpscr
    rw [show step.machine.core.cr = _ from cr, word]
    refine ⟨result, ?_, ?_, not_has_drainField _ _, agree_drainField_outside _ _, drainField_summarized _ _⟩
    · rw [Field.get_set, if_pos rfl]
    · intro index other
      rw [Field.get_set, if_neg (Ne.symm other)]
  · intro requests fields drains all after
    have final : after =
        ⟨before.bits &&& ~~~(clearable ||| summary), .closed before.host.kind before.host.rounding⟩ := by
      rw [show after = _ from machine.performAll_drains bus drains (List.ne_nil_of_mem (all 0)),
        exceptionsAmong_of_all all, writeMasked_clearable]
    refine ⟨final, ?_, ?_⟩
    · rw [final]
      exact not_has_clear (by decide)
    · rw [final]
      exact agree_clear _ (by decide)

/-- Every bit set but those of RN. The fields are read from the last to the first, all into field 7,
and field 3, which holds a cause among the bits of the result, once more at the end. -/
theorem fields_drained_of_all_set :
    let machine := resting 0xFFFFFFFC (.native .nearest none) .zero
    let words : List Word := [0xFF9C0080, 0xFF980080, 0xFF940080, 0xFF900080, 0xFF8C0080, 0xFF880080,
      0xFF840080, 0xFF800080, 0xFF8C0080]
    let first := machine.perform Memory.bus (.word 0xFF9C0080)
    Field.get first.machine.core.cr 7 = 0xC ∧
      (machine.performAll Memory.bus (words.map .word)).core.fpscr = ⟨0x0007F8FC, .native .nearest none⟩ := by
  intro machine words first
  obtain ⟨reads, drained⟩ := machine.fields_drained Memory.bus
  have decodes : (words.all fun inst => Operation.decode inst == some (.control .drainField)) = true := by decide
  have drains : Drains (words.map .word) (words.map fun inst => (Operands.decode inst).crfs) := by
    rw [Drains, List.forall₂_map_left_iff, List.forall₂_map_right_iff, List.forall₂_same]
    intro inst member
    have decoded := beq_iff_eq.mp (List.all_eq_true.mp decodes inst member)
    exact ⟨.decode inst, Request.operation?_word decoded, rfl⟩
  obtain ⟨-, field, -⟩ := reads (.word 0xFF9C0080) (.decode 0xFF9C0080) (by decide)
  obtain ⟨final, -⟩ := drained _ _ drains (by decide)
  exact ⟨field.trans (by decide), final.trans (by decide)⟩

end Machine

end PowerFpu
