import PowerFpu.Proofs.Bus.FlatMemory
import PowerFpu.Proofs.Core.RecordBit
import PowerFpu.Proofs.Core.StickyExceptions

/-! What a completed instruction leaves alone.

Each part of a machine names the operations that may change it, and where; everything
else is as it was. The operand fields mean different things to different operations, so
the operation and the operands are looked at together. -/

set_option autoImplicit false

namespace PowerFpu

open Fpscr (Agree)

/-! The operations that may change a part of the machine. -/

namespace Operation

/-- Whether a floating-point register, the one numbered rd, receives a result. -/
def delivers : Operation → Bool
  | .arithmetic _ | .conversion _ => true
  | .compare _ => false
  | .control op => op = .readFpscr
  | .transfer op => !op.isStore

def updatesBase : Operation → Bool
  | .transfer op => op.form.update
  | .arithmetic _ | .conversion _ | .compare _ | .control _ => false

def stores : Operation → Bool
  | .transfer op => op.isStore
  | .arithmetic _ | .conversion _ | .compare _ | .control _ => false

/-- Whether the condition field numbered crfd receives a code or a field of the FPSCR. -/
def writesField : Operation → Bool
  | .compare _ => true
  | .control op => op = .drainField
  | .arithmetic _ | .conversion _ | .transfer _ => false

def sparesFpscr : Operation → Bool
  | .arithmetic (.move _) | .arithmetic .select | .control .readFpscr | .transfer _ => true
  | .arithmetic _ | .conversion _ | .compare _ | .control _ => false

def setsRounding : Operation → Bool
  | .control .writeFields | .control .writeImmediate | .control (.writeBit _) => true
  | .arithmetic _ | .conversion _ | .compare _ | .control _ | .transfer _ => false

section Outcome
variable {op : Operation} {mode : RoundingMode} {model : ProcessorModel} {operands : Operands} {sources : Sources}
  {bits : Word}

section Completed
variable {effect : Effect} (yields : op.outcome? mode model operands sources bits = some (.completed effect))
include yields

theorem delivers_of_target {value : Doubleword} (target : effect.target = some value) : op.delivers = true := by
  cases op with
  | arithmetic op | conversion op => rfl
  | compare ordered =>
    cases yields
    cases target
  | control op =>
    cases op with
    | readFpscr => rfl
    | writeFields | writeImmediate | writeBit value | drainField =>
      cases yields
      cases target
  | transfer op => cases yields

theorem writesField_of_field {index : FieldIndex} {value : BitVec 4} (field : effect.field = some (index, value)) :
    op.writesField = true ∧ index = operands.crfd := by
  cases op with
  | arithmetic op =>
    cases yields
    cases field
  | conversion op =>
    have records : (Operation.conversion op).hasRecordForm = true := rfl
    obtain ⟨outcome, same, none⟩ := outcome_of_hasRecordForm records mode model operands sources bits
    rw [yields] at same
    rw [none effect (Option.some.inj same).symm] at field
    cases field
  | compare ordered =>
    cases yields
    cases field
    exact ⟨rfl, rfl⟩
  | control op =>
    cases op with
    | drainField =>
      cases yields
      cases field
      exact ⟨rfl, rfl⟩
    | readFpscr | writeFields | writeImmediate | writeBit value =>
      cases yields
      cases field
  | transfer op => cases yields

theorem fpscr_of_spares (spares : op.sparesFpscr = true) : effect.fpscr = bits := by
  cases op with
  | arithmetic op =>
    cases op with
    | move change | select =>
      cases yields
      rfl
    | binary kind precision | fused kind precision | squareRoot precision | rootEstimate | reciprocalEstimate =>
      cases spares
  | control op =>
    cases op with
    | readFpscr =>
      cases yields
      rfl
    | writeFields | writeImmediate | writeBit value | drainField => cases spares
  | conversion op | compare ordered => cases spares
  | transfer op => cases yields

end Completed

theorem agree_rn_of_spares {outcome : Outcome} (yields : op.outcome? mode model operands sources bits = some outcome)
    (spares : op.setsRounding = false) : Agree Fpscr.rn outcome.fpscr bits := by
  cases written : op.writesFpscr with
  | false => exact (accrues_outcome written yields).keeps.mono (by decide)
  | true =>
    cases op with
    | control op =>
      cases op with
      | drainField =>
        cases yields
        exact Fpscr.agree_drainField _ _ (by decide) (by decide)
      | readFpscr => cases written
      | writeFields | writeImmediate | writeBit value => cases spares
    | arithmetic op | conversion op | compare ordered | transfer op => cases written

end Outcome

end Operation

theorem ConditionRegister.get_recorded {record : Bool} {field : FieldIndex} (spared : ¬ (record = true ∧ field = 1))
    (cr fpscr : Word) : Field.get (if record then recordExceptions cr fpscr else cr) field = Field.get cr field := by
  split
  next set =>
    have other : field ≠ 1 := fun first => spared ⟨set, first⟩
    rw [get_recordExceptions, if_neg other]
  next => rfl

theorem Access.isStore_of_writes {access : Access} {place : Nat} (writes : access.Writes place) :
    access.isStore = true ∧ access.address.toNat ≤ place ∧
      place < access.address.toNat + access.width / 8 := by
  cases access with
  | readWord address | readDoubleword address => cases writes
  | writeWord address value | writeDoubleword address value =>
    obtain ⟨low, high⟩ := writes
    exact ⟨rfl, low, by simpa only [Access.address, width, Nat.reduceDiv] using high⟩

theorem Memory.serve_of_read {access : Access} (reads : access.isStore = false) (memory : Memory) :
    (bus.serve access memory).2 = memory := by
  cases access with
  | readWord address | readDoubleword address => rfl
  | writeWord address value | writeDoubleword address value => cases reads

/-- What a completed instruction may change inside the processor. -/
structure Framed {σ : Type} (op : Operation) (operands : Operands) (before after : Machine σ) : Prop where
  fpr : ∀ index, after.core.fpr.get index ≠ before.core.fpr.get index →
    op.delivers = true ∧ index = operands.rd
  gpr : ∀ index, after.core.gpr.get index ≠ before.core.gpr.get index →
    op.updatesBase = true ∧ index = operands.ra
  cr : ∀ field, Field.get after.core.cr field ≠ Field.get before.core.cr field →
    (op.writesField = true ∧ field = operands.crfd) ∨
      (op.hasRecordForm = true ∧ operands.record = true ∧ field = 1)
  fpscr : op.sparesFpscr = true → after.core.fpscr.bits = before.core.fpscr.bits
  rounding : op.setsRounding = false →
    after.core.fpscr.rounding = before.core.fpscr.rounding ∧
      after.core.fpscr.host.rounding = before.core.fpscr.host.rounding
  model : after.core.model = before.core.model
  trace : after.core.trace = before.core.trace
  thread : before.core.fpscr.host.isOpen = false → after.thread = before.thread

/-- What an instruction may change in flat memory, with the general registers it starts from. -/
structure FramedMemory (op : Operation) (operands : Operands) (gpr : Bank 32) (before after : Memory) : Prop where
  extent : Memory.SameExtent before after
  bytes : ∀ place, after.byte? place ≠ before.byte? place →
    ∃ transfer address, op = .transfer transfer ∧ transfer.isStore = true ∧
      transfer.form.effective operands gpr = .ok address ∧
      address.toNat ≤ place ∧ place < address.toNat + transfer.width / 8
  others : op.stores = false → after = before

theorem FramedMemory.refl (op : Operation) (operands : Operands) (gpr : Bank 32) (memory : Memory) :
    FramedMemory op operands gpr memory memory where
  extent := ⟨rfl, rfl⟩
  bytes := fun _ changed => absurd rfl changed
  others := fun _ => rfl

namespace Machine

section Dispatch
variable {σ : Type} (bus : Bus σ) (machine : Machine σ) (op : Operation) (operands : Operands)

/-- What no instruction changes: the settings, and the mode of the thread outside the window. -/
theorem dispatch_settings :
    let after := (machine.dispatch bus op operands).machine
    after.core.model = machine.core.model ∧ after.core.trace = machine.core.trace ∧
      after.thread = machine.core.fpscr.host.drop machine.thread := by
  have step := machine.dispatched bus op operands
  generalize machine.dispatch bus op operands = ended at step
  cases step with
  | completed effect yields => exact ⟨rfl, rfl, machine.rewrite_mode effect.fpscr⟩
  | trapped bits yields => exact ⟨rfl, rfl, machine.rewrite_mode bits⟩
  | refused | faulted | transferred => exact ⟨rfl, rfl, rfl⟩

theorem applyEffect_cr {core : Core} {effect : Effect} {field : FieldIndex}
    (changed : Field.get (applyEffect core operands effect).cr field ≠ Field.get core.cr field) :
    (∃ value, effect.field = some (field, value)) ∨ (operands.record = true ∧ field = 1) := by
  by_cases recorded : operands.record = true ∧ field = 1
  · exact .inr recorded
  · apply Or.inl
    cases written : effect.field with
    | none =>
      simp only [applyEffect, written, ConditionRegister.get_recorded recorded] at changed
      exact absurd rfl changed
    | some code =>
      obtain ⟨index, value⟩ := code
      simp only [applyEffect, written, ConditionRegister.get_recorded recorded, Field.get_set] at changed
      by_cases same : index = field
      · rw [same]
        exact ⟨value, rfl⟩
      · rw [if_neg same] at changed
        exact absurd rfl changed

variable {op operands}

theorem framed_completed {effect : Effect}
    (yields : machine.outcome? op (operands.seenBy op) = some (.completed effect)) :
    Framed op operands machine
      { machine.rewrite effect.fpscr with
        core := applyEffect (machine.rewrite effect.fpscr).core (operands.seenBy op) effect } where
  fpr := by
    intro index changed
    cases target : effect.target with
    | none =>
      simp only [applyEffect, target] at changed
      exact absurd rfl changed
    | some value =>
      simp only [applyEffect, target] at changed
      exact ⟨Operation.delivers_of_target yields target, Bank.eq_of_get_set_ne changed⟩
  gpr := fun _ changed => absurd rfl changed
  cr := by
    intro field changed
    obtain ⟨value, writes⟩ | ⟨records, first⟩ := applyEffect_cr _ changed
    · exact .inl (Operation.writesField_of_field yields writes)
    · obtain ⟨record, form⟩ := Bool.and_eq_true_iff.mp records
      exact .inr ⟨form, record, first⟩
  fpscr := fun spares => (machine.rewrite_bits effect.fpscr).trans (Operation.fpscr_of_spares yields spares)
  rounding := by
    intro spares
    have kept : Preserved (fun state => state) machine (machine.rewrite effect.fpscr) :=
      machine.preserved_rewrite (Operation.agree_rn_of_spares yields spares)
    exact ⟨kept.rounding, kept.host⟩
  model := rfl
  trace := rfl
  thread := fun closed => (machine.rewrite_mode effect.fpscr).trans (HostEnvironment.drop_of_closed closed _)

theorem framed_transfer (transfer : Transfer) :
    Framed (.transfer transfer) operands machine
      (machine.dispatch bus (.transfer transfer) operands).machine := by
  obtain ⟨fpscr, rounding, cr, fpr, gpr⟩ := machine.dispatch_confined bus transfer operands
  obtain ⟨model, trace, thread⟩ := machine.dispatch_settings bus (.transfer transfer) operands
  constructor
  · intro index changed
    obtain ⟨loads, target⟩ := fpr index changed
    exact ⟨by rw [Operation.delivers, loads]; rfl, target⟩
  · exact gpr
  · intro field changed
    rw [cr] at changed
    exact absurd rfl changed
  · exact fun _ => fpscr
  · exact fun _ => ⟨congrArg RoundingMode.ofBits fpscr, rounding⟩
  · exact model
  · exact trace
  · exact fun closed => thread.trans (HostEnvironment.drop_of_closed closed _)

theorem framed_inside (inside : ∀ transfer, op ≠ .transfer transfer)
    (completes : (machine.dispatch bus op operands).result = .ok ()) :
    Framed op operands machine (machine.dispatch bus op operands).machine := by
  have step := machine.dispatched bus op operands
  generalize machine.dispatch bus op operands = ended at step completes ⊢
  cases step with
  | completed effect yields => exact machine.framed_completed yields
  | trapped bits yields => cases completes
  | refused transfer exception isTransfer => exact absurd isTransfer (inside transfer)
  | faulted transfer address exception next isTransfer => exact absurd isTransfer (inside transfer)
  | transferred transfer address loaded next isTransfer => exact absurd isTransfer (inside transfer)

theorem dispatch_framed (completes : (machine.dispatch bus op operands).result = .ok ()) :
    Framed op operands machine (machine.dispatch bus op operands).machine := by
  cases op with
  | transfer transfer => exact machine.framed_transfer bus transfer
  | arithmetic op | conversion op | compare ordered | control op => exact machine.framed_inside bus nofun completes

end Dispatch

theorem dispatch_memory (machine : Machine Memory) (op : Operation) (operands : Operands) :
    FramedMemory op operands machine.core.gpr machine.bus (machine.dispatch Memory.bus op operands).machine.bus := by
  rw [machine.dispatch_bus Memory.bus op operands]
  cases op with
  | arithmetic op | conversion op | compare ordered | control op =>
    exact .refl _ operands machine.core.gpr machine.bus
  | transfer transfer =>
    cases addressed : transfer.form.effective operands machine.core.gpr with
    | error exception =>
      rw [machine.accessesOf_refused transfer operands addressed]
      exact .refl _ operands machine.core.gpr machine.bus
    | ok address =>
      rw [machine.accessesOf_addressed transfer operands addressed]
      constructor
      · exact Memory.serve_sameExtent _ machine.bus
      · intro place changed
        have writes := Decidable.not_not.mp fun spares => changed (Memory.byte?_serve spares)
        obtain ⟨stores, low, high⟩ := Access.isStore_of_writes writes
        rw [transfer.access_isStore] at stores
        rw [transfer.access_address] at low high
        rw [transfer.access_width] at high
        exact ⟨transfer, address, rfl, stores, addressed, low, high⟩
      · intro loads
        exact Memory.serve_of_read ((transfer.access_isStore _ _ _).trans loads) machine.bus

end Machine

/-- The frame of a completed instruction word, in any state and with any flat memory. A register
changes only if it is the target of an operation that delivers a result or the base of an
update form; a condition field only if it is the one that the operation writes or field 1 of
a record form with its record bit set; a byte only if a store covers it. -/
theorem completed_frame (machine : Machine Memory) (inst : Word)
    (completes : (machine.execute Memory.bus inst).result = .ok ()) :
    let after := (machine.execute Memory.bus inst).machine
    ∃ op, Operation.decode inst = some op ∧ Framed op (.decode inst) machine after ∧
      FramedMemory op (.decode inst) machine.core.gpr machine.bus after.bus := by
  intro after
  cases decoded : Operation.decode inst with
  | none =>
    obtain ⟨fails, -⟩ := machine.execute_undecoded Memory.bus decoded
    cases completes.symm.trans fails
  | some op =>
    obtain ⟨result, same⟩ := machine.execute_decoded Memory.bus decoded
    rw [result] at completes
    obtain ⟨fpr, gpr, cr, fpscr, rounding, model, trace, thread⟩ := machine.dispatch_framed Memory.bus completes
    have memory := machine.dispatch_memory op (.decode inst)
    refine ⟨op, rfl, ?_, ?_⟩
    · simp only [after, same]
      exact ⟨fpr, gpr, cr, fpscr, rounding, model, trace, thread⟩
    · simp only [after, same]
      exact memory

/-- A store whose displacement is odd, so that the record bit of its word is set: eight bytes of
memory change, from address 9 on, and no register and no condition field does. -/
theorem completed_frame_of_store :
    let machine := { Machine.resting 0x90000000 (.detached .nearest) (Bank.zero.set 3 0x4008000000000000) with
      bus := Memory.zeroed 0 64 }
    let after := (machine.execute Memory.bus 0xD8600009).machine
    (machine.execute Memory.bus 0xD8600009).result = .ok () ∧ (Operands.decode 0xD8600009).record = true ∧
      after.core.fpr = machine.core.fpr ∧ after.core.gpr = machine.core.gpr ∧
      (∀ field, Field.get after.core.cr field = Field.get machine.core.cr field) ∧
      after.core.fpscr.bits = machine.core.fpscr.bits ∧
      (∀ place, place < 9 ∨ 17 ≤ place → after.bus.byte? place = machine.bus.byte? place) ∧
      after.bus.byte? 9 = some 0x40 := by
  intro machine after
  have completes : (machine.execute Memory.bus 0xD8600009).result = .ok () := rfl
  obtain ⟨op, decoded, framed, memory⟩ := completed_frame machine 0xD8600009 completes
  have isStore : op = .transfer (.store .double ⟨false, false⟩) :=
    Option.some.inj (decoded.symm.trans (by decide))
  subst isStore
  refine ⟨completes, by decide, ?_, ?_, ?_, framed.fpscr rfl, ?_, by decide⟩
  · apply Bank.ext
    intro index
    apply Decidable.byContradiction
    intro changed
    exact absurd (framed.fpr index changed).1 (by decide)
  · apply Bank.ext
    intro index
    apply Decidable.byContradiction
    intro changed
    exact absurd (framed.gpr index changed).1 (by decide)
  · intro field
    apply Decidable.byContradiction
    intro changed
    rcases framed.cr field changed with ⟨writes, -⟩ | ⟨records, -, -⟩
    · cases writes
    · cases records
  · intro place outside
    apply Decidable.byContradiction
    intro changed
    obtain ⟨transfer, address, isTransfer, -, addressed, low, high⟩ := memory.bytes place changed
    cases isTransfer
    cases addressed
    change 9 ≤ place at low
    change place < 9 + 8 at high
    omega

end PowerFpu
