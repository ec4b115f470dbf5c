import PowerFpu.Proofs.Core.Failure
import PowerFpu.Proofs.Execution.TransferForms

/-! The protocol of loads and stores.

Each of them makes one access, at the sum of a base and an offset, unless it is an update
form without a base register. The forms of one transfer differ in where the offset comes
from and in whether the address goes back to the base register, and in nothing else. -/

set_option autoImplicit false

namespace PowerFpu

def Request.isWord : Request → Bool
  | .word _ => true
  | .decoded .. => false

/-- How a transfer is counted, whichever it is; one that was decoded beforehand is not. -/
def Request.tally (request : Request) (result : Except Exception Unit) (statistics : Statistics) : Statistics :=
  if request.isWord then
    match result with
    | .ok _ => statistics.record .memory
    | .error exception => statistics.failed exception
  else statistics

theorem Request.tally_congr {request other : Request} (word : request.isWord = other.isWord) :
    request.tally = other.tally := by
  funext result statistics
  simp only [tally, word]

theorem Request.tally_word (inst : Word) (op : Transfer) (record : Bool) :
    (Request.word inst).tally = Machine.account (.transfer op) record := by
  -- The record bit means nothing to a transfer, so no record form is counted.
  have uncounted : (record && (Operation.transfer op).hasRecordForm) = false := Bool.and_false _
  funext result statistics
  cases result with
  | error exception => rfl
  | ok done =>
    simp only [Machine.account, Statistics.completed, uncounted]
    rfl

def Machine.setGpr {σ : Type} (machine : Machine σ) (index : RegisterIndex) (value : Word) : Machine σ :=
  { machine with core := { machine.core with gpr := machine.core.gpr.set index value } }

/-- Where an update form ends when its plain form ends in this step: the address goes to
the base register, if the access succeeded. -/
def Step.writeBack {σ : Type} (step : Step σ) (base : RegisterIndex) (address : Word) : Machine σ :=
  match step.result with
  | .ok _ => step.machine.setGpr base address
  | .error _ => step.machine

namespace Machine

variable {σ : Type}

def conclude (machine : Machine σ) (op : Transfer) (operands : Operands) (address : Word) :
    Except Exception (Option Doubleword) × σ → Step σ
  | (.error exception, next) => ⟨.error exception, [], { machine.leave with bus := next }⟩
  | (.ok loaded, next) =>
    ⟨.ok (), [], { machine.leave with bus := next, core := machine.leave.receive op operands address loaded }⟩

section Transfer
variable (bus : Bus σ) (machine : Machine σ) {op : Transfer} {operands : Operands} {address : Word}

theorem dispatch_addressed (addressed : op.form.effective operands machine.core.gpr = .ok address) :
    machine.dispatch bus (.transfer op) operands =
      machine.conclude op operands address
        (op.perform bus (machine.core.fpscr.host.working machine.thread) address
          (machine.core.fpr.get operands.rd) machine.bus) := by
  rcases served : op.perform bus (machine.core.fpscr.host.working machine.thread) address
      (machine.core.fpr.get operands.rd) machine.bus with ⟨exception | loaded, next⟩
  · exact machine.dispatch_faulted bus addressed served
  · exact machine.dispatch_received bus addressed served

variable {request : Request} (decoded : request.operation? = some (.transfer op, operands))
include decoded

theorem perform_transfer :
    let ended := machine.dispatch bus (.transfer op) operands
    (machine.perform bus request).result = ended.result ∧
      (machine.perform bus request).machine = ended.machine.mapStatistics (request.tally ended.result) := by
  cases request with
  | decoded otherOp otherOperands =>
    cases decoded
    exact ⟨rfl, rfl⟩
  | word inst =>
    obtain ⟨found, decodes, same⟩ := Option.map_eq_some_iff.mp decoded
    cases same
    rw [Request.tally_word inst op (Operands.decode inst).record]
    exact machine.execute_decoded bus decodes

end Transfer

section Forms
variable (bus : Bus σ) (machine : Machine σ) (stores : Bool) (precision : Precision) {form other : AddressForm}
  {operands otherOperands : Operands} (rd : operands.rd = otherOperands.rd) (ra : operands.ra = otherOperands.ra)
include rd ra

theorem conclude_congr (update : form.update = other.update) (address : Word)
    (served : Except Exception (Option Doubleword) × σ) :
    machine.conclude (.floating stores precision form) operands address served =
      machine.conclude (.floating stores precision other) otherOperands address served := by
  obtain ⟨exception | loaded, next⟩ := served
  · rfl
  · simp only [conclude, receive, Transfer.form_floating, update, rd, ra]

theorem conclude_update (indexed : Bool) (address : Word) (served : Except Exception (Option Doubleword) × σ) :
    let plain := machine.conclude (.floating stores precision ⟨indexed, false⟩) operands address served
    let updating := machine.conclude (.floating stores precision ⟨indexed, true⟩) otherOperands address served
    updating.result = plain.result ∧ updating.machine = plain.writeBack operands.ra address := by
  obtain ⟨exception | loaded, next⟩ := served
  · exact ⟨rfl, rfl⟩
  · refine ⟨rfl, ?_⟩
    simp only [conclude, receive, Step.writeBack, setGpr, Transfer.form_floating, rd, ra]
    rfl

/-- Two forms with the same registers and the same offset are one transfer. -/
theorem dispatch_congr (update : form.update = other.update)
    (offset : operands.offset machine.core.gpr form.indexed =
      otherOperands.offset machine.core.gpr other.indexed) :
    machine.dispatch bus (.transfer (.floating stores precision form)) operands =
        machine.dispatch bus (.transfer (.floating stores precision other)) otherOperands ∧
      machine.accessesOf (.transfer (.floating stores precision form)) operands =
        machine.accessesOf (.transfer (.floating stores precision other)) otherOperands := by
  have same : (Transfer.floating stores precision form).form.effective operands machine.core.gpr =
      (Transfer.floating stores precision other).form.effective otherOperands machine.core.gpr := by
    rw [Transfer.form_floating, Transfer.form_floating]
    exact AddressForm.effective_congr update ra offset
  cases addressed : (Transfer.floating stores precision form).form.effective operands machine.core.gpr with
  | error exception =>
    rw [machine.dispatch_refused bus addressed, machine.accessesOf_refused _ _ addressed]
    rw [same] at addressed
    rw [machine.dispatch_refused bus addressed, machine.accessesOf_refused _ _ addressed]
    exact ⟨rfl, rfl⟩
  | ok address =>
    rw [machine.dispatch_addressed bus addressed, machine.accessesOf_addressed _ _ addressed]
    rw [same] at addressed
    rw [machine.dispatch_addressed bus addressed, machine.accessesOf_addressed _ _ addressed]
    rw [Transfer.access_floating stores precision form other, Transfer.perform_floating stores precision form other,
      rd]
    exact ⟨machine.conclude_congr stores precision rd ra update address _, rfl⟩

theorem dispatch_update {indexed : Bool} (based : operands.ra ≠ 0)
    (offset : operands.offset machine.core.gpr indexed = otherOperands.offset machine.core.gpr indexed) :
    let plain := machine.dispatch bus (.transfer (.floating stores precision ⟨indexed, false⟩)) operands
    let updating := machine.dispatch bus (.transfer (.floating stores precision ⟨indexed, true⟩)) otherOperands
    ∃ access,
      machine.accessesOf (.transfer (.floating stores precision ⟨indexed, false⟩)) operands = [access] ∧
      machine.accessesOf (.transfer (.floating stores precision ⟨indexed, true⟩)) otherOperands = [access] ∧
      updating.result = plain.result ∧ updating.machine = plain.writeBack operands.ra access.address := by
  let address := machine.core.gpr.get operands.ra + operands.offset machine.core.gpr indexed
  have addressed : (Transfer.floating stores precision ⟨indexed, false⟩).form.effective operands
      machine.core.gpr = .ok address := by
    rw [Transfer.form_floating]
    exact AddressForm.effective_of_based based
  have addressedOther : (Transfer.floating stores precision ⟨indexed, true⟩).form.effective otherOperands
      machine.core.gpr = .ok address := by
    rw [Transfer.form_floating, AddressForm.effective_of_based (ra ▸ based), ← ra, ← offset]
  rw [machine.dispatch_addressed bus addressed, machine.dispatch_addressed bus addressedOther,
    Transfer.perform_floating stores precision ⟨indexed, true⟩ ⟨indexed, false⟩, ← rd]
  -- Both make one access, and its reply decides how both of them end.
  refine ⟨_, machine.accessesOf_addressed _ _ addressed, ?_, ?_⟩
  · rw [machine.accessesOf_addressed _ _ addressedOther, ← rd,
      Transfer.access_floating stores precision ⟨indexed, true⟩ ⟨indexed, false⟩]
  · rw [Transfer.access_address]
    exact machine.conclude_update stores precision rd ra indexed address _

end Forms

/-- The access of a transfer, or why it makes none. -/
inductive Reaches (bus : Bus σ) (machine : Machine σ) (request : Request) (op : Transfer) (operands : Operands) :
    Prop where
  | baseless (update : op.form.update = true) (base : operands.ra = 0)
      (result : (machine.perform bus request).result = .error .illegal)
      (silent : machine.seen bus request = [])
  | served (access : Access) (legal : ¬(op.form.update = true ∧ operands.ra = 0))
      (only : machine.seen bus request = [access])
      (direction : access.isStore = op.isStore)
      (width : access.width = op.width)
      (address : (access.address.toNat : Int) = op.form.sum operands machine.core.gpr % 2 ^ 32)
      (result : (machine.perform bus request).result = (bus.serve access machine.bus).1.map fun _ => ())

/-- The registers that a transfer may change: the target of a load and the base of an update form. -/
structure Confined (before after : Machine σ) (op : Transfer) (operands : Operands) : Prop where
  fpscr : after.core.fpscr.bits = before.core.fpscr.bits
  rounding : after.core.fpscr.host.rounding = before.core.fpscr.host.rounding
  cr : after.core.cr = before.core.cr
  fpr : ∀ index, after.core.fpr.get index ≠ before.core.fpr.get index → op.isStore = false ∧ index = operands.rd
  gpr : ∀ index, after.core.gpr.get index ≠ before.core.gpr.get index →
    op.form.update = true ∧ index = operands.ra

section Single
variable (bus : Bus σ) (machine : Machine σ)

theorem conclude_result (op : Transfer) (operands : Operands) (address : Word)
    (served : Except Exception (Option Doubleword) × σ) :
    (machine.conclude op operands address served).result = served.1.map fun _ => () := by
  obtain ⟨exception | loaded, next⟩ := served
  · rfl
  · rfl

theorem dispatch_confined (op : Transfer) (operands : Operands) :
    Confined machine (machine.dispatch bus (.transfer op) operands).machine op operands := by
  have step := machine.dispatched bus (.transfer op) operands
  generalize machine.dispatch bus (.transfer op) operands = ended at step
  cases step with
  | completed effect yields => cases yields
  | trapped bits yields => cases yields
  | refused | faulted =>
    exact ⟨rfl, machine.leave_rounding, rfl, fun _ changed => absurd rfl changed, fun _ changed => absurd rfl changed⟩
  | transferred transfer address loaded next isTransfer addressed served =>
    cases isTransfer
    refine ⟨rfl, machine.leave_rounding, rfl, ?_, ?_⟩
    · intro index changed
      cases loaded with
      | none => exact absurd rfl changed
      | some value => exact ⟨op.isStore_of_loaded _ _ _ bus _ served, Bank.eq_of_get_set_ne changed⟩
    · intro index changed
      simp only [receive] at changed
      split at changed
      next update => exact ⟨update, Bank.eq_of_get_set_ne changed⟩
      next => exact absurd rfl changed

variable {request : Request} {op : Transfer} {operands : Operands}
  (decoded : request.operation? = some (.transfer op, operands))
include decoded

theorem perform_confined : Confined machine (machine.perform bus request).machine op operands := by
  obtain ⟨-, same⟩ := machine.perform_transfer bus decoded
  obtain ⟨fpscr, rounding, cr, fpr, gpr⟩ := machine.dispatch_confined bus op operands
  rw [same]
  exact ⟨fpscr, rounding, cr, fpr, gpr⟩

theorem perform_reaches : Reaches bus machine request op operands := by
  obtain ⟨result, -⟩ := machine.perform_transfer bus decoded
  have seen := machine.seen_decoded bus decoded
  cases addressed : op.form.effective operands machine.core.gpr with
  | error exception =>
    obtain ⟨illegal, update, base⟩ := AddressForm.effective_refused addressed
    rw [machine.dispatch_refused bus addressed, illegal] at result
    exact .baseless update base result (seen.trans (machine.accessesOf_refused op operands addressed))
  | ok address =>
    obtain ⟨legal, wraps⟩ := AddressForm.effective_addressed addressed
    have only := seen.trans (machine.accessesOf_addressed op operands addressed)
    rw [machine.dispatch_addressed bus addressed, conclude_result, Transfer.perform_reply] at result
    apply Reaches.served _ legal only
    · exact op.access_isStore _ _ _
    · exact op.access_width _ _ _
    · rw [op.access_address]
      exact wraps
    · exact result

end Single

/-- Two transfers name the same registers, and both are words or neither is. -/
structure Alike (request other : Request) (operands otherOperands : Operands) : Prop where
  word : request.isWord = other.isWord
  rd : operands.rd = otherOperands.rd
  ra : operands.ra = otherOperands.ra

section Forms
variable (bus : Bus σ) (machine : Machine σ) {stores : Bool} {precision : Precision} {request other : Request}
  {operands otherOperands : Operands} (alike : Alike request other operands otherOperands)
include alike

theorem perform_congr {form otherForm : AddressForm}
    (decoded : request.operation? = some (.transfer (.floating stores precision form), operands))
    (decodedOther : other.operation? = some (.transfer (.floating stores precision otherForm), otherOperands))
    (update : form.update = otherForm.update)
    (offset : operands.offset machine.core.gpr form.indexed =
      otherOperands.offset machine.core.gpr otherForm.indexed) :
    (machine.perform bus request).result = (machine.perform bus other).result ∧
      machine.seen bus request = machine.seen bus other ∧
      (machine.perform bus request).machine = (machine.perform bus other).machine := by
  obtain ⟨sameEnd, sameAccess⟩ :=
    machine.dispatch_congr bus stores precision alike.rd alike.ra update offset
  obtain ⟨result, after⟩ := machine.perform_transfer bus decoded
  obtain ⟨resultOther, afterOther⟩ := machine.perform_transfer bus decodedOther
  rw [result, resultOther, after, afterOther, machine.seen_decoded bus decoded,
    machine.seen_decoded bus decodedOther, sameEnd, sameAccess, Request.tally_congr alike.word]
  exact ⟨rfl, rfl, rfl⟩

theorem perform_update {indexed : Bool} (based : operands.ra ≠ 0)
    (decoded : request.operation? = some (.transfer (.floating stores precision ⟨indexed, false⟩), operands))
    (decodedOther :
      other.operation? = some (.transfer (.floating stores precision ⟨indexed, true⟩), otherOperands))
    (offset : operands.offset machine.core.gpr indexed = otherOperands.offset machine.core.gpr indexed) :
    ∃ access, machine.seen bus request = [access] ∧ machine.seen bus other = [access] ∧
      (machine.perform bus other).result = (machine.perform bus request).result ∧
      (machine.perform bus other).machine =
        (machine.perform bus request).writeBack operands.ra access.address := by
  obtain ⟨access, only, onlyOther, sameResult, back⟩ :=
    machine.dispatch_update bus stores precision alike.rd alike.ra based offset
  obtain ⟨result, after⟩ := machine.perform_transfer bus decoded
  obtain ⟨resultOther, afterOther⟩ := machine.perform_transfer bus decodedOther
  refine ⟨access, (machine.seen_decoded bus decoded).trans only,
    (machine.seen_decoded bus decodedOther).trans onlyOther, ?_, ?_⟩
  · rw [resultOther, sameResult, result]
  · rw [afterOther, back, sameResult, Request.tally_congr alike.word.symm]
    simp only [Step.writeBack, result, after]
    -- The counters and the base register are apart.
    split
    · rfl
    · rfl

end Forms

/-- Loads and stores follow one protocol. Each makes one access, or is an update form
without a base and makes none. A displacement and a register with the same contents
address alike, and an update form is its plain form with the address put back. -/
theorem transfer_protocol (bus : Bus σ) (machine : Machine σ) :
    (∀ request op operands, request.operation? = some (.transfer op, operands) →
      Reaches bus machine request op operands ∧
        Confined machine (machine.perform bus request).machine op operands ∧
        ∀ inst, request = .word inst → operands.d.toInt = (inst.extractLsb' 0 16).toInt) ∧
    (∀ stores precision update direct indexed directOperands indexedOperands,
      direct.operation? = some (.transfer (.floating stores precision ⟨false, update⟩), directOperands) →
      indexed.operation? = some (.transfer (.floating stores precision ⟨true, update⟩), indexedOperands) →
      Alike direct indexed directOperands indexedOperands →
      machine.core.gpr.get indexedOperands.rb = directOperands.d →
        (machine.perform bus direct).result = (machine.perform bus indexed).result ∧
          machine.seen bus direct = machine.seen bus indexed ∧
          (machine.perform bus direct).machine = (machine.perform bus indexed).machine) ∧
    ∀ stores precision indexed plain updating plainOperands updatingOperands,
      plain.operation? = some (.transfer (.floating stores precision ⟨indexed, false⟩), plainOperands) →
      updating.operation? = some (.transfer (.floating stores precision ⟨indexed, true⟩), updatingOperands) →
      Alike plain updating plainOperands updatingOperands → plainOperands.ra ≠ 0 →
      plainOperands.offset machine.core.gpr indexed = updatingOperands.offset machine.core.gpr indexed →
        ∃ access, machine.seen bus plain = [access] ∧ machine.seen bus updating = [access] ∧
          (machine.perform bus updating).result = (machine.perform bus plain).result ∧
          (machine.perform bus updating).machine =
            (machine.perform bus plain).writeBack plainOperands.ra access.address := by
  refine ⟨?_, ?_, ?_⟩
  · intro request op operands decoded
    refine ⟨machine.perform_reaches bus decoded, machine.perform_confined bus decoded, ?_⟩
    intro inst isWord
    cases isWord
    obtain ⟨found, -, same⟩ := Option.map_eq_some_iff.mp decoded
    cases same
    exact Operands.toInt_decode_d inst
  · intro stores precision update direct indexed directOperands indexedOperands decodesDirect decodesIndexed alike
      same
    exact machine.perform_congr bus alike decodesDirect decodesIndexed rfl same.symm
  · intro stores precision indexed plain updating plainOperands updatingOperands decodesPlain decodesUpdating alike
      based offset
    exact machine.perform_update bus alike based decodesPlain decodesUpdating offset

/-- A negative displacement and a register that holds it; an update form that adds its base
to itself past the end of the addresses; one whose access fails; and one without a base. -/
theorem transfer_protocol_of_aliased_base :
    let machine := (((resting 0 (.native .nearest none) .zero).setGpr 3 0x80008010).setGpr 4 0x10010).setGpr 6
      0xFFFFFFF8
    (machine.perform Memory.bus (.word 0xC024FFF8)).machine =
        (machine.perform Memory.bus (.word 0x7C24342E)).machine ∧
      machine.seen Memory.bus (.word 0x7C231C6E) = [.readWord 0x10020] ∧
      (machine.perform Memory.bus (.word 0x7C231C6E)).machine.core.gpr.get 3 = 0x10020 ∧
      machine.seen Memory.bus (.word 0x7C2425EE) = [.writeDoubleword 0x20020 0] ∧
      (machine.perform Memory.bus (.word 0x7C2425EE)).machine.core.gpr.get 4 = 0x10010 ∧
      (machine.perform Memory.bus (.word 0xC4200008)).result = .error .illegal := by
  intro machine
  obtain ⟨protocol, forms, updates⟩ := transfer_protocol Memory.bus machine
  obtain ⟨-, -, same⟩ := forms false .single false (.word 0xC024FFF8) (.word 0x7C24342E) (.decode 0xC024FFF8)
    (.decode 0x7C24342E) (by decide) (by decide) ⟨rfl, by decide, by decide⟩ (by decide)
  obtain ⟨access, seenPlain, seen, -, after⟩ := updates false .single true (.word 0x7C231C2E) (.word 0x7C231C6E)
    (.decode 0x7C231C2E) (.decode 0x7C231C6E) (by decide) (by decide) ⟨rfl, by decide, by decide⟩ (by decide)
    (by decide)
  have only : machine.seen Memory.bus (.word 0x7C231C2E) = [.readWord 0x10020] := by decide +kernel
  cases only.symm.trans seenPlain
  obtain ⟨access, seenPlain, seenFailing, -, afterFailing⟩ := updates true .double true (.word 0x7C2425AE)
    (.word 0x7C2425EE) (.decode 0x7C2425AE) (.decode 0x7C2425EE) (by decide) (by decide)
    ⟨rfl, by decide, by decide⟩ (by decide) (by decide)
  have onlyFailing : machine.seen Memory.bus (.word 0x7C2425AE) = [.writeDoubleword 0x20020 0] := by decide +kernel
  cases onlyFailing.symm.trans seenPlain
  obtain ⟨reaches, -⟩ := protocol (.word 0xC4200008) (.load .single ⟨false, true⟩) (.decode 0xC4200008) (by decide)
  refine ⟨same, seen, ?_, seenFailing, ?_, ?_⟩
  · rw [after]
    decide +kernel
  · rw [afterFailing]
    decide +kernel
  · cases reaches with
    | baseless update base result silent => exact result
    | served access legal only direction width address result => exact absurd ⟨rfl, by decide⟩ legal

end Machine

end PowerFpu
