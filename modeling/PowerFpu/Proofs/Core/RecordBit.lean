import PowerFpu.Proofs.Core.TransferProtocol
import PowerFpu.Proofs.Instruction.Fields

/-! What the record bit of an instruction word is for.

Two runs of one word, with the record bit set and with it cleared, are compared. The bit is
read by the operations that have a record form, after they have completed, and by nothing
else: decoding, results, accesses and FPSCR are the same. -/

set_option autoImplicit false

namespace PowerFpu

def recordBit (record : Bool) (inst : Word) : Word :=
  if record then inst ||| 1 else inst &&& ~~~1

section Word
variable (record : Bool) (inst : Word)

theorem getLsbD_recordBit {i : Nat} (above : 0 < i) : (recordBit record inst).getLsbD i = inst.getLsbD i := by
  have outside : (1#32).getLsbD i = false := by simp [Nat.ne_of_gt above]
  cases record with
  | true =>
    change (inst ||| 1#32).getLsbD i = _
    rw [BitVec.getLsbD_or, outside, Bool.or_false]
  | false =>
    change (inst &&& ~~~1#32).getLsbD i = _
    rw [BitVec.getLsbD_and, BitVec.getLsbD_not, outside]
    by_cases bound : i < 32
    · simp [bound]
    · simp [Nat.le_of_not_lt bound]

theorem getLsbD_zero_recordBit : (recordBit record inst).getLsbD 0 = record := by
  cases record <;> simp [recordBit]

theorem extractLsb'_recordBit {start : Nat} (above : 0 < start) (count : Nat) :
    (recordBit record inst).extractLsb' start count = inst.extractLsb' start count := by
  apply BitVec.eq_of_getLsbD_eq
  intro i bound
  rw [BitVec.getLsbD_extractLsb', BitVec.getLsbD_extractLsb',
    getLsbD_recordBit record inst (Nat.add_pos_left above i)]

theorem Operation.decode_recordBit : decode (recordBit record inst) = decode inst := by
  have same (opcode : Opcode) : opcode.matchesWord (recordBit record inst) = opcode.matchesWord inst := by
    unfold Opcode.matchesWord
    rw [extractLsb'_recordBit record inst (by decide), extractLsb'_recordBit record inst (by decide),
      extractLsb'_recordBit record inst (by decide)]
  simp only [decode, same]

theorem Operands.decode_recordBit :
    decode (recordBit record inst) =
      { decode inst with record, d := (decode (recordBit record inst)).d } := by
  simp only [decode, extractLsb'_recordBit, getLsbD_zero_recordBit, Nat.zero_lt_succ]

/-- Outside the primary opcodes of loads and stores with a displacement, every transfer is indexed. -/
theorem Operation.indexed_of_decode {op : Transfer} (decoded : decode inst = some (.transfer op))
    (primary : inst.extractLsb' 26 6 ∈ [31, 59, 63]) : op.form.indexed = true := by
  have matched := List.find?_some decoded
  have carried := beq_iff_eq.mp (Bool.and_eq_true_iff.mp matched).1
  rw [carried] at primary
  have all : ∀ op ∈ Transfer.all, op.opcode.primary ∈ [31, 59, 63] → op.form.indexed = true := by decide
  exact all op op.mem_all primary

end Word

namespace Field

theorem getLsbD_mask (index : FieldIndex) {i : Nat} (bound : i < 32) :
    (mask index).getLsbD i = (decide (shift index ≤ i) && decide (i - shift index < 4)) := by
  have run : mask index = Word.span (shift index) 4 := rfl
  rw [run, Word.getLsbD_span bound]

theorem get_set (word : Word) (index other : FieldIndex) (value : BitVec 4) :
    get (set word index value) other = if index = other then value else get word other := by
  apply BitVec.eq_of_getLsbD_eq
  intro i inside
  have bound : shift other + i < 32 := by
    unfold shift
    omega
  simp only [get, set, BitVec.getLsbD_extractLsb', inside, decide_true, Bool.true_and, BitVec.getLsbD_or,
    BitVec.getLsbD_and, BitVec.getLsbD_not, bound, getLsbD_mask, BitVec.getLsbD_shiftLeft, BitVec.getLsbD_setWidth]
  by_cases same : index = other
  · subst same
    have notBelow : ¬ shift index + i < shift index := by omega
    have narrow : i < 32 := by omega
    simp [inside, notBelow, narrow]
  · have apart : shift other + i < shift index ∨ 4 ≤ shift other + i - shift index := by
      have distinct : index.toNat ≠ other.toNat := fun equal => same (BitVec.eq_of_toNat_eq equal)
      unfold shift
      omega
    rw [if_neg same, BitVec.getLsbD_extractLsb']
    rcases apart with below | above
    · simp [inside, below, Nat.not_le_of_lt below]
    · have notBelow : ¬ shift other + i < shift index := by omega
      simp [inside, notBelow, Nat.not_lt_of_le above, value.getLsbD_of_ge _ above]

end Field

theorem ConditionRegister.get_recordExceptions (cr fpscr : Word) (index : FieldIndex) :
    Field.get (recordExceptions cr fpscr) index =
      if index = 1 then fpscr.extractLsb' 28 4 else Field.get cr index := by
  rw [recordExceptions, Field.get_set]
  simp only [eq_comm (a := (1 : FieldIndex))]
  rfl

theorem Operation.outcome_of_hasRecordForm {op : Operation} (records : op.hasRecordForm = true)
    (mode : RoundingMode) (model : ProcessorModel) (operands : Operands) (sources : Sources) (bits : Word) :
    ∃ outcome, op.outcome? mode model operands sources bits = some outcome ∧
      ∀ effect, outcome = .completed effect → effect.field = none := by
  cases op with
  | arithmetic op =>
    refine ⟨_, rfl, ?_⟩
    intro effect completes
    cases completes
    rfl
  | conversion op =>
    refine ⟨_, rfl, ?_⟩
    intro effect completes
    cases op with
    | toSingle =>
      cases completes
      rfl
    | toInteger truncating =>
      obtain ⟨limit, ends⟩ | ⟨result, ends⟩ := Conversion.toIntegerOutcome_cases
        (if truncating then .towardZero else .ofBits bits) mode sources.b bits
      · obtain ⟨-, same⟩ := Conversion.invalid_completed (ends.symm.trans completes)
        rw [same]
      · cases ends.symm.trans completes
        rfl
  | control op =>
    refine ⟨_, rfl, ?_⟩
    intro effect completes
    cases completes
    cases op with
    | drainField => cases records
    | readFpscr | writeFields | writeImmediate | writeBit value => rfl
  | compare ordered | transfer op => cases records

/-- The end of a step with the exception bits of its FPSCR copied, if it completed. -/
def Step.recordExceptions {σ : Type} (step : Step σ) : Step σ :=
  match step.result with
  | .ok _ =>
    let core := step.machine.core
    { step with machine := { step.machine with
        core := { core with cr := ConditionRegister.recordExceptions core.cr core.fpscr.bits } } }
  | .error _ => step

namespace Machine

variable {σ : Type} (bus : Bus σ) (machine : Machine σ)

section Dispatch
variable {op : Operation} {operands : Operands}

/-- A record form does what the plain form does, and then copies the exception bits. -/
theorem dispatch_recording (records : op.hasRecordForm = true) :
    machine.dispatch bus op { operands with record := true } =
      (machine.dispatch bus op { operands with record := false }).recordExceptions := by
  -- The outcome does not depend on the record bit.
  have same : machine.outcome? op (Operands.seenBy { operands with record := true } op) =
      machine.outcome? op (Operands.seenBy { operands with record := false } op) := by
    cases op with
    | control op => cases op <;> rfl
    | arithmetic op | conversion op | compare ordered | transfer op => rfl
  obtain ⟨outcome, yields, -⟩ := op.outcome_of_hasRecordForm records
    (machine.core.fpscr.host.working machine.thread) machine.core.model
    (Operands.seenBy { operands with record := false } op) (machine.sources operands) machine.core.fpscr.bits
  have yieldsRecording := same.trans yields
  cases outcome with
  | completed effect =>
    rw [machine.dispatch_completed bus op _ yields, machine.dispatch_completed bus op _ yieldsRecording]
    simp only [Step.recordExceptions, applyEffect, Operands.seenBy, records, rewrite_bits]
    rfl
  | trapped bits =>
    rw [machine.dispatch_trapped bus op _ yields, machine.dispatch_trapped bus op _ yieldsRecording]
    rfl

theorem dispatch_unrecorded (recordless : op.hasRecordForm = false) (record : Bool) :
    machine.dispatch bus op { operands with record } = machine.dispatch bus op operands := by
  simp only [dispatch_eq, Operands.seenBy, recordless, Bool.and_false]

theorem dispatch_displaced (operands : Operands)
    (indexed : ∀ transfer, op = .transfer transfer → transfer.form.indexed = true) (d : Word) :
    machine.dispatch bus op { operands with d } = machine.dispatch bus op operands ∧
      machine.accessesOf op { operands with d } = machine.accessesOf op operands := by
  cases op with
  | control op => cases op <;> exact ⟨rfl, rfl⟩
  | arithmetic op | conversion op | compare ordered => exact ⟨rfl, rfl⟩
  | transfer op =>
    have same : op.form.effective { operands with d } machine.core.gpr =
        op.form.effective operands machine.core.gpr :=
      AddressForm.effective_congr rfl rfl (by simp only [Operands.offset, indexed op rfl, if_true])
    cases addressed : op.form.effective operands machine.core.gpr with
    | error exception =>
      rw [machine.dispatch_refused bus addressed, machine.accessesOf_refused op operands addressed]
      rw [← same] at addressed
      exact ⟨machine.dispatch_refused bus addressed, machine.accessesOf_refused op _ addressed⟩
    | ok address =>
      rw [machine.dispatch_addressed bus addressed, machine.accessesOf_addressed op operands addressed]
      rw [← same] at addressed
      refine ⟨(machine.dispatch_addressed bus addressed).trans ?_, machine.accessesOf_addressed op _ addressed⟩
      rfl

theorem dispatch_cr (operands : Operands) (records : op.hasRecordForm = true) (clear : operands.record = false) :
    (machine.dispatch bus op operands).machine.core.cr = machine.core.cr := by
  obtain ⟨outcome, yields, fieldless⟩ := op.outcome_of_hasRecordForm records
    (machine.core.fpscr.host.working machine.thread) machine.core.model (operands.seenBy op)
    (machine.sources operands) machine.core.fpscr.bits
  cases outcome with
  | completed effect =>
    rw [machine.dispatch_completed bus op operands yields]
    simp only [applyEffect, fieldless effect rfl, Operands.seenBy, clear]
    rfl
  | trapped bits =>
    rw [machine.dispatch_trapped bus op operands yields]
    rfl

end Dispatch

/-- What a completed record form does besides: it copies the exception bits and is counted as one. -/
def addRecord (machine : Machine σ) : Machine σ :=
  { machine with core := { machine.core with
      cr := ConditionRegister.recordExceptions machine.core.cr machine.core.fpscr.bits
      statistics :=
        { machine.core.statistics with recordForms := machine.core.statistics.recordForms + 1 } } }

/-- Two machines that differ in field 1 of the condition register and in the count of record
forms, if in anything. -/
structure AlikeButRecord (machine other : Machine σ) : Prop where
  gpr : machine.core.gpr = other.core.gpr
  fpr : machine.core.fpr = other.core.fpr
  fpscr : machine.core.fpscr = other.core.fpscr
  cr : ∀ index, index ≠ 1 → Field.get machine.core.cr index = Field.get other.core.cr index
  model : machine.core.model = other.core.model
  trace : machine.core.trace = other.core.trace
  statistics :
    { machine.core.statistics with recordForms := other.core.statistics.recordForms } = other.core.statistics
  bus : machine.bus = other.bus
  thread : machine.thread = other.thread

theorem AlikeButRecord.refl (machine : Machine σ) : AlikeButRecord machine machine :=
  ⟨rfl, rfl, rfl, fun _ _ => rfl, rfl, rfl, rfl, rfl, rfl⟩

theorem alikeButRecord_addRecord (machine : Machine σ) : AlikeButRecord machine.addRecord machine where
  gpr := rfl
  fpr := rfl
  fpscr := rfl
  cr index other := by
    have copied := ConditionRegister.get_recordExceptions machine.core.cr machine.core.fpscr.bits index
    rwa [if_neg other] at copied
  model := rfl
  trace := rfl
  statistics := rfl
  bus := rfl
  thread := rfl

theorem account_recordForms (op : Operation) (result : Except Exception Unit) (statistics : Statistics) :
    (account op false result statistics).recordForms = statistics.recordForms := by
  cases result with
  | ok done =>
    simp only [account, Statistics.completed, Bool.false_and, Statistics.record]
    cases op.opClass <;> rfl
  | error exception =>
    rcases exception with (_ | _) | _ | _ <;> rfl

section Word
variable {inst : Word} {op : Operation} (decoded : Operation.decode inst = some op)
  (primary : inst.extractLsb' 26 6 ∈ [31, 59, 63])
include decoded primary

theorem dispatch_recordBit (record : Bool) :
    machine.dispatch bus op (.decode (recordBit record inst)) =
        machine.dispatch bus op { Operands.decode inst with record } ∧
      machine.accessesOf op (.decode (recordBit record inst)) =
        machine.accessesOf op { Operands.decode inst with record } := by
  have indexed (transfer : Transfer) (same : op = .transfer transfer) : transfer.form.indexed = true :=
    Operation.indexed_of_decode inst (decoded.trans (congrArg some same)) primary
  rw [Operands.decode_recordBit]
  exact machine.dispatch_displaced bus { Operands.decode inst with record } indexed
    (Operands.decode (recordBit record inst)).d

theorem seen_recordBit (record : Bool) :
    machine.seen bus (.word (recordBit record inst)) = machine.accessesOf op (Operands.decode inst) := by
  have decodes := (Operation.decode_recordBit record inst).trans decoded
  rw [machine.seen_decoded bus (Request.operation?_word decodes),
    (machine.dispatch_recordBit bus decoded primary record).2]
  cases op <;> rfl

theorem execute_recordBit (record : Bool) :
    let step := machine.dispatch bus op { Operands.decode inst with record }
    (machine.execute bus (recordBit record inst)).result = step.result ∧
      (machine.execute bus (recordBit record inst)).machine =
        step.machine.mapStatistics (account op record step.result) := by
  have decodes := (Operation.decode_recordBit record inst).trans decoded
  obtain ⟨result, after⟩ := machine.execute_decoded bus decodes
  have bit : (Operands.decode (recordBit record inst)).record = record := getLsbD_zero_recordBit record inst
  rw [(machine.dispatch_recordBit bus decoded primary record).1, bit] at after
  rw [(machine.dispatch_recordBit bus decoded primary record).1] at result
  exact ⟨result, after⟩

theorem execute_recordless (recordless : op.hasRecordForm = false) :
    (machine.execute bus (recordBit true inst)).result = (machine.execute bus (recordBit false inst)).result ∧
      (machine.execute bus (recordBit true inst)).machine =
        (machine.execute bus (recordBit false inst)).machine := by
  obtain ⟨result, after⟩ := machine.execute_recordBit bus decoded primary true
  obtain ⟨resultPlain, afterPlain⟩ := machine.execute_recordBit bus decoded primary false
  have uncounted : account op true = account op false := by
    funext result statistics
    simp only [account, Statistics.completed, recordless, Bool.and_false]
  rw [result, after, resultPlain, afterPlain, uncounted, machine.dispatch_unrecorded bus recordless true,
    machine.dispatch_unrecorded bus recordless false]
  exact ⟨rfl, rfl⟩

theorem execute_recording (records : op.hasRecordForm = true) :
    let recording := machine.execute bus (recordBit true inst)
    let plain := machine.execute bus (recordBit false inst)
    recording.result = plain.result ∧
      (plain.result = .ok () → recording.machine = plain.machine.addRecord) ∧
      (plain.result ≠ .ok () → recording.machine = plain.machine) := by
  intro recording plain
  obtain ⟨result, after⟩ := machine.execute_recordBit bus decoded primary true
  obtain ⟨resultPlain, afterPlain⟩ := machine.execute_recordBit bus decoded primary false
  rw [result, after, resultPlain, afterPlain, machine.dispatch_recording bus records]
  generalize machine.dispatch bus op { Operands.decode inst with record := false } = step
  obtain ⟨exception | done, events, after⟩ := step
  · exact ⟨rfl, nofun, fun _ => rfl⟩
  · refine ⟨rfl, fun _ => ?_, fun fails => absurd rfl fails⟩
    simp only [Step.recordExceptions, account, Statistics.completed, records, mapStatistics, addRecord]
    rfl

theorem execute_plain (records : op.hasRecordForm = true) :
    (machine.execute bus (recordBit false inst)).machine.core.cr = machine.core.cr ∧
      (machine.execute bus (recordBit false inst)).machine.core.statistics.recordForms =
        machine.core.statistics.recordForms := by
  let operands := { Operands.decode inst with record := false }
  obtain ⟨-, after⟩ := machine.execute_recordBit bus decoded primary false
  rw [after]
  refine ⟨machine.dispatch_cr bus operands records rfl, ?_⟩
  have counted := machine.dispatch_statistics bus op operands
  simp only [mapStatistics]
  rw [account_recordForms, counted]

end Word

/-- The record bit is transparent but for field 1 of the condition register. A word means the
same with the bit set and with it clear, and the two runs end in the same way, after the same
accesses. A completed record form ends with FX, FEX, VX and OX of the new FPSCR in field 1;
everything else ends in the same machine. -/
theorem record_bit_transparent (bus : Bus σ) (machine : Machine σ) (inst : Word)
    (primary : inst.extractLsb' 26 6 ∈ [31, 59, 63]) :
    let recording := machine.execute bus (recordBit true inst)
    let plain := machine.execute bus (recordBit false inst)
    Operation.decode (recordBit true inst) = Operation.decode inst ∧
      Operation.decode (recordBit false inst) = Operation.decode inst ∧
      recording.result = plain.result ∧
      machine.seen bus (.word (recordBit true inst)) = machine.seen bus (.word (recordBit false inst)) ∧
      AlikeButRecord recording.machine plain.machine ∧
      (∀ op, Operation.decode inst = some op → op.hasRecordForm = true → plain.result = .ok () →
        Field.get recording.machine.core.cr 1 = recording.machine.core.fpscr.bits.extractLsb' 28 4 ∧
          recording.machine.core.statistics.recordForms = machine.core.statistics.recordForms + 1 ∧
          Field.get plain.machine.core.cr 1 = Field.get machine.core.cr 1 ∧
          plain.machine.core.statistics.recordForms = machine.core.statistics.recordForms) ∧
      ((∀ op, Operation.decode inst = some op → op.hasRecordForm = true → plain.result ≠ .ok ()) →
        recording.machine = plain.machine) := by
  intro recording plain
  refine ⟨Operation.decode_recordBit true inst, Operation.decode_recordBit false inst, ?_⟩
  have decodes (record : Bool) := Operation.decode_recordBit record inst
  cases decoded : Operation.decode inst with
  | none =>
    obtain ⟨result, after⟩ := machine.execute_undecoded bus ((decodes true).trans decoded)
    obtain ⟨resultPlain, afterPlain⟩ := machine.execute_undecoded bus ((decodes false).trans decoded)
    have same : recording.machine = plain.machine := after.trans afterPlain.symm
    refine ⟨result.trans resultPlain.symm, ?_, same ▸ .refl _, nofun, fun _ => same⟩
    have silent (record : Bool) : machine.seen bus (.word (recordBit record inst)) = [] :=
      machine.seen_undecoded bus (congrArg (Option.map _) ((decodes record).trans decoded))
    exact (silent true).trans (silent false).symm
  | some op =>
    have accesses := (machine.seen_recordBit bus decoded primary true).trans
      (machine.seen_recordBit bus decoded primary false).symm
    cases records : op.hasRecordForm with
    | false =>
      obtain ⟨result, same⟩ := machine.execute_recordless bus decoded primary records
      refine ⟨result, accesses, same ▸ .refl _, ?_, fun _ => same⟩
      intro other isOther otherRecords
      cases isOther
      exact absurd otherRecords (Bool.eq_false_iff.mp records)
    | true =>
      obtain ⟨result, recorded, failed⟩ := machine.execute_recording bus decoded primary records
      obtain ⟨cr, recordForms⟩ := machine.execute_plain bus decoded primary records
      by_cases completes : plain.result = .ok ()
      · have same : recording.machine = plain.machine.addRecord := recorded completes
        refine ⟨result, accesses, same ▸ alikeButRecord_addRecord plain.machine, ?_, ?_⟩
        · intro other isOther otherRecords otherCompletes
          rw [same]
          refine ⟨?_, congrArg (· + 1) recordForms, congrArg (Field.get · 1) cr, recordForms⟩
          exact ConditionRegister.get_recordExceptions plain.machine.core.cr plain.machine.core.fpscr.bits 1
        · intro fails
          exact absurd completes (fails op rfl records)
      · have same : recording.machine = plain.machine := failed completes
        refine ⟨result, accesses, same ▸ .refl _, ?_, fun _ => same⟩
        intro other isOther otherRecords otherCompletes
        exact absurd otherCompletes completes

/-- A sum of two NaNs with VE set, which completes and sums up its causes, and a conversion
of one of them, which traps. -/
theorem record_bit_transparent_of_enabled_nan :
    let machine := resting 0x80 (.native .nearest none)
      ((Bank.zero.set 1 0x7FF8000000000000).set 2 0x7FF8000000000000)
    let recording := machine.execute Memory.bus 0xFC61102B
    let plain := machine.execute Memory.bus 0xFC61102A
    (0xFC61102A : Word).extractLsb' 26 6 ∈ [31, 59, 63] ∧ AlikeButRecord recording.machine plain.machine ∧
      Field.get recording.machine.core.cr 1 = 0xE ∧ recording.machine.core.statistics.recordForms = 1 ∧
      Field.get plain.machine.core.cr 1 = 0 ∧
      (machine.execute Memory.bus 0xFC20101D).machine = (machine.execute Memory.bus 0xFC20101C).machine := by
  intro machine recording plain
  have primary : (0xFC61102A : Word).extractLsb' 26 6 ∈ [31, 59, 63] := by decide
  obtain ⟨-, -, -, -, alike, records, -⟩ := record_bit_transparent Memory.bus machine 0xFC61102A primary
  obtain ⟨cr, recordForms, crPlain, -⟩ := records (.arithmetic (.binary .add .double)) (by decide) rfl rfl
  obtain ⟨-, -, -, -, -, -, same⟩ := record_bit_transparent Memory.bus machine 0xFC20101C (by decide)
  have traps : (machine.execute Memory.bus 0xFC20101C).result = .error .floatingPointEnabled := by
    simp only [machine]
    rfl
  refine ⟨primary, alike, cr.trans ?_, recordForms, crPlain.trans ?_, same fun op _ _ completes => ?_⟩
  · decide +kernel
  · decide
  · cases traps.symm.trans completes

end Machine

end PowerFpu
