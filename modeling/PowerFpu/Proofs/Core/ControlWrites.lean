import PowerFpu.Proofs.Core.Run
import PowerFpu.Proofs.Fpscr.MaskedWrite

/-! The instructions that write the FPSCR agree with one another.

Each is a rewrite of the FPSCR in a window of its own, and windows that follow one
another come to the last of them. So lists of writes that cover the same bits from the
same source leave the same machine, whichever instructions they are made of. -/

set_option autoImplicit false

namespace PowerFpu

open Fpscr (Agree Write writeMasked)

/-- What a control instruction writes into the FPSCR and nowhere else. -/
def Control.write? (op : Control) (operands : Operands) : Option Write :=
  match op with
  | .writeFields => some (.fields operands.fm operands.rb)
  | .writeImmediate => some (.immediate operands.crfd operands.imm)
  | .writeBit value => some (.bit operands.rd value)
  | .readFpscr | .drainField => none

/-- The write that a request stands for, if it does not record as well. -/
def Request.write? (request : Request) : Option Write :=
  match request.operation? with
  | some (.control op, operands) => if operands.record then none else op.write? operands
  | _ => none

abbrev Encodes (requests : List Request) (writes : List Write) : Prop :=
  List.Forall₂ (fun request write => request.write? = some write) requests writes

namespace HostEnvironment

section Closed
variable (kind : HostKind) (mode : RoundingMode) (host : HostEnvironment) (thread : RoundingMode)

@[simp] theorem kind_closed : (closed kind mode).kind = kind := by
  cases kind <;> rfl

@[simp] theorem drop_closed : (closed kind mode).drop thread = thread := by
  cases kind <;> rfl

theorem leave_enter_eq :
    (host.enter thread).1.leave (host.enter thread).2 = (closed host.kind host.rounding, host.drop thread) := by
  rcases host with ⟨guest, _ | saved⟩ | guest <;> rfl

theorem leave_setRounding_enter :
    ((host.enter thread).1.setRounding mode (host.enter thread).2).1.leave
        ((host.enter thread).1.setRounding mode (host.enter thread).2).2 =
      (closed host.kind mode, host.drop thread) := by
  rcases host with ⟨guest, _ | saved⟩ | guest <;> rfl

end Closed

end HostEnvironment

/-- The mode of the environment once a word has been written: it hears of a new RN only. -/
def Fpscr.heard (register : Fpscr) (value : Word) : RoundingMode :=
  if RoundingMode.ofBits value = register.rounding then register.host.rounding else .ofBits value

theorem Fpscr.leave_write_enter (register : Fpscr) (value : Word) (thread : RoundingMode) :
    ((register.enter thread).1.write value (register.enter thread).2).1.leave
        ((register.enter thread).1.write value (register.enter thread).2).2 =
      (⟨value, HostEnvironment.closed register.host.kind (register.heard value)⟩, register.host.drop thread) := by
  unfold write heard
  by_cases same : RoundingMode.ofBits value = register.rounding
  · have unchanged : RoundingMode.ofBits value = (register.enter thread).1.rounding := same
    rw [if_pos unchanged, if_pos same]
    exact congrArg (fun state : HostEnvironment × RoundingMode => ((⟨value, state.1⟩ : Fpscr), state.2))
      (register.host.leave_enter_eq thread)
  · have changed : ¬ RoundingMode.ofBits value = (register.enter thread).1.rounding := same
    rw [if_neg changed, if_neg same]
    exact congrArg (fun state : HostEnvironment × RoundingMode => ((⟨value, state.1⟩ : Fpscr), state.2))
      (register.host.leave_setRounding_enter (.ofBits value) thread)

/-- A write that is written over is not heard, unless it alone changes RN. -/
theorem Fpscr.heard_heard (register : Fpscr) {first second : Word}
    (kept : Agree rn second register.bits → Agree rn first register.bits) :
    (⟨first, .closed register.host.kind (register.heard first)⟩ : Fpscr).heard second =
      register.heard second := by
  rw [agree_rn_iff, agree_rn_iff] at kept
  unfold heard
  rw [HostEnvironment.rounding_closed]
  by_cases same : RoundingMode.ofBits second = register.rounding
  · have again : RoundingMode.ofBits first = register.rounding := kept same
    have unheard : RoundingMode.ofBits second = RoundingMode.ofBits first := same.trans again.symm
    rw [if_pos same, if_pos again]
    exact if_pos unheard
  · rw [if_neg same]
    by_cases again : RoundingMode.ofBits second = RoundingMode.ofBits first
    · have heard : ¬ RoundingMode.ofBits first = register.rounding := fun kept => same (again.trans kept)
      rw [if_neg heard, again]
      exact if_pos rfl
    · exact if_neg again

namespace Machine

variable {σ : Type} (bus : Bus σ) (machine : Machine σ)

def uncounted (machine : Machine σ) : Machine σ :=
  machine.mapStatistics fun _ => .zero

/-- Lists of writes that leave the same machine, by whatever requests they are made. -/
def Coincide (writes others : List Write) : Prop :=
  ∀ requests otherRequests, Encodes requests writes → Encodes otherRequests others →
    (machine.performAll bus requests).uncounted = (machine.performAll bus otherRequests).uncounted

section Rewrite
variable (change : Statistics → Statistics) (bits : Word)

@[simp] theorem uncounted_mapStatistics : (machine.mapStatistics change).uncounted = machine.uncounted := rfl

@[simp] theorem mapStatistics_rewrite :
    (machine.mapStatistics change).rewrite bits = (machine.rewrite bits).mapStatistics change := rfl

@[simp] theorem mapStatistics_bits : (machine.mapStatistics change).core.fpscr.bits = machine.core.fpscr.bits := rfl

theorem rewrite_self : machine.rewrite machine.core.fpscr.bits = machine.leave := by
  have same : machine.enter.writeFpscr machine.core.fpscr.bits = machine.enter := by
    have kept : RoundingMode.ofBits machine.core.fpscr.bits = machine.enter.core.fpscr.rounding := rfl
    simp only [writeFpscr, Fpscr.write, if_pos kept]
    rfl
  rw [rewrite, same, enter_leave]

theorem rewrite_eq :
    machine.rewrite bits =
      { machine with
        core := { machine.core with
          fpscr := ⟨bits, .closed machine.core.fpscr.host.kind (machine.core.fpscr.heard bits)⟩ }
        thread := machine.core.fpscr.host.drop machine.thread } := by
  have written := machine.core.fpscr.leave_write_enter bits machine.thread
  exact congrArg
    (fun state : Fpscr × RoundingMode =>
      { machine with core := { machine.core with fpscr := state.1 }, thread := state.2 }) written

theorem rewrite_rewrite {first second : Word}
    (kept : Agree Fpscr.rn second machine.core.fpscr.bits → Agree Fpscr.rn first machine.core.fpscr.bits) :
    (machine.rewrite first).rewrite second = machine.rewrite second := by
  rw [rewrite_eq, rewrite_eq machine first, rewrite_eq machine second]
  simp only [Fpscr.heard_heard _ kept, HostEnvironment.kind_closed, HostEnvironment.drop_closed]

end Rewrite

section Write

/-- A control write completes with its word in the FPSCR and changes nothing else. -/
theorem perform_write {request : Request} {write : Write} (encodes : request.write? = some write) :
    (machine.perform bus request).result = .ok () ∧
      ∃ change, (machine.perform bus request).machine =
        (machine.rewrite (write.apply machine.core.fpr machine.core.fpscr.bits)).mapStatistics change := by
  unfold Request.write? at encodes
  split at encodes
  next op operands decoded =>
    split at encodes
    next => cases encodes
    next plain =>
      have effect : machine.outcome? (.control op) (operands.seenBy (.control op)) =
          some (.completed ⟨write.apply machine.core.fpr machine.core.fpscr.bits, none, none⟩) := by
        cases op with
        | readFpscr | drainField => cases encodes
        | writeFields | writeImmediate | writeBit value =>
          cases encodes
          rfl
      have quiet : (operands.seenBy (.control op)).record = false := by
        rw [Operands.seenBy, Bool.eq_false_iff.mpr plain]
        rfl
      obtain ⟨result, change, same⟩ := machine.perform_decoded bus decoded
      rw [machine.dispatch_completed bus _ operands effect] at result same
      refine ⟨result, change, ?_⟩
      rw [same]
      simp only [applyEffect, quiet, Bool.false_eq_true, if_false]
  next => cases encodes

theorem perform_ignored {request : Request} {write : Write} (encodes : request.write? = some write)
    (ignored : write.Ignored) : (machine.perform bus request).machine.uncounted = machine.leave.uncounted := by
  obtain ⟨-, change, same⟩ := machine.perform_write bus encodes
  rw [same, Write.apply_of_ignored _ _ ignored, rewrite_self, uncounted_mapStatistics]

/-- Writes that take their bits from one word come to one write of all of them. -/
theorem performAll_writes {requests : List Request} {writes : List Write} {word : Word}
    (encodes : Encodes requests writes) (uniform : Write.Uniform machine.core.fpr word writes) :
    (machine.performAll bus requests).uncounted =
      (machine.rewrite (writeMasked (Write.covered writes) word machine.core.fpscr.bits)).uncounted := by
  induction encodes generalizing machine with
  | nil => exact absurd rfl uniform.some
  | @cons request write requests writes encoded encodes ih =>
    obtain ⟨-, change, same⟩ := machine.perform_write bus encoded
    have first : write.apply machine.core.fpr machine.core.fpscr.bits =
        writeMasked write.mask word machine.core.fpscr.bits := by
      rw [Write.apply_of_effective _ _ (uniform.effective write List.mem_cons_self)]
      exact Fpscr.writeMasked_congr rfl (uniform.agreed write List.mem_cons_self)
    rw [first] at same
    change ((machine.perform bus request).machine.performAll bus requests).uncounted = _
    rw [same]
    cases writes with
    | nil =>
      cases encodes
      have last : Write.covered [write] = write.mask := BitVec.or_zero
      rw [last]
      rfl
    | cons next writes =>
      -- The rest starts from the window of the first write and writes over it.
      let after := (machine.rewrite (writeMasked write.mask word machine.core.fpscr.bits)).mapStatistics change
      have kept : Write.Uniform after.core.fpr word (next :: writes) := uniform.tail
      rw [ih after kept, mapStatistics_bits, rewrite_bits, Fpscr.writeMasked_writeMasked, mapStatistics_rewrite,
        uncounted_mapStatistics, rewrite_rewrite machine Fpscr.agree_rn_writeMasked_part]
      rfl

variable {bus machine}

/-- Neither the order of such writes nor how they are cut up shows in the end. -/
theorem coincide_of_uniform {writes others : List Write} {word : Word}
    (uniform : Write.Uniform machine.core.fpr word writes)
    (uniformOther : Write.Uniform machine.core.fpr word others)
    (same : Write.covered writes = Write.covered others) : machine.Coincide bus writes others := by
  intro requests otherRequests encodes encodesOther
  rw [machine.performAll_writes bus encodes uniform, machine.performAll_writes bus encodesOther uniformOther, same]

theorem coincide_fields {selection first second : BitVec 8} (register : RegisterIndex)
    (covers : first ||| second = selection) :
    machine.Coincide bus [.fields selection register] [.fields first register, .fields second register] := by
  have parts : Write.Uniform machine.core.fpr ((machine.core.fpr.get register).setWidth 32)
      [.fields first register, .fields second register] := by
    apply Write.uniform_fields (List.cons_ne_nil _ _)
    intro write member
    rcases List.mem_pair.mp member with rfl | rfl
    · exact ⟨first, rfl⟩
    · exact ⟨second, rfl⟩
  apply coincide_of_uniform (Write.uniform_whole selection) parts
  change (Field.select selection &&& ~~~Fpscr.summary) ||| 0 =
    (Field.select first &&& ~~~Fpscr.summary) ||| ((Field.select second &&& ~~~Fpscr.summary) ||| 0)
  rw [← covers, Field.select_or, BitVec.and_or_distrib_right, BitVec.or_assoc]

theorem coincide_singles {selection : BitVec 8} (selects : selection ≠ 0) (register : RegisterIndex)
    {writes : List Write} (perm : writes.Perm (Write.singles selection register)) :
    machine.Coincide bus [.fields selection register] writes := by
  apply coincide_of_uniform (Write.uniform_whole selection) ((Write.uniform_singles selects).perm perm)
  rw [Write.covered_perm perm, Write.covered_singles]
  exact BitVec.or_zero

theorem coincide_immediate {field : FieldIndex} {value : BitVec 4} {register : RegisterIndex} (writable : field ≠ 0)
    (same : Field.get ((machine.core.fpr.get register).setWidth 32) field = value) :
    machine.Coincide bus [.immediate field value] [.fields (Field.only field) register] := by
  apply coincide_of_uniform (Write.uniform_immediate writable same) (Write.uniform_whole (Field.only field))
  rw [Write.covered_only writable]
  exact BitVec.or_zero

theorem coincide_bits {field : FieldIndex} {value : BitVec 4} (writable : field ≠ 0) {writes : List Write}
    (perm : writes.Perm (Write.bits field value)) : machine.Coincide bus [.immediate field value] writes := by
  have placed : Field.get (Word.place (Field.shift field) value) field = value :=
    Word.extractLsb'_place value (Field.shift_add_four_le field)
  apply coincide_of_uniform (Write.uniform_immediate writable placed) ((Write.uniform_bits writable placed).perm perm)
  rw [Write.covered_perm perm, Write.covered_bits]
  exact BitVec.or_zero

theorem coincide_ends (register : RegisterIndex) {writes : List Write}
    (perm : writes.Perm (Write.ends ((machine.core.fpr.get register).setWidth 32))) :
    machine.Coincide bus [.fields (Field.only 0) register] writes := by
  apply coincide_of_uniform (Write.uniform_whole (Field.only 0)) ((Write.uniform_ends _).perm perm)
  rw [Write.covered_perm perm, Write.covered_ends]

theorem perform_of_sources {request : Request} {selection : BitVec 8} {register : RegisterIndex} (fpr : Bank 64)
    (encodes : request.write? = some (.fields selection register))
    (agree : Agree (~~~Fpscr.summary) ((fpr.get register).setWidth 32)
      ((machine.core.fpr.get register).setWidth 32)) :
    let other := { machine with core := { machine.core with fpr } }
    (other.perform bus request).machine.core.fpscr = (machine.perform bus request).machine.core.fpscr ∧
      (other.perform bus request).machine.thread = (machine.perform bus request).machine.thread := by
  intro other
  obtain ⟨-, change, same⟩ := machine.perform_write bus encodes
  obtain ⟨-, changeOther, sameOther⟩ := other.perform_write bus encodes
  have inside : Field.select selection &&& ~~~Fpscr.summary &&& ~~~Fpscr.summary =
      Field.select selection &&& ~~~Fpscr.summary := by
    rw [BitVec.and_assoc, BitVec.and_self]
  have bits : Write.apply other.core.fpr (.fields selection register) other.core.fpscr.bits =
      Write.apply machine.core.fpr (.fields selection register) machine.core.fpscr.bits :=
    Fpscr.writeMasked_congr rfl (agree.mono inside)
  rw [same, sameOther, bits]
  exact ⟨rfl, rfl⟩

end Write

end Machine

/-- The control writes agree with one another, in the FPSCR and the environment as in everything
else but the counters. All of them complete. A selection of fields is written as two parts
of it are, in either order, as the same selection twice, and as its single fields in any
order. An immediate is written as that field of a register is, or as its four bits in any
order, and field 0 of a register as its first and its last bit. The ignored writes change
nothing, and what a register holds in the place of the summaries is not read. -/
theorem control_writes_agree {σ : Type} (bus : Bus σ) (machine : Machine σ) :
    (∀ request write, request.write? = some write → (machine.perform bus request).result = .ok ()) ∧
    (∀ first second register,
      let both := Write.fields (first ||| second) register
      machine.Coincide bus [both] [.fields first register, .fields second register] ∧
        machine.Coincide bus [both] [.fields second register, .fields first register]) ∧
    (∀ selection register,
      machine.Coincide bus [.fields selection register] [.fields selection register, .fields selection register]) ∧
    (∀ selection register writes, selection ≠ 0 → writes.Perm (Write.singles selection register) →
      machine.Coincide bus [.fields selection register] writes) ∧
    (∀ field value register, field ≠ 0 →
      Field.get ((machine.core.fpr.get register).setWidth 32) field = value →
      machine.Coincide bus [.immediate field value] [.fields (Field.only field) register]) ∧
    (∀ field value writes, field ≠ 0 → writes.Perm (Write.bits field value) →
      machine.Coincide bus [.immediate field value] writes) ∧
    (∀ register writes, writes.Perm (Write.ends ((machine.core.fpr.get register).setWidth 32)) →
      machine.Coincide bus [.fields (Field.only 0) register] writes) ∧
    (∀ request write, request.write? = some write → write.Ignored →
      (machine.perform bus request).machine.uncounted = machine.leave.uncounted ∧
        (machine.core.fpscr.host.isOpen = false → machine.leave = machine)) ∧
    ∀ request selection register fpr, request.write? = some (.fields selection register) →
      Agree (~~~Fpscr.summary) ((fpr.get register).setWidth 32) ((machine.core.fpr.get register).setWidth 32) →
        let other := { machine with core := { machine.core with fpr } }
        (other.perform bus request).machine.core.fpscr = (machine.perform bus request).machine.core.fpscr ∧
          (other.perform bus request).machine.thread = (machine.perform bus request).machine.thread := by
  refine ⟨fun _ _ encodes => (machine.perform_write bus encodes).1, ?_, ?_, fun _ register _ selects =>
    Machine.coincide_singles selects register, fun _ _ _ => Machine.coincide_immediate,
    fun _ _ _ writable => Machine.coincide_bits writable, fun register _ => Machine.coincide_ends register, ?_,
    fun _ _ _ fpr => Machine.perform_of_sources fpr⟩
  · intro first second register
    exact ⟨Machine.coincide_fields register rfl, Machine.coincide_fields register (BitVec.or_comm second first)⟩
  · intro selection register
    exact Machine.coincide_fields register BitVec.or_self
  · intro request write encodes ignored
    exact ⟨machine.perform_ignored bus encodes ignored, Machine.leave_of_closed⟩

/-- A source with the summaries set takes rounding from toward zero to upward. Its first and last
field are written at once and in both orders, the last one also as an immediate and bit by bit. -/
theorem control_writes_agree_of_new_mode :
    let machine := Machine.resting 0x00000001 (.native .towardZero none) (Bank.zero.set 3 0x70000082)
    let after := fun words : List Word => (machine.performAll Memory.bus (words.map .word)).uncounted
    after [0xFD021D8E] = after [0xFD001D8E, 0xFC021D8E] ∧ after [0xFD021D8E] = after [0xFC021D8E, 0xFD001D8E] ∧
      (after [0xFD021D8E]).core.fpscr = ⟨0x10000002, .native .towardPosInf none⟩ ∧
      after [0xFF80210C] = after [0xFC021D8E] ∧
      after [0xFF80210C] = after [0xFFE0008C, 0xFFC0004C, 0xFFA0008C, 0xFF80008C] := by
  intro machine after
  obtain ⟨-, parts, -, -, field, bits, -, -, -⟩ := control_writes_agree Memory.bus machine
  obtain ⟨inOrder, reversed⟩ := parts 0x80 0x01 3
  have both : Encodes [.word 0xFD021D8E] [.fields (0x80 ||| 0x01) 3] := .cons rfl .nil
  have immediate : Encodes [.word 0xFF80210C] [.immediate 7 2] := .cons rfl .nil
  refine ⟨?_, ?_, ?_, ?_, ?_⟩
  · exact inOrder _ _ both (.cons rfl (.cons rfl .nil))
  · exact reversed _ _ both (.cons rfl (.cons rfl .nil))
  · decide
  · exact field 7 2 3 (by decide) (by decide) _ _ immediate (.cons rfl .nil)
  · exact bits 7 2 _ (by decide) (List.reverse_perm _) _ _ immediate
      (.cons rfl (.cons rfl (.cons rfl (.cons rfl .nil))))

end PowerFpu
