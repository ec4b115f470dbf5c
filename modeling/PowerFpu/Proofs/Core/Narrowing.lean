import PowerFpu.Proofs.Core.ContextSave
import PowerFpu.Proofs.Core.TransferProtocol
import PowerFpu.Proofs.Float.SingleRounding

/-! A single survives its stay in a floating-point register.

A load widens a word exactly, subnormal numbers included, and a store in any mode narrows
the register back to the same word. Of a NaN only that it is one survives. -/

set_option autoImplicit false

namespace PowerFpu

namespace Machine

variable {σ : Type}

/-- Whether a request writes a word on the bus, and nothing else, and ends as the bus replies. -/
structure Writes (bus : Bus σ) (machine : Machine σ) (request : Request) (address word : Word) : Prop where
  only : machine.seen bus request = [.writeWord address word]
  result : (machine.perform bus request).result = (bus.serve (.writeWord address word) machine.bus).1
  after : (machine.perform bus request).machine.bus = (bus.serve (.writeWord address word) machine.bus).2

section Transfer
variable (bus : Bus σ) (machine : Machine σ) {request : Request} {operands : Operands} {form : AddressForm}
  {address : Word}

theorem perform_loadSingle {word : Word}
    (decoded : request.operation? = some (.transfer (.load .single form), operands))
    (addressed : form.effective operands machine.core.gpr = .ok address)
    (held : (bus.serve (.readWord address) machine.bus).1 = .ok word) :
    (machine.perform bus request).result = .ok () ∧
      (machine.perform bus request).machine.core.fpr.get operands.rd = Double.ofSingle word := by
  apply machine.perform_loaded bus decoded addressed
  simp only [Transfer.perform, held]
  rfl

theorem perform_storeSingle
    (decoded : request.operation? = some (.transfer (.store .single form), operands))
    (addressed : form.effective operands machine.core.gpr = .ok address) :
    Writes bus machine request address
      (Double.toSingle (machine.core.fpscr.host.working machine.thread) (machine.core.fpr.get operands.rd)) := by
  let op := Transfer.store .single form
  have reaches : op.form.effective operands machine.core.gpr = .ok address := addressed
  have made : machine.accessesBy request = [.writeWord address
      (Double.toSingle (machine.core.fpscr.host.working machine.thread) (machine.core.fpr.get operands.rd))] := by
    simp only [accessesBy, decoded]
    exact machine.accessesOf_addressed op operands reaches
  obtain ⟨result, -⟩ := machine.perform_transfer bus decoded
  refine ⟨(machine.seen_eq bus request).trans made, ?_, ?_⟩
  · rw [result, machine.dispatch_addressed bus reaches, conclude_result, Transfer.perform_reply]
    -- A write replies with nothing but its success.
    have quiet (reply : Except Exception Unit) : reply.map (fun _ => ()) = reply := by
      cases reply <;> rfl
    exact quiet _
  · rw [machine.perform_bus bus request, made]
    rfl

end Transfer

/-- A word that is loaded as a single and stored as one, from the same register and in any
mode, is written as it was read: the register holds its exact value and its sign. A NaN
stays a NaN in the register and is written as the default one. -/
theorem single_survives (bus : Bus σ) (machine : Machine σ) (load store : Request) (between : List Request)
    (loading storing : Operands) (into out : AddressForm) (source target word : Word) :
    let loaded := machine.perform bus load
    let later := performAll bus between loaded.machine
    let register := loaded.machine.core.fpr.get loading.rd
    load.operation? = some (.transfer (.load .single into), loading) →
    into.effective loading machine.core.gpr = .ok source →
    (bus.serve (.readWord source) machine.bus).1 = .ok word →
    Along bus (KeepsFpr bus loading.rd) between loaded.machine →
    store.operation? = some (.transfer (.store .single out), storing) → storing.rd = loading.rd →
    out.effective storing later.core.gpr = .ok target →
      loaded.result = .ok () ∧
        (Single.value word ≠ .nan → Double.Represents register word ∧ later.Writes bus store target word) ∧
        (Single.value word = .nan →
          Double.value register = .nan ∧ later.Writes bus store target 0x7FC00000) := by
  intro loaded later register loads reads held keeps stores sameRegister writes
  obtain ⟨result, widened⟩ := machine.perform_loadSingle bus loads reads held
  have stored := later.perform_storeSingle bus stores writes
  have kept : later.core.fpr.get storing.rd = register := by
    rw [sameRegister]
    exact get_of_along bus keeps
  rw [kept] at stored
  refine ⟨result, ?_, ?_⟩
  · intro isNumber
    have represents : Double.Represents register word := by
      rw [show register = Double.ofSingle word from widened]
      exact Double.ofSingle_represents isNumber
    rw [represents.toSingle_eq _ isNumber] at stored
    exact ⟨represents, stored⟩
  · intro isNan
    have isNanRegister : Double.value register = .nan := by
      rw [show register = Double.ofSingle word from widened, Double.ofSingle_of_nan isNan]
      rfl
    rw [Double.toSingle_of_nan _ isNanRegister] at stored
    exact ⟨isNanRegister, stored⟩

/-- The negative subnormal next to zero, with the mode changed before it is stored; and a
signalling NaN. -/
theorem single_survives_of_subnormal_and_nan :
    let machine := ((resting 0 (.native .nearest none) .zero).withBus
      (⟨0, #[0x80, 0, 0, 1, 0x7F, 0x80, 0, 1, 0, 0, 0, 0]⟩ : Memory)).setGpr 5 8
    let upward := Request.word 0xFF80210C
    let loaded := (machine.perform Memory.bus (.word 0xC0200000)).machine
    let loadedNan := (machine.perform Memory.bus (.word 0xC0200004)).machine
    Double.Represents (loaded.core.fpr.get 1) 0x80000001 ∧
      (performAll Memory.bus [upward] loaded).Writes Memory.bus (.word 0x7C202D2E) 8 0x80000001 ∧
      (performAll Memory.bus [upward] loadedNan).Writes Memory.bus (.word 0x7C202D2E) 8 0x7FC00000 := by
  intro machine upward loaded loadedNan
  have held : (Memory.bus.serve (.readWord 0) machine.bus).1 = .ok 0x80000001 := by
    simp [machine, setGpr, withBus, Memory.bus, Memory.readWord, Memory.read, Memory.offset, Except.map, ofBigEndian]
  have heldNan : (Memory.bus.serve (.readWord 4) machine.bus).1 = .ok 0x7F800001 := by
    simp [machine, setGpr, withBus, Memory.bus, Memory.readWord, Memory.read, Memory.offset, Except.map, ofBigEndian]
  have keeps : KeepsFpr Memory.bus 1 loaded upward := by
    rw [KeepsFpr]
    decide +kernel
  have keepsNan : KeepsFpr Memory.bus 1 loadedNan upward := by
    rw [KeepsFpr]
    decide +kernel
  have survives := (single_survives Memory.bus machine (.word 0xC0200000) (.word 0x7C202D2E) [upward]
    (.decode 0xC0200000) (.decode 0x7C202D2E) ⟨false, false⟩ ⟨true, false⟩ 0 8 0x80000001 (by decide) rfl held
    ⟨keeps, trivial⟩ (by decide) (by decide) rfl).2.1 (by decide)
  have settles := (single_survives Memory.bus machine (.word 0xC0200004) (.word 0x7C202D2E) [upward]
    (.decode 0xC0200004) (.decode 0x7C202D2E) ⟨false, false⟩ ⟨true, false⟩ 4 8 0x7F800001 (by decide) rfl heldNan
    ⟨keepsNan, trivial⟩ (by decide) (by decide) rfl).2.2 (by decide)
  exact ⟨survives.1, survives.2, settles.2⟩

end Machine

/-! Narrowing in a register and narrowing on the way to memory are one.

Both round once to single, in the mode of RN. What is rounded is settled: narrowing it
again, in any mode, does not move it, and it keeps the order of what it came from. -/

open Double (DeliversSingle)

/-- An instruction that narrows the double `x`, on a machine that rounds in `mode`. -/
structure Narrowing (σ : Type) (mode : RoundingMode) (x : Doubleword) where
  machine : Machine σ
  request : Request
  operands : Operands
  rounds : machine.RoundsIn mode
  decoded : request.operation? = some (.conversion .toSingle, operands)
  source : machine.core.fpr.get operands.rb = x

namespace Narrowing

variable {σ : Type} {mode : RoundingMode} {x : Doubleword} (bus : Bus σ) (narrowing : Narrowing σ mode x)

def step : Step σ :=
  narrowing.machine.perform bus narrowing.request

def stored : Doubleword :=
  (narrowing.step bus).machine.core.fpr.get narrowing.operands.rd

theorem stores : (narrowing.step bus).result = .ok () ∧ narrowing.stored bus = Double.narrow mode x := by
  obtain ⟨machine, request, operands, rounds, decoded, rfl⟩ := narrowing
  let result := Double.narrow mode (machine.core.fpr.get operands.rb)
  have yields : machine.outcome? (.conversion .toSingle) (operands.seenBy (.conversion .toSingle)) =
      some (.completed ⟨Fpscr.classifyResult result machine.core.fpscr.bits, some result, none⟩) := by
    rw [Machine.outcome?, rounds.working]
    rfl
  obtain ⟨completes, -, fpr, -⟩ := Machine.perform_completed bus decoded yields
  refine ⟨completes, ?_⟩
  rw [stored, step, fpr]
  exact Bank.get_set_self _ _ _

end Narrowing

/-- A register that holds `x` is stored as a single on a machine that rounds in `mode`; and
after steps that write none of its four bytes, a single is loaded from the same address. -/
structure Passage (mode : RoundingMode) (x : Doubleword) where
  machine : Machine Memory
  store : Request
  between : List Request
  load : Request
  storing : Operands
  loading : Operands
  out : AddressForm
  into : AddressForm
  address : Word
  rounds : machine.RoundsIn mode
  source : machine.core.fpr.get storing.rd = x
  stores : store.operation? = some (.transfer (.store .single out), storing)
  writes : out.effective storing machine.core.gpr = .ok address
  succeeds : (machine.perform Memory.bus store).result = .ok ()
  spares : Machine.Along Memory.bus (Machine.Spares 4 address) between (machine.perform Memory.bus store).machine
  loads : load.operation? = some (.transfer (.load .single into), loading)
  reads : into.effective loading
    (Machine.performAll Memory.bus between (machine.perform Memory.bus store).machine).core.gpr = .ok address

namespace Machine

variable {machine : Machine Memory} {request : Request} {address word : Word}

theorem Writes.readWord (written : Writes Memory.bus machine request address word)
    (succeeds : (machine.perform Memory.bus request).result = .ok ()) :
    (machine.perform Memory.bus request).machine.bus.readWord address = .ok word := by
  have replied := written.result.symm.trans succeeds
  rw [written.after]
  change (machine.bus.settle (machine.bus.writeWord address word)).1 = .ok () at replied
  change (machine.bus.settle (machine.bus.writeWord address word)).2.readWord address = .ok word
  cases writes : machine.bus.writeWord address word with
  | ok next => exact Memory.readWord_writeWord writes
  | error exception =>
    rw [writes] at replied
    cases replied

theorem readWord_of_along {requests : List Request}
    (along : Along Memory.bus (Spares 4 address) requests machine) :
    (machine.performAll Memory.bus requests).bus.readWord address = machine.bus.readWord address := by
  rw [Memory.readWord, Memory.readWord, read_of_along 4 along]

end Machine

namespace Passage

variable {mode : RoundingMode} {x : Doubleword} (passage : Passage mode x)

def step : Step Memory :=
  (Machine.performAll Memory.bus passage.between
    (passage.machine.perform Memory.bus passage.store).machine).perform Memory.bus passage.load

def loaded : Doubleword :=
  passage.step.machine.core.fpr.get passage.loading.rd

theorem brings : passage.step.result = .ok () ∧ passage.loaded = Double.narrow mode x := by
  have written := passage.machine.perform_storeSingle Memory.bus passage.stores passage.writes
  rw [passage.rounds.working, passage.source] at written
  have held := written.readWord passage.succeeds
  rw [← Machine.readWord_of_along passage.spares] at held
  exact Machine.perform_loadSingle Memory.bus _ passage.loads passage.reads held

end Passage

/-- Narrowing completes and stores the double of what it narrows, rounded once to single;
an infinity and the default NaN are stored for an infinity and a NaN. It changes nothing
the second time, it is monotone, and a passage through memory is the same narrowing. -/
theorem narrowing_agrees {σ : Type} (bus : Bus σ) {mode : RoundingMode} {x : Doubleword}
    (narrowing : Narrowing σ mode x) :
    (narrowing.step bus).result = .ok () ∧
      (DeliversSingle mode (Double.value x).ideal (narrowing.stored bus) ∧
        ∀ bits, DeliversSingle mode (Double.value x).ideal bits → bits = narrowing.stored bus) ∧
      (∀ (other : RoundingMode) (again : Narrowing σ other (narrowing.stored bus)),
        again.stored bus = narrowing.stored bus) ∧
      (∀ (y : Doubleword) (upper : Narrowing σ mode y), Double.value x ≠ .nan → Double.value y ≠ .nan →
        (Double.value x).toEReal ≤ (Double.value y).toEReal →
          (Double.value (narrowing.stored bus)).toEReal ≤ (Double.value (upper.stored bus)).toEReal) ∧
      ∀ passage : Passage mode x,
        passage.step.result = .ok () ∧ passage.loaded = narrowing.stored bus := by
  obtain ⟨completes, narrowed⟩ := narrowing.stores bus
  have delivers := Double.narrow_delivers mode x
  rw [← narrowed] at delivers
  refine ⟨completes, ⟨delivers, fun bits deliversBits => deliversBits.unique delivers⟩, ?_, ?_, ?_⟩
  · intro other again
    rw [(again.stores bus).2, narrowed, Double.narrow_narrow]
  · intro y upper isNumberX isNumberY ordered
    rw [narrowed, (upper.stores bus).2]
    exact Double.narrow_mono mode isNumberX isNumberY ordered
  · intro passage
    rw [narrowed]
    exact passage.brings

/-- The next double above one and an infinity, rounded upwards: a later narrowing to nearest
keeps the single above one, and so does a passage with a change of the mode on its way. -/
theorem narrowing_agrees_upward :
    ∃ (narrowing : Narrowing Memory .towardPosInf 0x3FF0000000000001)
      (again : Narrowing Memory .nearest (narrowing.stored Memory.bus))
      (upper : Narrowing Memory .towardPosInf 0x7FF0000000000000)
      (passage : Passage .towardPosInf 0x3FF0000000000001),
      again.stored Memory.bus = narrowing.stored Memory.bus ∧
        (Double.value (narrowing.stored Memory.bus)).toEReal ≤
          (Double.value (upper.stored Memory.bus)).toEReal ∧
        passage.loaded = narrowing.stored Memory.bus := by
  let fpr : Bank 64 := (Bank.zero.set 1 0x3FF0000000000001).set 2 0x7FF0000000000000
  let machine := (Machine.resting 2 (.native .towardPosInf none) fpr).setGpr 5 0x10000
  let narrowed := (machine.perform Memory.bus (.word 0xFC600818)).machine
  let nearest := (narrowed.perform Memory.bus (.word 0xFF80010C)).machine
  have upward : machine.RoundsIn .towardPosInf := .of_native rfl (by decide)
  have isNative : nearest.core.fpscr.host = .native .nearest none := by decide
  have toNearest : nearest.RoundsIn .nearest := .of_native isNative (by decide)
  let narrowing : Narrowing Memory .towardPosInf 0x3FF0000000000001 :=
    ⟨machine, .word 0xFC600818, .decode 0xFC600818, upward, by decide, rfl⟩
  -- The bits are compared as numbers; two runs of the machine are not unfolded beside each other.
  have stored : narrowing.stored Memory.bus = 0x3FF0000020000000 :=
    (narrowing.stores Memory.bus).2.trans (by decide +kernel)
  have held : nearest.core.fpr.get (Operands.decode 0xFC801818).rb = 0x3FF0000020000000 := by decide +kernel
  let again : Narrowing Memory .nearest (narrowing.stored Memory.bus) :=
    ⟨nearest, .word 0xFC801818, .decode 0xFC801818, toNearest, by decide, held.trans stored.symm⟩
  let upper : Narrowing Memory .towardPosInf 0x7FF0000000000000 :=
    ⟨machine, .word 0xFC601018, .decode 0xFC601018, upward, by decide, rfl⟩
  let passage : Passage .towardPosInf 0x3FF0000000000001 :=
    ⟨machine, .word 0xD0250008, [.word 0xFF80010C], .word 0xC0850008, .decode 0xD0250008, .decode 0xC0850008,
      ⟨false, false⟩, ⟨false, false⟩, 0x10008, upward, rfl, by decide, rfl, by decide +kernel,
      ⟨fun _ => by decide, trivial⟩, by decide, by decide +kernel⟩
  obtain ⟨-, -, settled, monotone, passes⟩ := narrowing_agrees Memory.bus narrowing
  exact ⟨narrowing, again, upper, passage, settled .nearest again,
    monotone _ upper (by decide) (by decide) le_top, (passes passage).2⟩

end PowerFpu
