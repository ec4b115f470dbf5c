import PowerFpu.Proofs.Bus.FlatMemory
import PowerFpu.Proofs.Core.Failure
import PowerFpu.Proofs.Core.Run

/-! A saved FPSCR comes back as it was.

The word travels in the low half of a floating-point register, and from there to flat
memory and back to any register. What carries it is that every stretch of the run keeps
the place where it stands; the summaries, which no write sets, are recomputed right
because they were right in every word that a run can reach. -/

set_option autoImplicit false

namespace PowerFpu

open Fpscr (Summarized)

namespace Machine

variable {σ : Type}

def KeepsFpr (bus : Bus σ) (index : RegisterIndex) (machine : Machine σ) (request : Request) : Prop :=
  (machine.perform bus request).machine.core.fpr.get index = machine.core.fpr.get index

/-- Whether a step writes none of the bytes of a range. A failed access writes none. -/
def Spares (count : Nat) (address : Word) (machine : Machine Memory) (request : Request) : Prop :=
  (machine.perform Memory.bus request).result = .ok () →
    ∀ access ∈ machine.accessesBy request, ∀ i < count, ¬ access.Writes (address.toNat + i)

/-- Whether a step completed and left an FPSCR, with its environment in the mode of the word. -/
structure Restores (register : Fpscr) (step : Step σ) : Prop where
  result : step.result = .ok ()
  fpscr : step.machine.core.fpscr = register
  rounding : step.machine.core.fpscr.host.rounding = .ofBits register.bits

section Register
variable (bus : Bus σ) {kind : HostKind} {machine : Machine σ} {request : Request} {operands : Operands}

theorem get_of_along {index : RegisterIndex} {requests : List Request}
    (along : Along bus (KeepsFpr bus index) requests machine) :
    (machine.performAll bus requests).core.fpr.get index = machine.core.fpr.get index :=
  along.keeps bus (motive := fun later => later.core.fpr.get index = machine.core.fpr.get index)
    (fun _ _ keeps same => Eq.trans keeps same) rfl

theorem perform_readFpscr (machine : Machine σ)
    (decoded : request.operation? = some (.control .readFpscr, operands)) :
    (machine.perform bus request).result = .ok () ∧
      ((machine.perform bus request).machine.core.fpr.get operands.rd).setWidth 32 = machine.core.fpscr.bits := by
  let bits := machine.core.fpscr.bits
  have yields : machine.outcome? (.control .readFpscr) (operands.seenBy (.control .readFpscr)) =
      some (.completed ⟨bits, some (machine.core.model.boxFpscr bits), none⟩) := rfl
  obtain ⟨result, -, fpr, -⟩ := perform_completed bus decoded yields
  refine ⟨result, ?_⟩
  rw [fpr, Option.elim_some, Bank.get_set_self, ProcessorModel.setWidth_boxFpscr]

/-- Writing back all fields of a word that a sound machine had restores its register. -/
theorem Sound.perform_writeFields (sound : machine.Sound kind)
    (decoded : request.operation? = some (.control .writeFields, operands)) (all : operands.fm = 0xFF)
    {start : Machine σ} (soundStart : start.Sound kind)
    (held : (machine.core.fpr.get operands.rb).setWidth 32 = start.core.fpscr.bits) :
    Restores start.core.fpscr (machine.perform bus request) := by
  let source := (machine.core.fpr.get operands.rb).setWidth 32
  have yields : machine.outcome? (.control .writeFields) (operands.seenBy (.control .writeFields)) =
      some (.completed ⟨Fpscr.writeFields operands.fm source machine.core.fpscr.bits, none, none⟩) := rfl
  obtain ⟨result, bits, -⟩ := perform_completed bus decoded yields
  have written : (machine.perform bus request).machine.core.fpscr.bits = start.core.fpscr.bits := by
    rw [bits, all, show source = start.core.fpscr.bits from held]
    exact Fpscr.writeFields_all soundStart.summarized _
  have same := (sound.perform bus request).follows.eq_of_bits soundStart.follows written
  refine ⟨result, same, ?_⟩
  rw [same]
  exact soundStart.follows.rounding_host

end Register

section Memory
variable {machine : Machine Memory} {request : Request} {operands : Operands} {form : AddressForm}
  {address : Word}

theorem perform_storeDouble
    (decoded : request.operation? = some (.transfer (.store .double form), operands))
    (addressed : form.effective operands machine.core.gpr = .ok address)
    (succeeds : (machine.perform Memory.bus request).result = .ok ()) :
    (machine.perform Memory.bus request).machine.bus.readDoubleword address =
      .ok (machine.core.fpr.get operands.rd) := by
  obtain ⟨result, change, same⟩ := machine.perform_decoded Memory.bus decoded
  rw [result] at succeeds
  rw [same]
  let op := Transfer.store .double form
  let mode := machine.core.fpscr.host.working machine.thread
  have reaches : op.form.effective operands machine.core.gpr = .ok address := addressed
  cases writes : machine.bus.writeDoubleword address (machine.core.fpr.get operands.rd) with
  | ok next =>
    have served : op.perform Memory.bus mode address (machine.core.fpr.get operands.rd) machine.bus =
        (.ok none, next) := by
      simp only [op, Transfer.perform, Memory.bus, writes, Memory.settle]
      rfl
    rw [machine.dispatch_received Memory.bus reaches served]
    exact Memory.readDoubleword_writeDoubleword writes
  | error exception =>
    have served : op.perform Memory.bus mode address (machine.core.fpr.get operands.rd) machine.bus =
        (.error exception, machine.bus) := by
      simp only [op, Transfer.perform, Memory.bus, writes, Memory.settle]
      rfl
    rw [machine.dispatch_faulted Memory.bus reaches served] at succeeds
    cases succeeds

theorem perform_loadDouble {value : Doubleword}
    (decoded : request.operation? = some (.transfer (.load .double form), operands))
    (addressed : form.effective operands machine.core.gpr = .ok address)
    (held : machine.bus.readDoubleword address = .ok value) :
    (machine.perform Memory.bus request).result = .ok () ∧
      (machine.perform Memory.bus request).machine.core.fpr.get operands.rd = value := by
  apply machine.perform_loaded Memory.bus decoded addressed
  simp only [Transfer.perform, Memory.bus, held]
  rfl

theorem read_of_spares {count : Nat} (spares : Spares count address machine request) :
    (machine.perform Memory.bus request).machine.bus.read address count = machine.bus.read address count := by
  -- A failed step is spared for another reason: its access changed nothing.
  cases result : (machine.perform Memory.bus request).result with
  | ok done =>
    rw [machine.perform_bus Memory.bus request]
    exact Memory.read_foldl _ _ (spares result)
  | error exception =>
    have kept := machine.perform_preserved Memory.bus (fun _ _ _ _ => Memory.bus_keeps) request result
    exact congrArg (Memory.read · address count) kept.memory

theorem read_of_along (count : Nat) {requests : List Request}
    (along : Along Memory.bus (Spares count address) requests machine) :
    (machine.performAll Memory.bus requests).bus.read address count = machine.bus.read address count :=
  along.keeps Memory.bus
    (motive := fun later => later.bus.read address count = machine.bus.read address count)
    (fun _ _ spares same => (read_of_spares spares).trans same) rfl

theorem readDoubleword_of_along {requests : List Request}
    (along : Along Memory.bus (Spares 8 address) requests machine) :
    (machine.performAll Memory.bus requests).bus.readDoubleword address = machine.bus.readDoubleword address := by
  rw [Memory.readDoubleword, Memory.readDoubleword, read_of_along 8 along]

end Memory

/-- A saved FPSCR comes back with its environment, summaries included. From any machine
that a run reaches, the word may wait in the register it was read into; or be stored
from there to flat memory, and loaded from there into any register. -/
theorem saved_fpscr_restored (bus : Bus σ) {configuration : Configuration} {thread after : RoundingMode}
    {core : Core} (created : Core.create configuration thread = .ok (core, after)) :
    (∀ (state : σ) (before between : List Request) (save restore : Request)
        (saving restoring : Operands),
      let start := performAll bus before ⟨core, state, after⟩
      let saved := start.perform bus save
      let restored := (performAll bus between saved.machine).perform bus restore
      save.operation? = some (.control .readFpscr, saving) →
      Along bus (KeepsFpr bus saving.rd) between saved.machine →
      restore.operation? = some (.control .writeFields, restoring) →
      restoring.fm = 0xFF → restoring.rb = saving.rd →
        saved.result = .ok () ∧ Restores start.core.fpscr restored) ∧
    ∀ (memory : Memory) (before held away back : List Request) (save spill reload restore : Request)
        (saving spilling reloading restoring : Operands) (out into : AddressForm) (address : Word),
      let start := performAll Memory.bus before ⟨core, memory, after⟩
      let saved := start.perform Memory.bus save
      let holding := performAll Memory.bus held saved.machine
      let spilled := holding.perform Memory.bus spill
      let waiting := performAll Memory.bus away spilled.machine
      let reloaded := waiting.perform Memory.bus reload
      let restored := (performAll Memory.bus back reloaded.machine).perform Memory.bus restore
      save.operation? = some (.control .readFpscr, saving) →
      Along Memory.bus (KeepsFpr Memory.bus saving.rd) held saved.machine →
      spill.operation? = some (.transfer (.store .double out), spilling) → spilling.rd = saving.rd →
      out.effective spilling holding.core.gpr = .ok address → spilled.result = .ok () →
      Along Memory.bus (Spares 8 address) away spilled.machine →
      reload.operation? = some (.transfer (.load .double into), reloading) →
      into.effective reloading waiting.core.gpr = .ok address →
      Along Memory.bus (KeepsFpr Memory.bus reloading.rd) back reloaded.machine →
      restore.operation? = some (.control .writeFields, restoring) →
      restoring.fm = 0xFF → restoring.rb = reloading.rd →
        saved.result = .ok () ∧ reloaded.result = .ok () ∧ Restores start.core.fpscr restored := by
  refine ⟨?_, ?_⟩
  · intro state before between save restore saving restoring start saved restored saves keeps restores all
      source
    have sound : start.Sound configuration.host := (create_sound created state).performAll bus before
    have later := (sound.perform bus save).performAll bus between
    obtain ⟨result, held⟩ := perform_readFpscr bus start saves
    rw [← get_of_along bus keeps, ← source] at held
    exact ⟨result, later.perform_writeFields bus restores all sound held⟩
  · intro memory before held away back save spill reload restore saving spilling reloading restoring out into
      address start saved holding spilled waiting reloaded restored saves keeps spills sameRegister stores
      succeeds spares reloads loads keepsBack restores all source
    have sound : start.Sound configuration.host := (create_sound created memory).performAll Memory.bus before
    have holdingSound := (sound.perform Memory.bus save).performAll Memory.bus held
    have waitingSound := (holdingSound.perform Memory.bus spill).performAll Memory.bus away
    have later := (waitingSound.perform Memory.bus reload).performAll Memory.bus back
    obtain ⟨result, word⟩ := perform_readFpscr Memory.bus start saves
    rw [← get_of_along Memory.bus keeps, ← sameRegister] at word
    -- The doubleword is in memory from the store on, and brought back whole by the load.
    have stored := perform_storeDouble spills stores succeeds
    rw [← readDoubleword_of_along spares] at stored
    obtain ⟨resultBack, brought⟩ := perform_loadDouble reloads loads stored
    rw [← brought, ← get_of_along Memory.bus keepsBack, ← source] at word
    exact ⟨result, resultBack, later.perform_writeFields Memory.bus restores all sound word⟩

/-- From an FPSCR with both summaries set: RN and the cause are cleared while the word
waits in register 1; and then also that register and the memory behind the word, before
register 5 receives it. -/
theorem saved_fpscr_restored_of_cleared :
    ∃ core after,
      Core.create ⟨false, .mpc601, 0x81000083, .native⟩ .nearest = .ok (core, after) ∧
        core.fpscr.bits = 0xE1000083 ∧
        (let saved := (Machine.perform Memory.bus (.word 0xFC20048E) ⟨core, .zeroed 0 64, after⟩).machine
         let changed := performAll Memory.bus [.word 0xFF80010C, .word 0xFC040080] saved
         changed.core.fpscr.bits = 0x80000080 ∧
          Restores core.fpscr (changed.perform Memory.bus (.word 0xFDFE0D8E))) ∧
        let saved := (Machine.perform Memory.bus (.word 0xFC20048E) ⟨core, .zeroed 0 64, after⟩).machine
        let spilled := (saved.perform Memory.bus (.word 0xD8200010)).machine
        let changed := performAll Memory.bus
          [.word 0xFF80010C, .word 0xFC040080, .word 0xFC201090, .word 0xD0400018] spilled
        let reloaded := (changed.perform Memory.bus (.word 0xC8A00010)).machine
        Restores core.fpscr (reloaded.perform Memory.bus (.word 0xFDFE2D8E)) := by
  have created : Core.create ⟨false, .mpc601, 0x81000083, .native⟩ .nearest = .ok (_, _) := rfl
  refine ⟨_, _, created, by decide, ⟨by decide, ?_⟩, ?_⟩
  · exact ((saved_fpscr_restored Memory.bus created).1 (.zeroed 0 64) []
      [.word 0xFF80010C, .word 0xFC040080] (.word 0xFC20048E) (.word 0xFDFE0D8E) (.decode 0xFC20048E)
      (.decode 0xFDFE0D8E) (by decide) ⟨rfl, rfl, trivial⟩ (by decide) (by decide) (by decide)).2
  · exact ((saved_fpscr_restored Memory.bus created).2 (.zeroed 0 64) []
      [] [.word 0xFF80010C, .word 0xFC040080, .word 0xFC201090, .word 0xD0400018] []
      (.word 0xFC20048E) (.word 0xD8200010) (.word 0xC8A00010) (.word 0xFDFE2D8E)
      (.decode 0xFC20048E) (.decode 0xD8200010) (.decode 0xC8A00010) (.decode 0xFDFE2D8E)
      ⟨false, false⟩ ⟨false, false⟩ 0x10 (by decide) trivial (by decide) (by decide) rfl rfl
      ⟨fun _ => by decide, fun _ => by decide, fun _ => by decide, fun _ => by decide, trivial⟩
      (by decide) rfl trivial (by decide) (by decide) (by decide)).2.2

end Machine

end PowerFpu
