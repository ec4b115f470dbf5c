import PowerFpu.Proofs.Core.ControlWrites
import PowerFpu.Proofs.Core.FusedExceptions
import PowerFpu.Proofs.Core.IntegerConversion

/-! A trapped conversion that is executed again.

The trap leaves the flags of the conversion in the FPSCR and FEX besides. Setting the same
flags once more changes nothing, and clearing VE recomputes FEX, so a handler that clears
VE may come before the conversion or between two attempts at it. -/

set_option autoImplicit false

namespace PowerFpu

open Fpscr (Agree Has Summarized fex fi fr merge summary ve vx vxcvi vxsnan writeBit writeMasked)

namespace Fpscr

/-- A merge that is made again after another one, and after some bits were set besides. -/
theorem agree_merge_again (mask source other second set bits : Word) :
    Agree (~~~set) (merge mask source (merge other second (merge mask source bits ||| set)))
      (merge mask source (merge other second bits)) := by
  rw [agree_iff]
  intro i bound outside
  have unset : set.getLsbD i = false := by simpa [bound] using outside
  simp only [getLsbD_merge _ _ _ bound, BitVec.getLsbD_or, unset, Bool.or_false]
  cases mask.getLsbD i <;> cases other.getLsbD i <;> rfl

theorem merge_or_merge_or (mask source set bits : Word) :
    merge mask source (merge mask source bits ||| set) ||| set = merge mask source bits ||| set := by
  apply BitVec.eq_of_getLsbD_eq
  intro i bound
  simp only [getLsbD_merge _ _ _ bound, BitVec.getLsbD_or]
  cases mask.getLsbD i <;> cases set.getLsbD i <;> simp

theorem clear_or_eq_merge {cleared set : Word} (apart : set &&& cleared = 0) (bits : Word) :
    (bits &&& ~~~cleared) ||| set = merge (cleared ||| set) set bits := by
  apply BitVec.eq_of_getLsbD_eq
  intro i bound
  have disjoint : (set.getLsbD i && cleared.getLsbD i) = false := by
    rw [← BitVec.getLsbD_and, apart]
    exact BitVec.getLsbD_zero
  simp only [getLsbD_merge _ _ _ bound, BitVec.getLsbD_or, BitVec.getLsbD_and, BitVec.getLsbD_not, bound]
  cases isCleared : cleared.getLsbD i with
  | false => cases set.getLsbD i <;> simp
  | true =>
    rw [isCleared, Bool.and_true] at disjoint
    simp [disjoint]

section ClearVe
variable (bits : Word)

theorem writeBit_ve : writeBit 24 false bits = summarize (bits &&& ~~~ve) := rfl

theorem not_has_ve_writeBit : ¬ Has (writeBit 24 false bits) ve := by
  rw [writeBit_ve, ((agree_summarize _).mono (by decide)).has]
  exact not_has_clear BitVec.and_self

theorem agree_rn_writeBit : Agree rn (writeBit 24 false bits) bits := by
  rw [writeBit_ve]
  exact ((agree_summarize _).mono (by decide)).trans (agree_clear ve (by decide))

end ClearVe

end Fpscr

namespace Conversion

def noted (x : Doubleword) : Word :=
  vx ||| vxcvi ||| (if Double.isSignaling x then vxsnan else 0)

/-- An input without an integer, and the limit that stands for it in every mode. -/
def Saturates (x limit : Doubleword) : Prop :=
  ∀ mode host bits, toIntegerOutcome mode host x bits = invalid x limit bits

theorem exists_saturates {x : Doubleword} (hasNone : ¬ Double.HasWord x) : ∃ limit, Saturates x limit :=
  ⟨_, fun mode host bits => toIntegerOutcome_of_not_hasWord mode host bits hasNone⟩

section Invalid
variable (x : Doubleword) (bits : Word)

theorem invalidBits_eq : invalidBits x bits = merge (fr ||| fi ||| noted x) (noted x) bits := by
  have apart : noted x &&& (fr ||| fi) = 0 := by
    unfold noted
    split <;> decide
  rw [← Fpscr.clear_or_eq_merge apart, invalidBits, BitVec.or_assoc]
  rfl

theorem invalidBits_again : invalidBits x (invalidBits x bits ||| fex) ||| fex = invalidBits x bits ||| fex := by
  simp only [invalidBits_eq]
  exact Fpscr.merge_or_merge_or _ _ _ _

/-- Clearing VE may come before an attempt or after it. -/
theorem invalidBits_writeBit :
    invalidBits x (writeBit 24 false (invalidBits x bits ||| fex)) = invalidBits x (writeBit 24 false bits) := by
  have summarized (word : Word) : Summarized (invalidBits x (writeBit 24 false word)) := by
    apply invalidBits_summarized x
    · rw [has_ve_invalidBits]
      exact Fpscr.not_has_ve_writeBit word
    · exact Fpscr.writeBit_summarized (by decide) (by decide) false word
  have unsummed (word : Word) : Agree (~~~summary) (invalidBits x (writeBit 24 false word))
      (invalidBits x (merge ve 0 word)) := by
    have effective : ¬ (Fpscr.Write.bit 24 false).Ignored := by rintro ⟨⟩
    have written : writeBit 24 false word = writeMasked ve 0 word :=
      Fpscr.Write.apply_of_effective .zero word effective
    rw [written, invalidBits_eq, invalidBits_eq]
    exact Fpscr.agree_merge_merge (Fpscr.agree_writeMasked _ _ _) rfl
  have again : Agree (~~~summary) (invalidBits x (merge ve 0 (invalidBits x bits ||| fex)))
      (invalidBits x (merge ve 0 bits)) := by
    simp only [invalidBits_eq]
    exact (Fpscr.agree_merge_again _ _ _ _ fex bits).mono (by decide)
  -- Both words are summarized, so they are compared without their summaries, FEX among them.
  apply (summarized _).eq_of_agree (summarized _)
  exact ((unsummed _).trans again).trans (unsummed _).symm

end Invalid

end Conversion

theorem Statistics.completed_failed (statistics : Statistics) (op : Operation) (record : Bool) :
    (statistics.failed .floatingPointEnabled).completed op record =
      (statistics.completed op record).failed .floatingPointEnabled := by
  simp only [completed, Statistics.record, failed]
  cases op.opClass <;> cases record && op.hasRecordForm <;> rfl

structure Disables (inst : Word) : Prop where
  decoded : Operation.decode inst = some (.control (.writeBit false))
  number : (Operands.decode inst).rd = 24
  plain : (Operands.decode inst).record = false

namespace Machine

variable {σ : Type} (bus : Bus σ) (machine : Machine σ)

/-- The machine after a completed instruction inside the processor, before it is counted. -/
def deliver (machine : Machine σ) (operands : Operands) (effect : Effect) : Machine σ :=
  { machine.rewrite effect.fpscr with core := applyEffect (machine.rewrite effect.fpscr).core operands effect }

theorem mapStatistics_comm {first second : Statistics → Statistics}
    (commute : ∀ statistics, second (first statistics) = first (second statistics)) :
    (machine.mapStatistics first).mapStatistics second = (machine.mapStatistics second).mapStatistics first := by
  simp only [mapStatistics, commute]

theorem deliver_mapStatistics (change : Statistics → Statistics) (operands : Operands) (effect : Effect) :
    (machine.mapStatistics change).deliver operands effect =
      (machine.deliver operands effect).mapStatistics change := by
  rw [deliver, mapStatistics_rewrite]
  rfl

theorem deliver_rewrite {bits : Word} {operands : Operands} {effect : Effect}
    (kept : Agree Fpscr.rn effect.fpscr machine.core.fpscr.bits → Agree Fpscr.rn bits machine.core.fpscr.bits) :
    (machine.rewrite bits).deliver operands effect = machine.deliver operands effect := by
  rw [deliver, rewrite_rewrite machine kept]
  rfl

theorem execute_disables {inst : Word} (disables : Disables inst) :
    (machine.execute bus inst).result = .ok () ∧
      (machine.execute bus inst).machine =
        (machine.rewrite (writeBit 24 false machine.core.fpscr.bits)).mapStatistics
          (·.completed (.control (.writeBit false)) false) := by
  obtain ⟨result, same⟩ := machine.execute_decoded bus disables.decoded
  rw [machine.dispatch_completed bus (.control (.writeBit false)) _ rfl] at result same
  refine ⟨result, ?_⟩
  rw [same]
  simp only [applyEffect, Control.effect, Operands.seenBy, disables.number, disables.plain]
  rfl

section Conversion
variable {inst : Word} {truncating : Bool}
  (converts : Operation.decode inst = some (.conversion (.toInteger truncating)))
include converts

theorem saturates_of_trap (traps : (machine.execute bus inst).result = .error .floatingPointEnabled) :
    ∃ limit, Conversion.Saturates (machine.core.fpr.get (Operands.decode inst).rb) limit := by
  apply Conversion.exists_saturates
  intro hasWord
  obtain ⟨result, -⟩ := machine.execute_decoded bus converts
  have yields := machine.toInteger_outcome truncating (Operands.decode inst)
  rw [Conversion.toIntegerOutcome_of_hasWord _ _ _ hasWord] at yields
  rw [machine.dispatch_completed bus _ _ yields] at result
  cases result.symm.trans traps

variable {limit : Doubleword}
  (saturates : Conversion.Saturates (machine.core.fpr.get (Operands.decode inst).rb) limit)
include saturates

theorem execute_enabled (enabled : Has machine.core.fpscr.bits ve) :
    let x := machine.core.fpr.get (Operands.decode inst).rb
    (machine.execute bus inst).result = .error .floatingPointEnabled ∧
      (machine.execute bus inst).machine =
        (machine.rewrite (Conversion.invalidBits x machine.core.fpscr.bits ||| fex)).mapStatistics
          (·.failed .floatingPointEnabled) := by
  intro x
  obtain ⟨result, same⟩ := machine.execute_decoded bus converts
  have yields := machine.toInteger_outcome truncating (Operands.decode inst)
  rw [saturates, Conversion.invalid_of_enabled _ enabled] at yields
  rw [machine.dispatch_trapped bus _ _ yields] at result same
  exact ⟨result, same⟩

theorem execute_disabled (disabled : ¬ Has machine.core.fpscr.bits ve) :
    let x := machine.core.fpr.get (Operands.decode inst).rb
    let op : Operation := .conversion (.toInteger truncating)
    (machine.execute bus inst).result = .ok () ∧
      (machine.execute bus inst).machine =
        (machine.deliver ((Operands.decode inst).seenBy op)
          ⟨Conversion.invalidBits x machine.core.fpscr.bits, some limit, none⟩).mapStatistics
            (·.completed op (Operands.decode inst).record) := by
  intro x op
  obtain ⟨result, same⟩ := machine.execute_decoded bus converts
  have yields := machine.toInteger_outcome truncating (Operands.decode inst)
  rw [saturates, Conversion.invalid_of_disabled _ disabled] at yields
  rw [machine.dispatch_completed bus _ _ yields] at result same
  exact ⟨result, same⟩

theorem execute_disables_execute {disable : Word} (disables : Disables disable) :
    let x := machine.core.fpr.get (Operands.decode inst).rb
    let op : Operation := .conversion (.toInteger truncating)
    let cleared := (machine.execute bus disable).machine
    (cleared.execute bus inst).result = .ok () ∧
      (cleared.execute bus inst).machine =
        (machine.deliver ((Operands.decode inst).seenBy op)
          ⟨Conversion.invalidBits x (writeBit 24 false machine.core.fpscr.bits), some limit, none⟩).mapStatistics
            fun statistics =>
              (statistics.completed (.control (.writeBit false)) false).completed op (Operands.decode inst).record := by
  intro x op cleared
  have same : cleared = _ := (machine.execute_disables bus disables).2
  have bits : cleared.core.fpscr.bits = writeBit 24 false machine.core.fpscr.bits := by
    rw [same, mapStatistics_bits, rewrite_bits]
  have fpr : cleared.core.fpr = machine.core.fpr := by
    rw [same]
    rfl
  rw [← fpr] at saturates
  have disabled : ¬ Has cleared.core.fpscr.bits ve := by
    rw [bits]
    exact Fpscr.not_has_ve_writeBit _
  obtain ⟨result, after⟩ := cleared.execute_disabled bus converts saturates disabled
  refine ⟨result, ?_⟩
  rw [after, fpr, bits, same, deliver_mapStatistics, deliver_rewrite]
  · rfl
  · exact fun _ => Fpscr.agree_rn_writeBit machine.core.fpscr.bits

section Enabled
variable (enabled : Has machine.core.fpscr.bits ve)
include enabled

theorem execute_enabled_leaves :
    let x := machine.core.fpr.get (Operands.decode inst).rb
    let trapped := (machine.execute bus inst).machine
    trapped.core.fpscr.bits = Conversion.invalidBits x machine.core.fpscr.bits ||| fex ∧
      trapped.core.fpr = machine.core.fpr := by
  intro x trapped
  have same : trapped = _ := (machine.execute_enabled bus converts saturates enabled).2
  rw [same, mapStatistics_bits, rewrite_bits]
  exact ⟨rfl, rfl⟩

theorem execute_enabled_again :
    let trapped := (machine.execute bus inst).machine
    (trapped.execute bus inst).result = .error .floatingPointEnabled ∧
      (trapped.execute bus inst).machine = trapped.mapStatistics (·.failed .floatingPointEnabled) := by
  intro trapped
  obtain ⟨word, fpr⟩ := machine.execute_enabled_leaves bus converts saturates enabled
  change trapped.core.fpscr.bits = _ at word
  change trapped.core.fpr = _ at fpr
  have enabledStill : Has trapped.core.fpscr.bits ve := by
    rw [word]
    exact Fpscr.has_or.mpr (.inl (Conversion.has_ve_invalidBits.mpr enabled))
  have closed : trapped.core.fpscr.host.isOpen = false := by
    rw [show trapped = _ from (machine.execute_enabled bus converts saturates enabled).2]
    exact HostEnvironment.isOpen_leave _ _
  have rewritten : trapped.rewrite trapped.core.fpscr.bits = trapped := by
    rw [rewrite_self, leave_of_closed closed]
  rw [← fpr] at saturates
  obtain ⟨result, after⟩ := trapped.execute_enabled bus converts saturates enabledStill
  rw [fpr, word, Conversion.invalidBits_again, ← word, rewritten] at after
  exact ⟨result, after⟩

/-- Once VE is cleared the trap has left no trace but its count. -/
theorem execute_disables_restarts {disable : Word} (disables : Disables disable) :
    let restarted := ((machine.execute bus inst).machine.execute bus disable).machine.execute bus inst
    let direct := (machine.execute bus disable).machine.execute bus inst
    restarted.result = .ok () ∧ direct.result = .ok () ∧
      restarted.machine = direct.machine.mapStatistics (·.failed .floatingPointEnabled) := by
  intro restarted direct
  let trapped := (machine.execute bus inst).machine
  let bits := machine.core.fpscr.bits
  let x := machine.core.fpr.get (Operands.decode inst).rb
  obtain ⟨word, fpr⟩ := machine.execute_enabled_leaves bus converts saturates enabled
  change trapped.core.fpr = _ at fpr
  have saturatesStill : Conversion.Saturates (trapped.core.fpr.get (Operands.decode inst).rb) limit := by rwa [fpr]
  have same : trapped = _ := (machine.execute_enabled bus converts saturates enabled).2
  have kept : Agree Fpscr.rn (Conversion.invalidBits x bits ||| fex) bits :=
    (Fpscr.agree_set fex (by decide)).trans (Conversion.agree_invalidBits x bits (by decide))
  obtain ⟨completes, restarts⟩ := trapped.execute_disables_execute bus converts saturatesStill disables
  obtain ⟨completesDirectly, directly⟩ := machine.execute_disables_execute bus converts saturates disables
  change restarted.machine = _ at restarts
  change direct.machine = _ at directly
  refine ⟨completes, completesDirectly, ?_⟩
  rw [fpr, word, Conversion.invalidBits_writeBit, same, deliver_mapStatistics,
    machine.deliver_rewrite fun _ => kept] at restarts
  rw [restarts, directly]
  apply mapStatistics_comm
  intro statistics
  simp only [Statistics.completed_failed]

end Enabled

end Conversion

/-- A conversion that trapped can be restarted. Let a word convert to an integer and trap, and
let another one clear VE. After the trap VX, VXCVI and FEX are set, and while VE is set the
word traps again with no other effect than to be counted. Once VE is cleared it completes,
and the machine is the one that clears VE first and then converts, with one more trap counted. -/
theorem trapped_conversion_restarts {inst disable : Word} {truncating : Bool}
    (converts : Operation.decode inst = some (.conversion (.toInteger truncating)))
    (traps : (machine.execute bus inst).result = .error .floatingPointEnabled) (disables : Disables disable) :
    let countTrap (statistics : Statistics) := { statistics with traps := statistics.traps + 1 }
    let trapped := (machine.execute bus inst).machine
    let retried := trapped.execute bus inst
    let cleared := trapped.execute bus disable
    let restarted := cleared.machine.execute bus inst
    let direct := (machine.execute bus disable).machine.execute bus inst
    (Has trapped.core.fpscr.bits vx ∧ Has trapped.core.fpscr.bits vxcvi ∧ Has trapped.core.fpscr.bits fex) ∧
      (retried.result = .error .floatingPointEnabled ∧ retried.machine = trapped.mapStatistics countTrap) ∧
      cleared.result = .ok () ∧ restarted.result = .ok () ∧ direct.result = .ok () ∧
      restarted.machine = direct.machine.mapStatistics countTrap := by
  intro countTrap trapped retried cleared restarted direct
  obtain ⟨limit, saturates⟩ := machine.saturates_of_trap bus converts traps
  have enabled : Has machine.core.fpscr.bits ve := by
    by_contra disabled
    cases (machine.execute_disabled bus converts saturates disabled).1.symm.trans traps
  obtain ⟨word, -⟩ := machine.execute_enabled_leaves bus converts saturates enabled
  change trapped.core.fpscr.bits = _ at word
  obtain ⟨completes, completesDirectly, same⟩ :=
    machine.execute_disables_restarts bus converts saturates enabled disables
  refine ⟨?_, machine.execute_enabled_again bus converts saturates enabled, (trapped.execute_disables bus disables).1,
    completes, completesDirectly, same⟩
  rw [word]
  exact ⟨Fpscr.has_or.mpr (.inl (Conversion.invalidBits_has _ _ (by decide))),
    Fpscr.has_or.mpr (.inl (Conversion.invalidBits_has _ _ (by decide))), Fpscr.has_or.mpr (.inr (by decide))⟩

/-- A conversion of a signalling NaN in a record form, with an overflow enabled as well, whose
FEX is right only after VE has been cleared. -/
theorem trapped_conversion_restarts_of_signaling_nan :
    let machine := resting 0x100000C2 (.native .towardPosInf none) (Bank.zero.set 2 0x7FF0000000000001)
    let trapped := (machine.execute Memory.bus 0xFC20101D).machine
    let restarted := (trapped.execute Memory.bus 0xFF00008C).machine.execute Memory.bus 0xFC20101D
    Disables 0xFF00008C ∧ (machine.execute Memory.bus 0xFC20101D).result = .error .floatingPointEnabled ∧
      (trapped.execute Memory.bus 0xFC20101D).result = .error .floatingPointEnabled ∧
      restarted.result = .ok () ∧ restarted.machine.core.fpscr.bits = 0x71000142 ∧
      restarted.machine.core.cr = 0x07000000 ∧ restarted.machine.core.statistics.traps = 1 := by
  intro machine trapped restarted
  have disables : Disables 0xFF00008C := ⟨by decide, by decide, by decide⟩
  have traps : (machine.execute Memory.bus 0xFC20101D).result = .error .floatingPointEnabled := by
    simp only [machine]
    rfl
  have converts : Operation.decode 0xFC20101D = some (.conversion (.toInteger false)) := by decide
  obtain ⟨-, ⟨retried, -⟩, -, completes, -, same⟩ :=
    machine.trapped_conversion_restarts Memory.bus converts traps disables
  change restarted.machine = _ at same
  refine ⟨disables, traps, retried, completes, ?_, ?_, ?_⟩
  · rw [same]
    decide +kernel
  · rw [same]
    decide +kernel
  · rw [same]
    decide +kernel

end Machine

end PowerFpu
