import PowerFpu.Proofs.Core.Request
import PowerFpu.Proofs.Fpscr.Window

/-! A failed instruction changes nothing that a restarted one could see.

There are four ways to fail: the word encodes nothing, the transfer has no address,
its access fails, or a conversion traps. Only the last one writes the FPSCR. -/

set_option autoImplicit false

namespace PowerFpu

open Fpscr (Has Agree)

theorem Memory.bus_keeps {access : Access} {memory next : Memory} {exception : Exception}
    (fails : bus.serve access memory = (.error exception, next)) : next = memory := by
  cases access with
  | readWord address | readDoubleword address => exact (congrArg Prod.snd fails).symm
  | writeWord address value =>
    change memory.settle (memory.writeWord address value) = _ at fails
    cases written : memory.writeWord address value with
    | ok changed =>
      rw [written] at fails
      cases congrArg Prod.fst fails
    | error raised =>
      rw [written] at fails
      exact (congrArg Prod.snd fails).symm
  | writeDoubleword address value =>
    change memory.settle (memory.writeDoubleword address value) = _ at fails
    cases written : memory.writeDoubleword address value with
    | ok changed =>
      rw [written] at fails
      cases congrArg Prod.fst fails
    | error raised =>
      rw [written] at fails
      exact (congrArg Prod.snd fails).symm

/-- A fault that is put in front of a bus keeps what the bus itself keeps. -/
theorem Bus.faulting_keeps {σ μ : Type} (bus : Bus σ) (memory : σ → μ)
    (keeps : ∀ access state exception next,
      bus.serve access state = (.error exception, next) → memory next = memory state)
    (access : Access) {state next : σ × Option (Word → Exception)} {exception : Exception}
    (fails : bus.faulting.serve access state = (.error exception, next)) : memory next.1 = memory state.1 := by
  obtain ⟨state, pending⟩ := state
  cases pending with
  | some fault =>
    cases fails
    rfl
  | none =>
    have reply : (bus.serve access state).1 = .error exception := congrArg (fun served => served.1) fails
    have after : (bus.serve access state).2 = next.1 := congrArg (fun served => served.2.1) fails
    exact keeps access state exception next.1 (Prod.ext reply after)

theorem AddressForm.effective_refused {form : AddressForm} {operands : Operands} {gpr : Bank 32}
    {exception : Exception} (noAddress : form.effective operands gpr = .error exception) :
    exception = .illegal ∧ form.update = true ∧ operands.ra = 0 := by
  unfold effective at noAddress
  split at noAddress
  next illegal =>
    obtain ⟨update, base⟩ := Bool.and_eq_true_iff.mp illegal
    exact ⟨(Except.error.inj noAddress).symm, update, beq_iff_eq.mp base⟩
  next => cases noAddress

theorem Operation.agree_rn_of_trapped {op : Operation} {mode : RoundingMode} {model : ProcessorModel}
    {operands : Operands} {sources : Sources} {bits flagged : Word}
    (yields : op.outcome? mode model operands sources bits = some (.trapped flagged)) :
    Agree Fpscr.rn flagged bits := by
  cases op with
  | conversion op =>
    obtain ⟨-, -, same⟩ := Conversion.trapped_cases (Option.some.inj yields)
    rw [same]
    exact (Fpscr.agree_set _ (by decide)).trans (Conversion.agree_invalidBits _ _ (by decide))
  | arithmetic op | compare ordered | control op | transfer op => cases yields

namespace Machine

variable {σ μ : Type}

/-- What a failed instruction leaves as it was, with a view of the bus as its memory.
The thread keeps its mode as long as nobody else had opened a window. -/
structure Preserved (memory : σ → μ) (before after : Machine σ) : Prop where
  fpr : after.core.fpr = before.core.fpr
  gpr : after.core.gpr = before.core.gpr
  cr : after.core.cr = before.core.cr
  model : after.core.model = before.core.model
  trace : after.core.trace = before.core.trace
  rounding : after.core.fpscr.rounding = before.core.fpscr.rounding
  host : after.core.fpscr.host.rounding = before.core.fpscr.host.rounding
  thread : before.core.fpscr.host.isOpen = false → after.thread = before.thread
  memory : memory after.bus = memory before.bus

/-- Why an instruction word failed, which accesses it had made, and its FPSCR. -/
inductive Fails (bus : Bus σ) (inst : Word) (before after : Machine σ) : Exception → Prop where
  | undecodable (undecoded : Operation.decode inst = none)
      (silent : before.seen bus (.word inst) = [])
      (kept : after.core.fpscr.bits = before.core.fpscr.bits) :
      Fails bus inst before after .illegal
  | unaddressable (op : Transfer) (decoded : Operation.decode inst = some (.transfer op))
      (update : op.form.update = true) (base : (Operands.decode inst).ra = 0)
      (silent : before.seen bus (.word inst) = [])
      (kept : after.core.fpscr.bits = before.core.fpscr.bits) :
      Fails bus inst before after .illegal
  | unserved (op : Transfer) (decoded : Operation.decode inst = some (.transfer op))
      (access : Access) (exception : Exception) (only : before.seen bus (.word inst) = [access])
      (served : bus.serve access before.bus = (.error exception, after.bus))
      (kept : after.core.fpscr.bits = before.core.fpscr.bits) :
      Fails bus inst before after exception
  | inconvertible (truncating : Bool)
      (decoded : Operation.decode inst = some (.conversion (.toInteger truncating)))
      (enabled : Has before.core.fpscr.bits Fpscr.ve)
      (silent : before.seen bus (.word inst) = [])
      (flagged : after.core.fpscr.bits =
        before.core.fpscr.bits &&& ~~~(Fpscr.fr ||| Fpscr.fi) ||| (Fpscr.vx ||| Fpscr.vxcvi) |||
          (if Double.isSignaling (before.core.fpr.get (Operands.decode inst).rb) then Fpscr.vxsnan else 0) |||
          Fpscr.fex) :
      Fails bus inst before after .floatingPointEnabled

section Preserved
variable {memory : σ → μ} {before after : Machine σ} (change : Statistics → Statistics) (machine : Machine σ)

theorem Preserved.refl : Preserved memory machine machine :=
  ⟨rfl, rfl, rfl, rfl, rfl, rfl, rfl, fun _ => rfl, rfl⟩

theorem Preserved.mapStatistics (preserved : Preserved memory before after) :
    Preserved memory before (after.mapStatistics change) := by
  obtain ⟨fpr, gpr, cr, model, trace, rounding, host, thread, kept⟩ := preserved
  exact ⟨fpr, gpr, cr, model, trace, rounding, host, thread, kept⟩

theorem preserved_leave {next : σ} (kept : memory next = memory machine.bus) :
    Preserved memory machine { machine.leave with bus := next } where
  fpr := rfl
  gpr := rfl
  cr := rfl
  model := rfl
  trace := rfl
  rounding := rfl
  host := machine.leave_rounding
  thread := fun closed => HostEnvironment.drop_of_closed closed machine.thread
  memory := kept

section Rewrite
variable {bits : Word} (agree : Agree Fpscr.rn bits machine.core.fpscr.bits)
include agree

/-- A rewritten FPSCR with the same RN is not told to the environment, so nothing but
the end of the window is left. -/
theorem rewrite_window :
    ((machine.rewrite bits).core.fpscr.host, (machine.rewrite bits).thread) =
      machine.core.fpscr.host.leave machine.thread := by
  have same : RoundingMode.ofBits bits = machine.enter.core.fpscr.rounding := agree.ofBits
  rw [← HostEnvironment.leave_enter]
  simp only [rewrite, writeFpscr, Fpscr.write, if_pos same]
  rfl

theorem preserved_rewrite : Preserved memory machine (machine.rewrite bits) where
  fpr := rfl
  gpr := rfl
  cr := rfl
  model := rfl
  trace := rfl
  rounding := by
    rw [Fpscr.rounding, rewrite_bits]
    exact agree.ofBits
  host := by
    have host := congrArg Prod.fst (machine.rewrite_window agree)
    exact (congrArg HostEnvironment.rounding host).trans (machine.core.fpscr.host.rounding_leave machine.thread)
  thread := by
    intro closed
    rw [rewrite_mode]
    exact HostEnvironment.drop_of_closed closed machine.thread
  memory := rfl

end Rewrite

end Preserved

section Execute
variable (bus : Bus σ) {memory : σ → μ}
  (keeps : ∀ access state exception next,
    bus.serve access state = (.error exception, next) → memory next = memory state)
  (machine : Machine σ) {inst : Word} {exception : Exception}

theorem execute_statistics (fails : (machine.execute bus inst).result = .error exception) :
    (machine.execute bus inst).machine.core.statistics = machine.core.statistics.failed exception := by
  cases decoded : Operation.decode inst with
  | none =>
    obtain ⟨result, same⟩ := machine.execute_undecoded bus decoded
    cases result.symm.trans fails
    rw [same]
    rfl
  | some op =>
    obtain ⟨result, same⟩ := machine.execute_decoded bus decoded
    rw [result] at fails
    rw [same, fails]
    exact congrArg (Statistics.failed · exception) (machine.dispatch_statistics bus op (.decode inst))

include keeps in
theorem dispatch_preserved {op : Operation} {operands : Operands}
    (fails : (machine.dispatch bus op operands).result = .error exception) :
    Preserved memory machine (machine.dispatch bus op operands).machine := by
  have step := machine.dispatched bus op operands
  generalize machine.dispatch bus op operands = ended at step fails
  cases step with
  | completed effect yields => cases fails
  | transferred transfer address loaded next isTransfer addressed served => cases fails
  | refused transfer exception isTransfer noAddress => exact machine.preserved_leave rfl
  | faulted transfer address exception next isTransfer addressed served =>
    exact machine.preserved_leave (keeps _ _ exception _ (transfer.serve_of_failed bus _ _ _ _ served))
  | trapped bits yields => exact machine.preserved_rewrite (Operation.agree_rn_of_trapped yields)

theorem dispatch_window {op : Operation} {operands : Operands}
    (fails : (machine.dispatch bus op operands).result = .error exception) :
    let after := (machine.dispatch bus op operands).machine
    (after.core.fpscr.host, after.thread) = machine.core.fpscr.host.leave machine.thread := by
  have step := machine.dispatched bus op operands
  generalize machine.dispatch bus op operands = ended at step fails
  cases step with
  | completed effect yields => cases fails
  | transferred transfer address loaded next isTransfer addressed served => cases fails
  | refused | faulted => rfl
  | trapped bits yields => exact machine.rewrite_window (Operation.agree_rn_of_trapped yields)

include keeps in
theorem perform_preserved (request : Request) (fails : (machine.perform bus request).result = .error exception) :
    Preserved memory machine (machine.perform bus request).machine := by
  cases decoded : request.operation? with
  | none =>
    obtain ⟨-, change, same⟩ := machine.perform_undecoded bus decoded
    rw [same]
    exact (Preserved.refl machine).mapStatistics change
  | some decoding =>
    obtain ⟨op, operands⟩ := decoding
    obtain ⟨result, change, same⟩ := machine.perform_decoded bus decoded
    rw [result] at fails
    rw [same]
    exact (machine.dispatch_preserved bus keeps fails).mapStatistics change

include keeps in
theorem execute_preserved (fails : (machine.execute bus inst).result = .error exception) :
    Preserved memory machine (machine.execute bus inst).machine :=
  machine.perform_preserved bus keeps (.word inst) fails

theorem execute_fails (fails : (machine.execute bus inst).result = .error exception) :
    Fails bus inst machine (machine.execute bus inst).machine exception := by
  cases decoded : Operation.decode inst with
  | none =>
    obtain ⟨result, same⟩ := machine.execute_undecoded bus decoded
    cases result.symm.trans fails
    exact .undecodable decoded (machine.seen_undecoded bus (congrArg (Option.map _) decoded)) (by rw [same]; rfl)
  | some op =>
    have made := machine.seen_decoded bus (Request.operation?_word decoded)
    obtain ⟨result, same⟩ := machine.execute_decoded bus decoded
    rw [result] at fails
    rw [same]
    have step := machine.dispatched bus op (.decode inst)
    generalize machine.dispatch bus op (.decode inst) = ended at step fails
    cases step with
    | completed effect yields => cases fails
    | transferred transfer address loaded next isTransfer addressed served => cases fails
    | refused transfer raised isTransfer noAddress =>
      cases isTransfer
      cases fails
      have silent := machine.accessesOf_refused transfer (.decode inst) noAddress
      obtain ⟨illegal, update, base⟩ := AddressForm.effective_refused noAddress
      rw [illegal]
      exact .unaddressable transfer decoded update base (made.trans silent) rfl
    | faulted transfer address raised next isTransfer addressed served =>
      cases isTransfer
      cases fails
      have only := machine.accessesOf_addressed transfer (.decode inst) addressed
      exact .unserved transfer decoded _ exception (made.trans only)
        (transfer.serve_of_failed bus _ _ _ _ served) rfl
    | trapped bits yields =>
      cases fails
      cases op with
      | conversion op =>
        obtain ⟨⟨truncating, same⟩, enabled, flagged⟩ := Conversion.trapped_cases (Option.some.inj yields)
        cases same
        exact .inconvertible truncating decoded enabled made ((machine.rewrite_bits bits).trans flagged)
      | arithmetic op | compare ordered | control op | transfer op => cases yields

end Execute

/-- A failed instruction word is atomic: registers, memory and modes are as before,
only a trapped conversion flags its cause, and one counter tells of the failure. A word
that encodes nothing leaves an open window open; every other one closes it, and the thread
is in the mode that was saved when it was opened. -/
theorem failure_atomic (bus : Bus σ) (memory : σ → μ)
    (keeps : ∀ access state exception next,
      bus.serve access state = (.error exception, next) → memory next = memory state)
    (machine : Machine σ) (inst : Word) (exception : Exception)
    (fails : (machine.execute bus inst).result = .error exception) :
    let after := (machine.execute bus inst).machine
    let statistics := machine.core.statistics
    Preserved memory machine after ∧
      Fails bus inst machine after exception ∧
      (Operation.decode inst = none →
        after.core.fpscr.host = machine.core.fpscr.host ∧ after.thread = machine.thread) ∧
      (Operation.decode inst ≠ none →
        (after.core.fpscr.host, after.thread) = machine.core.fpscr.host.leave machine.thread) ∧
      (exception = .illegal →
        after.core.statistics = { statistics with illegal := statistics.illegal + 1 }) ∧
      (exception = .floatingPointEnabled →
        after.core.statistics = { statistics with traps := statistics.traps + 1 }) ∧
      ∀ address, exception = .dataStorage address ∨ exception = .alignment address →
        after.core.statistics = statistics := by
  have counted := machine.execute_statistics bus fails
  refine ⟨machine.execute_preserved bus keeps fails, machine.execute_fails bus fails, ?_, ?_, ?_, ?_, ?_⟩
  · intro undecoded
    obtain ⟨-, same⟩ := machine.execute_undecoded bus undecoded
    rw [same]
    exact ⟨rfl, rfl⟩
  · intro decodes
    obtain ⟨op, decoded⟩ := Option.ne_none_iff_exists'.mp decodes
    obtain ⟨result, same⟩ := machine.execute_decoded bus decoded
    rw [result] at fails
    rw [same]
    exact machine.dispatch_window bus fails
  · intro isIllegal
    rw [counted, isIllegal]
    rfl
  · intro isTrap
    rw [counted, isTrap]
    rfl
  · intro address isMemoryFault
    rw [counted]
    rcases isMemoryFault with isStorage | isAlignment
    · rw [isStorage]
      rfl
    · rw [isAlignment]
      rfl

/-- An update form whose access fails once, and then a signalling NaN that has no integer. -/
theorem failure_atomic_of_fault_and_trap :
    let bus := Memory.bus.faulting
    let machine := (resting 0x80 (.native .nearest none) (Bank.zero.set 2 0x7FF0000000000001)).withBus
      (Memory.zeroed 0x10000 64, some Exception.alignment)
    (machine.execute bus 0xCC230008).result = .error (.alignment 8) ∧
      Preserved Prod.fst machine (machine.execute bus 0xCC230008).machine ∧
      (machine.execute bus 0xFC20101C).result = .error .floatingPointEnabled ∧
      (machine.execute bus 0xFC20101C).machine.core.statistics.traps = 1 := by
  intro bus machine
  have keeps : ∀ access state exception next, bus.serve access state = (.error exception, next) →
      Prod.fst next = Prod.fst state :=
    fun access _ _ _ => Memory.bus.faulting_keeps id (fun _ _ _ _ => Memory.bus_keeps) access
  have faults : (machine.execute bus 0xCC230008).result = .error (.alignment 8) := by rfl
  have traps : (machine.execute bus 0xFC20101C).result = .error .floatingPointEnabled := by
    simp only [machine, bus]
    rfl
  obtain ⟨preserved, -⟩ := failure_atomic bus Prod.fst keeps machine _ _ faults
  obtain ⟨-, -, -, -, -, countsTrap, -⟩ := failure_atomic bus Prod.fst keeps machine _ _ traps
  refine ⟨faults, preserved, traps, ?_⟩
  rw [countsTrap rfl]
  rfl

/-- The mode of the thread is not kept from inside a window. Its owner has opened it and
the thread rounds upwards; an update form without a base fails and leaves the thread in the
mode it had outside. -/
theorem thread_not_kept_in_window :
    let opened := (resting 2 (.native .towardPosInf none) .zero).enter
    let step := opened.execute Memory.bus 0xC4200008
    opened.core.fpscr.host = .native .towardPosInf (some .nearest) ∧ opened.thread = .towardPosInf ∧
      step.result = .error .illegal ∧ step.machine.thread = .nearest ∧
      ¬ ∀ (machine : Machine Memory) (inst : Word) (exception : Exception),
        (machine.execute Memory.bus inst).result = .error exception →
          (machine.execute Memory.bus inst).machine.thread = machine.thread := by
  intro opened step
  have result : step.result = .error .illegal := by rfl
  have thread : step.machine.thread = .nearest := by rfl
  refine ⟨rfl, rfl, result, thread, ?_⟩
  intro kept
  have same := kept opened 0xC4200008 .illegal result
  cases thread.symm.trans same

end Machine

end PowerFpu
