import PowerFpu.Proofs.Core.Step
import PowerFpu.Proofs.Fpscr.Window

/-! An instruction does not see the mode of the thread it runs on, and leaves it alone.

A core whose window is closed computes in the mode of RN on every thread. The
result is that of the bare operation on a thread in that mode. -/

set_option autoImplicit false

namespace PowerFpu

open Fpscr (Linked)

/-- A native register whose window is closed and whose environment follows RN. -/
def Fpscr.AtRest (register : Fpscr) : Prop :=
  register.host = .native register.rounding none

namespace Fpscr

instance (register : Fpscr) : Decidable register.AtRest :=
  inferInstanceAs (Decidable (_ = _))

variable {register : Fpscr} {ambient : RoundingMode} {state : Fpscr × RoundingMode}

theorem AtRest.linked (atRest : register.AtRest) (thread : RoundingMode) :
    Linked thread false (register, thread) :=
  ⟨atRest, rfl⟩

theorem Linked.atRest (linked : Linked ambient false state) : state.1.AtRest :=
  linked.host

theorem Linked.eq_of_bits {isOpen : Bool} {other : Fpscr × RoundingMode} (linked : Linked ambient isOpen state)
    (linkedOther : Linked ambient isOpen other) (same : state.1.bits = other.1.bits) : state = other := by
  obtain ⟨⟨bits, host⟩, thread⟩ := state
  obtain ⟨⟨otherBits, otherHost⟩, otherThread⟩ := other
  obtain ⟨hostMode, threadMode⟩ := linked
  obtain ⟨otherHostMode, otherThreadMode⟩ := linkedOther
  simp only at same hostMode threadMode otherHostMode otherThreadMode
  subst same
  rw [hostMode, otherHostMode, threadMode, otherThreadMode]
  rfl

/-- A write inside a window of its own comes to the same as a bare write. -/
theorem AtRest.write_within (atRest : register.AtRest) (value : Word) (thread mode : RoundingMode) :
    let opened := register.enter thread
    let written := opened.1.write value opened.2
    written.1.leave written.2 = ((register.write value mode).1, thread) := by
  have within : Linked thread false _ := (((atRest.linked thread).enter).write value).leave
  have bare : Linked mode false (register.write value mode) := (atRest.linked mode).write value
  -- Both ends are linked with the window closed, so only the words are left to compare.
  refine within.eq_of_bits ⟨bare.host, rfl⟩ ?_
  change (Fpscr.write _ value _).1.bits = (register.write value mode).1.bits
  rw [bits_write, bits_write]

end Fpscr

variable {σ : Type}

def Machine.onThread (machine : Machine σ) (mode : RoundingMode) : Machine σ :=
  { machine with thread := mode }

def Step.onThread (step : Step σ) (mode : RoundingMode) : Step σ :=
  { step with machine := step.machine.onThread mode }

namespace Machine

@[simp] theorem onThread_core (machine : Machine σ) (mode : RoundingMode) :
    (machine.onThread mode).core = machine.core := rfl

variable (bus : Bus σ) {machine : Machine σ} (atRest : machine.core.fpscr.AtRest)
include atRest

theorem working_of_atRest : machine.core.fpscr.host.working machine.thread = machine.core.fpscr.rounding := by
  rw [atRest]
  rfl

theorem rewrite_of_atRest (bits : Word) (mode : RoundingMode) :
    machine.rewrite bits = ((machine.onThread mode).writeFpscr bits).onThread machine.thread := by
  have same := atRest.write_within bits machine.thread mode
  have registers := congrArg Prod.fst same
  have threads := congrArg Prod.snd same
  simp only at registers threads
  simp only [rewrite, enter, writeFpscr, leave, onThread, registers, threads]

theorem leave_of_atRest : machine.leave = machine :=
  leave_of_closed (congrArg HostEnvironment.isOpen atRest)

theorem complete_of_atRest (operands : Operands) (outcome : Outcome) :
    ({ machine.enter.complete operands outcome with
        machine := (machine.enter.complete operands outcome).machine.leave } : Step σ) =
      ((machine.onThread machine.core.fpscr.rounding).complete operands outcome).onThread machine.thread := by
  cases outcome with
  | completed effect =>
    have same := rewrite_of_atRest atRest effect.fpscr machine.core.fpscr.rounding
    change (⟨.ok (), _, { machine.rewrite effect.fpscr with
      core := applyEffect (machine.rewrite effect.fpscr).core operands effect }⟩ : Step σ) = _
    rw [same]
    rfl
  | trapped bits =>
    have same := rewrite_of_atRest atRest bits machine.core.fpscr.rounding
    change (⟨.error .floatingPointEnabled, _, machine.rewrite bits⟩ : Step σ) = _
    rw [same]
    rfl

theorem transfer_of_atRest (op : Transfer) (operands : Operands) :
    machine.dispatch bus (.transfer op) operands =
      (transfer bus op operands (machine.onThread machine.core.fpscr.rounding)).onThread machine.thread := by
  let bare := machine.onThread machine.core.fpscr.rounding
  have closed := leave_of_atRest atRest
  cases addressed : op.form.effective operands machine.core.gpr with
  | error exception =>
    rw [machine.dispatch_refused bus addressed, transfer_refused bus op operands bare addressed, closed]
    rfl
  | ok address =>
    -- At rest the mode of the window is that of RN, so both make the same access.
    rcases served : op.perform bus machine.core.fpscr.rounding address
        (machine.core.fpr.get operands.rd) machine.bus with ⟨exception | loaded, next⟩
    · have within := served
      rw [← working_of_atRest atRest] at within
      rw [machine.dispatch_faulted bus addressed within, transfer_faulted bus op operands bare addressed served,
        closed]
      rfl
    · have within := served
      rw [← working_of_atRest atRest] at within
      rw [machine.dispatch_received bus addressed within, transfer_received bus op operands bare addressed served,
        closed]
      rfl

/-- A dispatched instruction is its bare operation in the mode of RN, on a thread
that keeps its own mode. -/
theorem dispatch_of_atRest (op : Operation) (operands : Operands) :
    machine.dispatch bus op operands =
      ((machine.onThread machine.core.fpscr.rounding).run bus op (operands.seenBy op)).onThread
        machine.thread := by
  cases yields : machine.outcome? op (operands.seenBy op) with
  | some outcome =>
    have bare := yields
    rw [outcome?, working_of_atRest atRest] at bare
    rw [machine.dispatch_outcome bus op operands yields,
      (machine.onThread machine.core.fpscr.rounding).run_outcome bus op _ bare]
    exact complete_of_atRest atRest _ outcome
  | none =>
    cases op with
    | arithmetic op | conversion op | compare ordered | control op => cases yields
    | transfer op => exact transfer_of_atRest bus atRest op operands

theorem dispatch_onThread (op : Operation) (operands : Operands) (ambient : RoundingMode) :
    (machine.onThread ambient).dispatch bus op operands =
      (machine.dispatch bus op operands).onThread ambient := by
  have moved : (machine.onThread ambient).core.fpscr.AtRest := atRest
  rw [dispatch_of_atRest bus atRest, dispatch_of_atRest bus moved]
  rfl

theorem execute_onThread (inst : Word) (ambient : RoundingMode) :
    (machine.onThread ambient).execute bus inst = (machine.execute bus inst).onThread ambient := by
  unfold execute
  cases Operation.decode inst with
  | none => rfl
  | some op =>
    simp only [dispatch_onThread bus atRest]
    generalize machine.dispatch bus op (.decode inst) = ended
    obtain ⟨exception | done, events, after⟩ := ended
    · rfl
    · rfl

theorem perform_onThread (request : Request) (ambient : RoundingMode) :
    (machine.onThread ambient).perform bus request = (machine.perform bus request).onThread ambient := by
  cases request with
  | word inst => exact execute_onThread bus atRest inst ambient
  | decoded op operands => exact dispatch_onThread bus atRest op operands ambient

theorem perform_thread (request : Request) : (machine.perform bus request).machine.thread = machine.thread :=
  congrArg (·.machine.thread) (perform_onThread bus atRest request machine.thread)

theorem rewrite_atRest (bits : Word) : (machine.rewrite bits).core.fpscr.AtRest :=
  (((atRest.linked machine.thread).enter).write bits).leave.atRest

theorem dispatch_atRest (op : Operation) (operands : Operands) :
    (machine.dispatch bus op operands).machine.core.fpscr.AtRest := by
  have step := machine.dispatched bus op operands
  generalize machine.dispatch bus op operands = ended at step
  cases step with
  | completed effect yields => exact rewrite_atRest atRest effect.fpscr
  | trapped bits yields => exact rewrite_atRest atRest bits
  | refused | faulted | transferred => exact (atRest.linked machine.thread).leave.atRest

theorem perform_atRest (request : Request) : (machine.perform bus request).machine.core.fpscr.AtRest :=
  machine.perform_of_dispatch bus (motive := fun after => after.core.fpscr.AtRest) request
    (fun _ _ kept => kept) (fun _ => atRest) fun op operands _ => dispatch_atRest bus atRest op operands

end Machine

namespace Machine

variable (bus : Bus σ)

theorem eq_of_validate {configuration valid : Configuration}
    (validated : configuration.validate = .ok valid) : valid = configuration := by
  simp only [Configuration.validate] at validated
  split at validated
  · cases validated
  · split at validated
    · cases validated
    · exact (Except.ok.inj validated).symm

theorem create_atRest {configuration : Configuration} {thread after : RoundingMode} {core : Core}
    (created : Core.create configuration thread = .ok (core, after)) (isNative : configuration.host = .native) :
    core.fpscr.AtRest ∧ after = thread := by
  unfold Core.create at created
  split at created
  next => cases created
  next valid validated =>
    rw [eq_of_validate validated, isNative] at created
    cases created
    exact ⟨((Linked.create configuration.initialFpscr thread thread).act .updateSummaries).atRest, rfl⟩

theorem performAll_atRest {configuration : Configuration} {thread after : RoundingMode} {core : Core}
    (created : Core.create configuration thread = .ok (core, after)) (isNative : configuration.host = .native)
    (memory : σ) (requests : List Request) :
    (performAll bus requests ⟨core, memory, after⟩).core.fpscr.AtRest ∧
      (performAll bus requests ⟨core, memory, after⟩).thread = thread := by
  refine performAll_induction bus ⟨core, memory, after⟩
    (motive := fun machine => machine.core.fpscr.AtRest ∧ machine.thread = thread) ?_ requests
    (create_atRest created isNative)
  intro machine request ⟨atRest, sameThread⟩
  exact ⟨perform_atRest bus atRest request, (perform_thread bus atRest request).trans sameThread⟩

/-- The guest's mode stays in its window. Over any calls on a native register,
environment and thread follow RN while a window is open, and the thread has its own
mode whenever none is. So a step of a machine at rest evaluates its operation in the
mode of RN on every thread, with the same end, and leaves the thread in its mode. -/
theorem guest_mode_confined :
    (∀ (initial : Word) (guest ambient : RoundingMode) (actions : List Fpscr.Action),
      let state := Fpscr.actAll actions (Fpscr.create initial (.native guest none) ambient)
      state.1.host.rounding = .ofBits state.1.bits ∧
        (Fpscr.windowOpen actions = true → state.2 = .ofBits state.1.bits) ∧
        (Fpscr.windowOpen actions = false → state.2 = ambient ∧ state.1.AtRest) ∧
        state.1.host.drop state.2 = ambient) ∧
    ∀ (machine : Machine σ) (ambient : RoundingMode) (request : Request), machine.core.fpscr.AtRest →
      let step := (machine.onThread ambient).perform bus request
      step = (machine.perform bus request).onThread ambient ∧
        step.machine.thread = ambient ∧
        step.machine.core.fpscr.AtRest ∧
        ∀ (op : Operation) (operands : Operands), request.operation? = some (op, operands) →
          let evaluated :=
            (machine.onThread (.ofBits machine.core.fpscr.bits)).run bus op (operands.seenBy op)
          step.result = evaluated.result ∧
            ∃ change, step.machine = (evaluated.machine.onThread ambient).mapStatistics change := by
  refine ⟨?_, ?_⟩
  · intro initial guest ambient actions state
    have linked := Fpscr.actAll_linked initial guest ambient actions
    refine ⟨congrArg HostEnvironment.rounding linked.host, ?_, ?_, linked.drop⟩
    · intro isOpen
      rw [isOpen] at linked
      exact linked.thread_of_open
    · intro isClosed
      rw [isClosed] at linked
      exact ⟨linked.thread_of_closed, linked.atRest⟩
  · intro machine ambient request atRest step
    have moved : (machine.onThread ambient).core.fpscr.AtRest := atRest
    refine ⟨perform_onThread bus atRest request ambient, perform_thread bus moved request,
      perform_atRest bus moved request, ?_⟩
    intro op operands decoded evaluated
    obtain ⟨result, change, same⟩ := (machine.onThread ambient).perform_decoded bus decoded
    rw [dispatch_of_atRest bus moved] at result same
    exact ⟨result, change, same⟩

/-- Nested windows with a write that changes RN and a stray `leave`; and an addition
that only rounding upwards shows, on a thread that rounds to nearest. -/
theorem guest_mode_confined_of_nested :
    (let state := Fpscr.actAll [.leave, .enter, .enter, .write 3, .leave, .set 2]
        (Fpscr.create 0 (.native .nearest none) .towardZero)
     state.1.bits = 3 ∧ state.2 = .towardZero ∧ state.1.AtRest) ∧
    (let machine := resting 2 (.native .towardPosInf none)
        ((Bank.zero.set 1 0x3FF0000000000000).set 2 0x3C30000000000000)
     let step := (machine.onThread .nearest).perform Memory.bus (.word 0xFC61102A)
     step.machine.thread = .nearest ∧ step.machine.core.fpr.get 3 = 0x3FF0000000000001) := by
  let machine := resting 2 (.native .towardPosInf none)
    ((Bank.zero.set 1 0x3FF0000000000000).set 2 0x3C30000000000000)
  let op := Operation.arithmetic (.binary .add .double)
  have confined := guest_mode_confined Memory.bus
  have closed := (confined.1 0 .nearest .towardZero [.leave, .enter, .enter, .write 3, .leave, .set 2]).2.2.1 rfl
  have step := confined.2 machine .nearest (.word 0xFC61102A) (by decide)
  obtain ⟨-, change, same⟩ := step.2.2.2 op (.decode 0xFC61102A) (by decide)
  have sum : ((machine.onThread (.ofBits machine.core.fpscr.bits)).run Memory.bus op
      ((Operands.decode 0xFC61102A).seenBy op)).machine.core.fpr.get 3 = 0x3FF0000000000001 := by decide +kernel
  refine ⟨⟨rfl, closed⟩, step.2.1, ?_⟩
  rw [same, mapStatistics_fpr, onThread_core]
  exact sum

end Machine

end PowerFpu
