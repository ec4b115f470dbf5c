import Mathlib.Logic.Function.Basic
import PowerFpu.Proofs.Core.Request

/-! Cores that take turns on one host thread.

Each core has a bus of its own, and the rounding mode of the thread is all that they
share. No window is open between two instructions, so a step leaves the mode that it
found, whichever core made it and however it ended. What a core does in any order of
turns is then what it does alone. -/

set_option autoImplicit false

namespace PowerFpu

/-- What a request shows of itself: how it ended, what it reported and its accesses. -/
structure Observation where
  result : Except Exception Unit
  events : List Event
  accesses : List Access

namespace Machine

variable {σ : Type} (bus : Bus σ)

def observe (request : Request) (machine : Machine σ) : Observation :=
  let step := machine.perform bus request
  ⟨step.result, step.events, machine.seen bus request⟩

def observeAll : List Request → Machine σ → List Observation
  | [], _ => []
  | request :: requests, machine =>
    machine.observe bus request :: observeAll requests (machine.perform bus request).machine

/-- A dispatched instruction closes the window, also one that it did not open. -/
theorem dispatch_closes (machine : Machine σ) (op : Operation) (operands : Operands) :
    let after := (machine.dispatch bus op operands).machine
    after.thread = machine.core.fpscr.host.drop machine.thread ∧ after.core.fpscr.host.isOpen = false := by
  have step := machine.dispatched bus op operands
  generalize machine.dispatch bus op operands = ended at step
  cases step with
  | completed effect yields =>
    exact ⟨machine.rewrite_mode effect.fpscr, HostEnvironment.isOpen_leave _ _⟩
  | trapped bits yields => exact ⟨machine.rewrite_mode bits, HostEnvironment.isOpen_leave _ _⟩
  | refused | faulted | transferred => exact ⟨rfl, HostEnvironment.isOpen_leave _ _⟩

theorem perform_of_closed {machine : Machine σ} (closed : machine.core.fpscr.host.isOpen = false)
    (request : Request) :
    let after := (machine.perform bus request).machine
    after.thread = machine.thread ∧ after.core.fpscr.host.isOpen = false := by
  apply machine.perform_of_dispatch bus
    (motive := fun after => after.thread = machine.thread ∧ after.core.fpscr.host.isOpen = false) request
  · intro after change kept
    exact kept
  · intro undecodable
    exact ⟨rfl, closed⟩
  · intro op operands decodes
    obtain ⟨thread, closedAfter⟩ := machine.dispatch_closes bus op operands
    exact ⟨thread.trans (HostEnvironment.drop_of_closed closed machine.thread), closedAfter⟩

end Machine

/-- Cores with their buses, and the mode of the thread they all run on. -/
structure SharedThread (ι : Type) (σ : ι → Type) where
  core : ι → Core
  bus : (i : ι) → σ i
  mode : RoundingMode

/-- The entries of a schedule that belong to one core, in their order. -/
def turnsOf {ι α : Type} [DecidableEq ι] (i : ι) (entries : List (ι × α)) : List α :=
  (entries.filter fun entry => entry.1 = i).map (·.2)

section Turns
variable {ι α : Type} [DecidableEq ι] (i : ι) (value : α) (entries : List (ι × α))

@[simp] theorem turnsOf_cons_self : turnsOf i ((i, value) :: entries) = value :: turnsOf i entries := by
  simp [turnsOf]

theorem turnsOf_cons_of_ne {other : ι} (differs : other ≠ i) :
    turnsOf i ((other, value) :: entries) = turnsOf i entries := by
  simp [turnsOf, differs]

end Turns

namespace SharedThread

variable {ι : Type} {σ : ι → Type} [DecidableEq ι]

def machine (shared : SharedThread ι σ) (i : ι) : Machine (σ i) :=
  ⟨shared.core i, shared.bus i, shared.mode⟩

/-- Takes back a machine after its turn, with the mode that it left the thread in. -/
def takeBack (shared : SharedThread ι σ) (i : ι) (machine : Machine (σ i)) : SharedThread ι σ where
  core := Function.update shared.core i machine.core
  bus := Function.update shared.bus i machine.bus
  mode := machine.thread

variable (buses : (i : ι) → Bus (σ i))

def perform (shared : SharedThread ι σ) (turn : ι × Request) : SharedThread ι σ :=
  shared.takeBack turn.1 ((shared.machine turn.1).perform (buses turn.1) turn.2).machine

def performAll (schedule : List (ι × Request)) (shared : SharedThread ι σ) : SharedThread ι σ :=
  schedule.foldl (perform buses) shared

def observeAll : List (ι × Request) → SharedThread ι σ → List (ι × Observation)
  | [], _ => []
  | turn :: schedule, shared =>
    (turn.1, (shared.machine turn.1).observe (buses turn.1) turn.2) ::
      observeAll schedule (shared.perform buses turn)

/-- Every core is between two instructions. -/
def Quiet (shared : SharedThread ι σ) : Prop :=
  ∀ i, (shared.core i).fpscr.host.isOpen = false

section TakeBack
variable (shared : SharedThread ι σ) {i : ι} (after : Machine (σ i))

@[simp] theorem machine_takeBack_self : (shared.takeBack i after).machine i = after := by
  simp [machine, takeBack]

theorem machine_takeBack_of_ne {j : ι} (differs : j ≠ i) (sameMode : after.thread = shared.mode) :
    (shared.takeBack i after).machine j = shared.machine j := by
  simp [machine, takeBack, Function.update_of_ne differs, sameMode]

end TakeBack

section Turn
variable {shared : SharedThread ι σ} (quiet : shared.Quiet) (turn : ι × Request)
include quiet

theorem Quiet.perform : (shared.perform buses turn).mode = shared.mode ∧ (shared.perform buses turn).Quiet := by
  obtain ⟨i, request⟩ := turn
  have closedBefore : (shared.machine i).core.fpscr.host.isOpen = false := quiet i
  obtain ⟨sameMode, closed⟩ := Machine.perform_of_closed (buses i) closedBefore request
  refine ⟨sameMode, ?_⟩
  intro j
  by_cases same : j = i
  · subst same
    simpa [SharedThread.perform, takeBack] using closed
  · simpa [SharedThread.perform, takeBack, Function.update_of_ne same] using quiet j

theorem Quiet.machine_perform_of_ne {j : ι} (differs : j ≠ turn.1) :
    (shared.perform buses turn).machine j = shared.machine j :=
  shared.machine_takeBack_of_ne _ differs (quiet.perform buses turn).1

end Turn

section Schedule
variable {shared : SharedThread ι σ} (quiet : shared.Quiet) (schedule : List (ι × Request))
include quiet

theorem Quiet.mode_performAll : (shared.performAll buses schedule).mode = shared.mode := by
  induction schedule generalizing shared with
  | nil => rfl
  | cons turn schedule ih =>
    obtain ⟨sameMode, quietAfter⟩ := quiet.perform buses turn
    exact (ih quietAfter).trans sameMode

/-- Each core ends as the machine that performs its own turns alone. -/
theorem Quiet.machine_performAll (i : ι) :
    (shared.performAll buses schedule).machine i =
      (shared.machine i).performAll (buses i) (turnsOf i schedule) := by
  induction schedule generalizing shared with
  | nil => rfl
  | cons turn schedule ih =>
    have rest := ih (quiet.perform buses turn).2
    obtain ⟨j, request⟩ := turn
    by_cases same : j = i
    · subst same
      simp only [SharedThread.perform, machine_takeBack_self] at rest
      rw [turnsOf_cons_self]
      exact rest
    · rw [quiet.machine_perform_of_ne buses (j, request) (Ne.symm same)] at rest
      rw [turnsOf_cons_of_ne i request schedule same]
      exact rest

theorem Quiet.observeAll (i : ι) :
    turnsOf i (shared.observeAll buses schedule) =
      (shared.machine i).observeAll (buses i) (turnsOf i schedule) := by
  induction schedule generalizing shared with
  | nil => rfl
  | cons turn schedule ih =>
    have rest := ih (quiet.perform buses turn).2
    obtain ⟨j, request⟩ := turn
    by_cases same : j = i
    · subst same
      simp only [SharedThread.perform, machine_takeBack_self] at rest
      simp only [SharedThread.observeAll, turnsOf_cons_self, Machine.observeAll, SharedThread.perform, rest]
    · rw [quiet.machine_perform_of_ne buses (j, request) (Ne.symm same)] at rest
      simp only [SharedThread.observeAll, turnsOf_cons_of_ne i _ _ same, rest]

end Schedule

/-- Cores on one thread do not interfere. Between instructions of cores of any kind, in any
order of their turns, each core gets the results, reports and accesses, and ends with the
registers, counters and memory, of its own requests alone on that thread; and the thread
is in the mode it started in. -/
theorem cores_do_not_interfere (shared : SharedThread ι σ) (quiet : shared.Quiet)
    (schedule : List (ι × Request)) :
    (shared.performAll buses schedule).mode = shared.mode ∧
      ∀ i,
        (shared.performAll buses schedule).machine i =
          (shared.machine i).performAll (buses i) (turnsOf i schedule) ∧
        turnsOf i (shared.observeAll buses schedule) =
          (shared.machine i).observeAll (buses i) (turnsOf i schedule) := by
  refine ⟨quiet.mode_performAll buses schedule, ?_⟩
  intro i
  exact ⟨quiet.machine_performAll buses schedule i, quiet.observeAll buses schedule i⟩

/-- A native core that turns to rounding upwards and traps, and a detached one that adds
the same numbers on the same thread, to nearest, between its turns. -/
theorem cores_do_not_interfere_of_native_and_detached :
    let fpr := ((Bank.zero.set 1 0x3FF0000000000000).set 2 0x3C30000000000000).set 4 0x7FF0000000000001
    let shared : SharedThread Bool fun _ => Memory :=
      { core := fun isNative =>
          (Machine.resting 0x80 (if isNative then .native .nearest none else .detached .nearest) fpr).core
        bus := fun _ => .zeroed 0x10000 64
        mode := .nearest }
    let after := shared.performAll (fun _ => Memory.bus)
      [(true, .word 0xFF80210C), (false, .word 0xFC61102A), (true, .word 0xFC61102A), (false, .word 0xFC61102A),
        (true, .word 0xFCA0201C)]
    shared.Quiet ∧ after.mode = .nearest ∧
      (after.machine true).core.fpr.get 3 = 0x3FF0000000000001 ∧
      (after.machine true).core.statistics.traps = 1 ∧
      (after.machine false).core.fpr.get 3 = 0x3FF0000000000000 := by
  intro fpr shared after
  have quiet : shared.Quiet := by
    intro isNative
    cases isNative <;> rfl
  obtain ⟨mode, machines⟩ := cores_do_not_interfere (fun _ => Memory.bus) shared quiet
    [(true, .word 0xFF80210C), (false, .word 0xFC61102A), (true, .word 0xFC61102A), (false, .word 0xFC61102A),
      (true, .word 0xFCA0201C)]
  refine ⟨quiet, mode, ?_, ?_, ?_⟩
  · rw [(machines true).1]
    decide +kernel
  · rw [(machines true).1]
    decide +kernel
  · rw [(machines false).1]
    decide +kernel

end SharedThread

end PowerFpu
