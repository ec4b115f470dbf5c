import PowerFpu.Core

/-! What one step of a machine can do.

A request is an instruction word or an instruction decoded beforehand. A decoded
instruction either has an outcome inside the processor or makes one transfer on
the bus; `Dispatched` lists the ways in which it can end, and every property of
steps is a case analysis of it. -/

set_option autoImplicit false

namespace PowerFpu

inductive Request where
  | word (inst : Word)
  | decoded (op : Operation) (operands : Operands)
  deriving DecidableEq

def Request.operation? : Request → Option (Operation × Operands)
  | .word inst => (Operation.decode inst).map fun op => (op, Operands.decode inst)
  | .decoded op operands => some (op, operands)

theorem Request.operation?_word {inst : Word} {op : Operation} (decoded : Operation.decode inst = some op) :
    (word inst).operation? = some (op, .decode inst) :=
  congrArg (Option.map _) decoded

def Request.isOf (test : Operation → Bool) (request : Request) : Bool :=
  request.operation?.any fun decoding => test decoding.1

/-- The operands as the operation reads them: a record bit without a meaning is off. -/
def Operands.seenBy (operands : Operands) (op : Operation) : Operands :=
  { operands with record := operands.record && op.hasRecordForm }

def Outcome.fpscr : Outcome → Word
  | .completed effect => effect.fpscr
  | .trapped bits => bits

/-- What an operation that stays inside the processor makes of its sources. -/
def Operation.outcome? (op : Operation) (mode : RoundingMode) (model : ProcessorModel) (operands : Operands)
    (sources : Sources) (bits : Word) : Option Outcome :=
  match op with
  | .arithmetic op => some (.completed (op.effect mode sources bits))
  | .conversion op => some (op.outcome mode sources bits)
  | .compare _ => some (.completed (compareEffect operands.crfd sources bits))
  | .control op => some (.completed (op.effect model operands sources bits))
  | .transfer _ => none

namespace HostEnvironment

/-- The mode that arithmetic rounds in while a window is open. -/
def working (host : HostEnvironment) (thread : RoundingMode) : RoundingMode :=
  match host with
  | .native guest _ => guest
  | .detached _ => thread

@[simp] theorem enter_thread (host : HostEnvironment) (thread : RoundingMode) :
    (host.enter thread).2 = host.working thread := by
  rcases host with ⟨guest, _ | saved⟩ | guest <;> rfl

theorem leave_enter (host : HostEnvironment) (thread : RoundingMode) :
    (host.enter thread).1.leave (host.enter thread).2 = host.leave thread := by
  rcases host with ⟨guest, _ | saved⟩ | guest <;> rfl

theorem enter_leave (host : HostEnvironment) (thread : RoundingMode) :
    (host.leave thread).1.enter (host.leave thread).2 = host.enter thread := by
  rcases host with ⟨guest, _ | saved⟩ | guest <;> rfl

/-- A change of mode inside a window does not reach the thread's own mode. -/
theorem drop_setRounding_enter (host : HostEnvironment) (mode thread : RoundingMode) :
    ((host.enter thread).1.setRounding mode (host.enter thread).2).1.drop
      ((host.enter thread).1.setRounding mode (host.enter thread).2).2 = host.drop thread := by
  rcases host with ⟨guest, _ | saved⟩ | guest <;> rfl

theorem isOpen_leave (host : HostEnvironment) (thread : RoundingMode) : (host.leave thread).1.isOpen = false := by
  rcases host with ⟨guest, _ | saved⟩ | guest <;> rfl

theorem leave_of_closed {host : HostEnvironment} (closed : host.isOpen = false) (thread : RoundingMode) :
    host.leave thread = (host, thread) := by
  rcases host with ⟨guest, _ | saved⟩ | guest
  · rfl
  · cases closed
  · rfl

theorem drop_of_closed {host : HostEnvironment} (closed : host.isOpen = false) (thread : RoundingMode) :
    host.drop thread = thread :=
  congrArg Prod.snd (leave_of_closed closed thread)

end HostEnvironment

namespace Fpscr

variable (register : Fpscr) (value : Word) (thread : RoundingMode)

@[simp] theorem bits_write : (register.write value thread).1.bits = value := by
  unfold write
  split <;> rfl

theorem drop_write_enter :
    ((register.enter thread).1.write value (register.enter thread).2).1.host.drop
      ((register.enter thread).1.write value (register.enter thread).2).2 = register.host.drop thread := by
  unfold write
  split
  · exact congrArg Prod.snd (register.host.leave_enter thread)
  · exact register.host.drop_setRounding_enter (.ofBits value) thread

end Fpscr

namespace Machine

variable {σ : Type}

def perform (bus : Bus σ) (request : Request) (machine : Machine σ) : Step σ :=
  match request with
  | .word inst => machine.execute bus inst
  | .decoded op operands => machine.dispatch bus op operands

def performAll (bus : Bus σ) (requests : List Request) (machine : Machine σ) : Machine σ :=
  requests.foldl (fun machine request => (machine.perform bus request).machine) machine

def rewrite (machine : Machine σ) (bits : Word) : Machine σ :=
  (machine.enter.writeFpscr bits).leave

section Fields
variable (machine : Machine σ) (bits : Word)

@[simp] theorem enter_mode :
    machine.enter.thread = machine.core.fpscr.host.working machine.thread :=
  machine.core.fpscr.host.enter_thread machine.thread

@[simp] theorem leave_rounding :
    machine.leave.core.fpscr.host.rounding = machine.core.fpscr.host.rounding :=
  machine.core.fpscr.host.rounding_leave machine.thread

@[simp] theorem rewrite_bits : (machine.rewrite bits).core.fpscr.bits = bits :=
  Fpscr.bits_write _ bits _

@[simp] theorem mapStatistics_fpr (change : Statistics → Statistics) :
    (machine.mapStatistics change).core.fpr = machine.core.fpr := rfl

@[simp] theorem rewrite_mode :
    (machine.rewrite bits).thread = machine.core.fpscr.host.drop machine.thread :=
  machine.core.fpscr.drop_write_enter bits machine.thread

end Fields

theorem enter_leave (machine : Machine σ) : machine.enter.leave = machine.leave := by
  have same := machine.core.fpscr.host.leave_enter machine.thread
  have hosts := congrArg Prod.fst same
  have modes := congrArg Prod.snd same
  simp only [enter, leave, Fpscr.enter, Fpscr.leave, hosts, modes]

theorem leave_enter (machine : Machine σ) : machine.leave.enter = machine.enter := by
  have same := machine.core.fpscr.host.enter_leave machine.thread
  have hosts := congrArg Prod.fst same
  have modes := congrArg Prod.snd same
  simp only [enter, leave, Fpscr.enter, Fpscr.leave, hosts, modes]

theorem leave_of_closed {machine : Machine σ} (closed : machine.core.fpscr.host.isOpen = false) :
    machine.leave = machine := by
  have same := HostEnvironment.leave_of_closed closed machine.thread
  exact congrArg
    (fun state : HostEnvironment × RoundingMode =>
      { machine with core := { machine.core with fpscr.host := state.1 }, thread := state.2 }) same

def receive (machine : Machine σ) (op : Transfer) (operands : Operands) (address : Word)
    (loaded : Option Doubleword) : Core :=
  { machine.core with
    fpr := match loaded with
      | some value => machine.core.fpr.set operands.rd value
      | none => machine.core.fpr
    gpr := if op.form.update then machine.core.gpr.set operands.ra address else machine.core.gpr }

section Transfer
variable (bus : Bus σ) (op : Transfer) (operands : Operands) (machine : Machine σ)

theorem transfer_refused {exception : Exception}
    (noAddress : op.form.effective operands machine.core.gpr = .error exception) :
    transfer bus op operands machine = ⟨.error exception, [], machine⟩ := by
  simp only [transfer, noAddress]

variable {address : Word} {next : σ}
  (addressed : op.form.effective operands machine.core.gpr = .ok address)
include addressed

theorem transfer_faulted {exception : Exception}
    (served : op.perform bus machine.thread address (machine.core.fpr.get operands.rd) machine.bus =
      (.error exception, next)) :
    transfer bus op operands machine = ⟨.error exception, [], { machine with bus := next }⟩ := by
  simp only [transfer, addressed, served]

theorem transfer_received {loaded : Option Doubleword}
    (served : op.perform bus machine.thread address (machine.core.fpr.get operands.rd) machine.bus =
      (.ok loaded, next)) :
    transfer bus op operands machine =
      ⟨.ok (), [], { machine with bus := next, core := machine.receive op operands address loaded }⟩ := by
  simp only [transfer, addressed, served]
  rfl

end Transfer

section Dispatch
variable (bus : Bus σ) (op : Operation) (operands : Operands) (machine : Machine σ)

def outcome? : Option Outcome :=
  op.outcome? (machine.core.fpscr.host.working machine.thread) machine.core.model operands
    (machine.sources operands) machine.core.fpscr.bits

inductive Dispatched : Step σ → Prop where
  | completed (effect : Effect) (yields : machine.outcome? op operands = some (.completed effect)) :
      Dispatched
        { result := .ok ()
          events := Event.ofWrite machine.core.fpscr.bits effect.fpscr
          machine := { machine.rewrite effect.fpscr with
            core := applyEffect (machine.rewrite effect.fpscr).core operands effect } }
  | trapped (bits : Word) (yields : machine.outcome? op operands = some (.trapped bits)) :
      Dispatched
        { result := .error .floatingPointEnabled
          events := Event.ofWrite machine.core.fpscr.bits bits ++ [.conversionTrapped bits]
          machine := machine.rewrite bits }
  | refused (transfer : Transfer) (exception : Exception) (isTransfer : op = .transfer transfer)
      (noAddress : transfer.form.effective operands machine.core.gpr = .error exception) :
      Dispatched ⟨.error exception, [], machine.leave⟩
  | faulted (transfer : Transfer) (address : Word) (exception : Exception) (next : σ)
      (isTransfer : op = .transfer transfer)
      (addressed : transfer.form.effective operands machine.core.gpr = .ok address)
      (served : transfer.perform bus (machine.core.fpscr.host.working machine.thread) address
        (machine.core.fpr.get operands.rd) machine.bus = (.error exception, next)) :
      Dispatched ⟨.error exception, [], { machine.leave with bus := next }⟩
  | transferred (transfer : Transfer) (address : Word) (loaded : Option Doubleword) (next : σ)
      (isTransfer : op = .transfer transfer)
      (addressed : transfer.form.effective operands machine.core.gpr = .ok address)
      (served : transfer.perform bus (machine.core.fpscr.host.working machine.thread) address
        (machine.core.fpr.get operands.rd) machine.bus = (.ok loaded, next)) :
      Dispatched ⟨.ok (), [], { machine.leave with
        bus := next
        core := machine.leave.receive transfer operands address loaded }⟩

theorem run_outcome {outcome : Outcome}
    (yields : op.outcome? machine.thread machine.core.model operands (machine.sources operands)
      machine.core.fpscr.bits = some outcome) :
    machine.run bus op operands = machine.complete operands outcome := by
  cases op with
  | transfer op => cases yields
  | arithmetic op | conversion op | compare ordered | control op =>
    cases yields
    rfl

theorem dispatch_eq :
    machine.dispatch bus op operands =
      { machine.enter.run bus op (operands.seenBy op) with
        machine := (machine.enter.run bus op (operands.seenBy op)).machine.leave } := rfl

theorem dispatch_outcome {outcome : Outcome}
    (yields : machine.outcome? op (operands.seenBy op) = some outcome) :
    machine.dispatch bus op operands =
      { machine.enter.complete (operands.seenBy op) outcome with
        machine := (machine.enter.complete (operands.seenBy op) outcome).machine.leave } := by
  rw [outcome?, ← enter_mode] at yields
  rw [dispatch_eq, machine.enter.run_outcome bus op _ yields]

theorem dispatch_completed {effect : Effect}
    (yields : machine.outcome? op (operands.seenBy op) = some (.completed effect)) :
    machine.dispatch bus op operands =
      { result := .ok ()
        events := Event.ofWrite machine.core.fpscr.bits effect.fpscr
        machine := { machine.rewrite effect.fpscr with
          core := applyEffect (machine.rewrite effect.fpscr).core (operands.seenBy op) effect } } :=
  machine.dispatch_outcome bus op operands yields

theorem dispatch_trapped {bits : Word}
    (yields : machine.outcome? op (operands.seenBy op) = some (.trapped bits)) :
    machine.dispatch bus op operands =
      { result := .error .floatingPointEnabled
        events := Event.ofWrite machine.core.fpscr.bits bits ++ [.conversionTrapped bits]
        machine := machine.rewrite bits } :=
  machine.dispatch_outcome bus op operands yields

section Transfer
variable {op : Transfer} {operands : Operands}

theorem dispatch_refused {exception : Exception}
    (noAddress : op.form.effective operands machine.core.gpr = .error exception) :
    machine.dispatch bus (.transfer op) operands = ⟨.error exception, [], machine.leave⟩ := by
  have ended := transfer_refused bus op (operands.seenBy (.transfer op)) machine.enter noAddress
  rw [← machine.enter_leave]
  exact congrArg (fun step => { step with machine := step.machine.leave }) ended

variable {address : Word} {next : σ}
  (addressed : op.form.effective operands machine.core.gpr = .ok address)
include addressed

theorem dispatch_faulted {exception : Exception}
    (served : op.perform bus (machine.core.fpscr.host.working machine.thread) address
      (machine.core.fpr.get operands.rd) machine.bus = (.error exception, next)) :
    machine.dispatch bus (.transfer op) operands =
      ⟨.error exception, [], { machine.leave with bus := next }⟩ := by
  rw [← enter_mode] at served
  have ended := transfer_faulted bus op (operands.seenBy (.transfer op)) machine.enter addressed served
  rw [← machine.enter_leave]
  exact congrArg (fun step => { step with machine := step.machine.leave }) ended

theorem dispatch_received {loaded : Option Doubleword}
    (served : op.perform bus (machine.core.fpscr.host.working machine.thread) address
      (machine.core.fpr.get operands.rd) machine.bus = (.ok loaded, next)) :
    machine.dispatch bus (.transfer op) operands =
      ⟨.ok (), [], { machine.leave with
        bus := next
        core := machine.leave.receive op operands address loaded }⟩ := by
  rw [← enter_mode] at served
  have ended := transfer_received bus op (operands.seenBy (.transfer op)) machine.enter addressed served
  rw [← machine.enter_leave]
  exact congrArg (fun step => { step with machine := step.machine.leave }) ended

end Transfer

theorem dispatched :
    Dispatched bus op (operands.seenBy op) machine (machine.dispatch bus op operands) := by
  cases yields : machine.outcome? op (operands.seenBy op) with
  | some outcome =>
    cases outcome with
    | completed effect =>
      rw [machine.dispatch_completed bus op operands yields]
      exact .completed effect yields
    | trapped bits =>
      rw [machine.dispatch_trapped bus op operands yields]
      exact .trapped bits yields
  | none =>
    cases op with
    | arithmetic op | conversion op | compare ordered | control op => cases yields
    | transfer op =>
      cases addressed : op.form.effective operands machine.core.gpr with
      | error exception =>
        rw [machine.dispatch_refused bus addressed]
        exact .refused op exception rfl addressed
      | ok address =>
        rcases served : op.perform bus (machine.core.fpscr.host.working machine.thread) address
            (machine.core.fpr.get operands.rd) machine.bus with ⟨exception | loaded, next⟩
        · rw [machine.dispatch_faulted bus addressed served]
          exact .faulted op address exception next rfl addressed served
        · rw [machine.dispatch_received bus addressed served]
          exact .transferred op address loaded next rfl addressed served

theorem dispatch_statistics :
    (machine.dispatch bus op operands).machine.core.statistics = machine.core.statistics := by
  have step := machine.dispatched bus op operands
  generalize machine.dispatch bus op operands = ended at step
  cases step with
  | completed | trapped | refused | faulted | transferred => rfl

/-- Only the outcome of an instruction inside the processor is written to the FPSCR. -/
theorem dispatch_bits {motive : Word → Prop} (start : motive machine.core.fpscr.bits)
    (written : ∀ outcome, machine.outcome? op (operands.seenBy op) = some outcome → motive outcome.fpscr) :
    motive (machine.dispatch bus op operands).machine.core.fpscr.bits := by
  have step := machine.dispatched bus op operands
  generalize machine.dispatch bus op operands = ended at step
  cases step with
  | completed effect yields =>
    have ends := written (.completed effect) yields
    rwa [Outcome.fpscr, ← machine.rewrite_bits effect.fpscr] at ends
  | trapped bits yields =>
    have ends := written (.trapped bits) yields
    rwa [Outcome.fpscr, ← machine.rewrite_bits bits] at ends
  | refused | faulted | transferred => exact start

end Dispatch

/-! Words are decoded, dispatched and counted; the counters are all that a word adds. -/

section Perform
variable (bus : Bus σ) (machine : Machine σ)

def account (op : Operation) (record : Bool) : Except Exception Unit → Statistics → Statistics
  | .ok _, statistics => statistics.completed op record
  | .error exception, statistics => statistics.failed exception

theorem execute_undecoded {inst : Word} (undecoded : Operation.decode inst = none) :
    (machine.execute bus inst).result = .error .illegal ∧
      (machine.execute bus inst).machine = machine.mapStatistics (·.failed .illegal) := by
  simp only [execute, undecoded, and_self]

theorem execute_decoded {inst : Word} {op : Operation} (decoded : Operation.decode inst = some op) :
    (machine.execute bus inst).result = (machine.dispatch bus op (.decode inst)).result ∧
      (machine.execute bus inst).machine =
        (machine.dispatch bus op (.decode inst)).machine.mapStatistics
          (account op (Operands.decode inst).record (machine.dispatch bus op (.decode inst)).result) := by
  unfold execute
  simp only [decoded]
  cases (machine.dispatch bus op (.decode inst)).result with
  | ok done => exact ⟨rfl, rfl⟩
  | error exception => exact ⟨rfl, rfl⟩

theorem perform_undecoded {request : Request} (undecoded : request.operation? = none) :
    (machine.perform bus request).result = .error .illegal ∧
      ∃ change, (machine.perform bus request).machine = machine.mapStatistics change := by
  cases request with
  | decoded op operands => cases undecoded
  | word inst =>
    have ended := machine.execute_undecoded bus (Option.map_eq_none_iff.mp undecoded)
    exact ⟨ended.1, _, ended.2⟩

theorem perform_decoded {request : Request} {op : Operation} {operands : Operands}
    (decoded : request.operation? = some (op, operands)) :
    (machine.perform bus request).result = (machine.dispatch bus op operands).result ∧
      ∃ change, (machine.perform bus request).machine =
        (machine.dispatch bus op operands).machine.mapStatistics change := by
  cases request with
  | decoded op operands =>
    cases decoded
    exact ⟨rfl, id, rfl⟩
  | word inst =>
    obtain ⟨op, decodes, same⟩ := Option.map_eq_some_iff.mp decoded
    cases same
    have ended := machine.execute_decoded bus decodes
    exact ⟨ended.1, _, ended.2⟩

theorem perform_loaded {request : Request} {op : Transfer} {operands : Operands} {address : Word}
    {value : Doubleword} {next : σ} (decoded : request.operation? = some (.transfer op, operands))
    (addressed : op.form.effective operands machine.core.gpr = .ok address)
    (served : op.perform bus (machine.core.fpscr.host.working machine.thread) address
      (machine.core.fpr.get operands.rd) machine.bus = (.ok (some value), next)) :
    (machine.perform bus request).result = .ok () ∧
      (machine.perform bus request).machine.core.fpr.get operands.rd = value := by
  obtain ⟨result, change, same⟩ := machine.perform_decoded bus decoded
  rw [machine.dispatch_received bus addressed served] at result same
  refine ⟨result, ?_⟩
  rw [same]
  exact Bank.get_set_self _ _ _

/-- What does not depend on the counters holds after a request when it holds after the
dispatch of what the request decodes to. -/
theorem perform_of_dispatch {motive : Machine σ → Prop} (request : Request)
    (uncounted : ∀ after change, motive after → motive (after.mapStatistics change))
    (undecodable : request.operation? = none → motive machine)
    (dispatches : ∀ op operands, request.operation? = some (op, operands) →
      motive (machine.dispatch bus op operands).machine) :
    motive (machine.perform bus request).machine := by
  cases decoded : request.operation? with
  | none =>
    obtain ⟨-, change, same⟩ := machine.perform_undecoded bus decoded
    rw [same]
    exact uncounted machine change (undecodable decoded)
  | some decoding =>
    obtain ⟨op, operands⟩ := decoding
    obtain ⟨-, change, same⟩ := machine.perform_decoded bus decoded
    rw [same]
    exact uncounted _ change (dispatches op operands decoded)

theorem perform_bits {motive : Word → Prop} (request : Request) (start : motive machine.core.fpscr.bits)
    (written : ∀ op operands outcome, request.operation? = some (op, operands) →
      machine.outcome? op (operands.seenBy op) = some outcome → motive outcome.fpscr) :
    motive (machine.perform bus request).machine.core.fpscr.bits :=
  machine.perform_of_dispatch bus (motive := fun after => motive after.core.fpscr.bits) request
    (fun _ _ kept => kept) (fun _ => start) fun op operands decoded =>
      machine.dispatch_bits bus op operands start fun outcome => written op operands outcome decoded

theorem performAll_append (earlier later : List Request) :
    machine.performAll bus (earlier ++ later) = (machine.performAll bus earlier).performAll bus later :=
  List.foldl_append

theorem performAll_induction {motive : Machine σ → Prop}
    (kept : ∀ machine request, motive machine → motive (machine.perform bus request).machine)
    (requests : List Request) (start : motive machine) : motive (machine.performAll bus requests) := by
  induction requests generalizing machine with
  | nil => exact start
  | cons request requests ih => exact ih _ (kept machine request start)

end Perform

/-- A machine between instructions, with little in it but its FPSCR and its floating-point registers. -/
def resting (bits : Word) (host : HostEnvironment) (fpr : Bank 64) : Machine Memory where
  core :=
    { gpr := .zero
      fpr
      fpscr := ⟨bits, host⟩
      cr := 0
      model := .mpc603e
      trace := false
      statistics := .zero }
  bus := .zeroed 0x10000 64
  thread := .nearest

end Machine

end PowerFpu
