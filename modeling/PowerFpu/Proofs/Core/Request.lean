import PowerFpu.Proofs.Core.Step

/-! What one request does: the accesses it makes, the mode it rounds in and what it leaves behind. -/

set_option autoImplicit false

namespace PowerFpu

/-! An instruction runs the same on a bus that keeps a record, and the record shows
at most one access. -/

section

def Transfer.access (op : Transfer) (mode : RoundingMode) (address : Word) (source : Doubleword) : Access :=
  match op with
  | .load .single _ => .readWord address
  | .load .double _ => .readDoubleword address
  | .store .single _ => .writeWord address (Double.toSingle mode source)
  | .store .double _ => .writeDoubleword address source
  | .storeInteger => .writeWord address (source.setWidth 32)

variable {σ τ : Type}

namespace Transfer
variable (op : Transfer) (bus : Bus σ) (mode : RoundingMode) (address : Word) (source : Doubleword) (state : σ)

theorem perform_served :
    (op.perform bus mode address source state).2 = (bus.serve (op.access mode address source) state).2 ∧
      ∀ exception, (op.perform bus mode address source state).1 = .error exception →
        (bus.serve (op.access mode address source) state).1 = .error exception := by
  have failed {α β : Type} (change : α → β) (reply : Except Exception α) (exception : Exception)
      (fails : reply.map change = .error exception) : reply = .error exception := by
    cases reply with
    | error raised => exact congrArg Except.error (Except.error.inj fails)
    | ok value => cases fails
  cases op with
  | load precision form =>
    cases precision with
    | single => exact ⟨rfl, failed _ _⟩
    | double => exact ⟨rfl, failed _ _⟩
  | store precision form =>
    cases precision with
    | single => exact ⟨rfl, failed _ _⟩
    | double => exact ⟨rfl, failed _ _⟩
  | storeInteger => exact ⟨rfl, failed _ _⟩

theorem serve_of_failed {exception : Exception} {next : σ}
    (fails : op.perform bus mode address source state = (.error exception, next)) :
    bus.serve (op.access mode address source) state = (.error exception, next) := by
  obtain ⟨same, failed⟩ := op.perform_served bus mode address source state
  rw [fails] at same failed
  exact Prod.ext (failed exception rfl) same.symm

theorem perform_recorded (log : List Access) :
    op.perform bus.recorded mode address source (state, log) =
      ((op.perform bus mode address source state).1,
        (op.perform bus mode address source state).2, log ++ [op.access mode address source]) := by
  cases op with
  | load precision form => cases precision <;> rfl
  | store precision form => cases precision <;> rfl
  | storeInteger => rfl

end Transfer

def Machine.withBus (machine : Machine σ) (bus : τ) : Machine τ :=
  ⟨machine.core, bus, machine.thread⟩

def Step.withBus (step : Step σ) (bus : τ) : Step τ :=
  ⟨step.result, step.events, step.machine.withBus bus⟩

namespace Machine

def accessesOf (machine : Machine σ) (op : Operation) (operands : Operands) : List Access :=
  match op with
  | .transfer op =>
    match op.form.effective operands machine.core.gpr with
    | .ok address =>
      [op.access (machine.core.fpscr.host.working machine.thread) address (machine.core.fpr.get operands.rd)]
    | .error _ => []
  | .arithmetic _ | .conversion _ | .compare _ | .control _ => []

def accessesBy (machine : Machine σ) (request : Request) : List Access :=
  match request.operation? with
  | some (op, operands) => machine.accessesOf op operands
  | none => []

/-- The accesses that a request makes, as a recording bus sees them. -/
def seen (bus : Bus σ) (request : Request) (machine : Machine σ) : List Access :=
  ((machine.withBus (machine.bus, [])).perform bus.recorded request).machine.bus.2

variable (bus : Bus σ) (machine : Machine σ) (log : List Access)

section Transfer
variable (op : Transfer) (operands : Operands)

theorem accessesOf_refused {exception : Exception}
    (noAddress : op.form.effective operands machine.core.gpr = .error exception) :
    machine.accessesOf (.transfer op) operands = [] := by
  simp only [accessesOf, noAddress]

theorem accessesOf_addressed {address : Word}
    (addressed : op.form.effective operands machine.core.gpr = .ok address) :
    machine.accessesOf (.transfer op) operands =
      [op.access (machine.core.fpscr.host.working machine.thread) address
        (machine.core.fpr.get operands.rd)] := by
  simp only [accessesOf, addressed]

end Transfer

theorem accessesOf_outcome {op : Operation} {operands : Operands} {outcome : Outcome}
    (yields : machine.outcome? op (operands.seenBy op) = some outcome) :
    machine.accessesOf op operands = [] := by
  cases op with
  | transfer op => cases yields
  | arithmetic op | conversion op | compare ordered | control op => rfl

theorem dispatch_recorded (op : Operation) (operands : Operands) :
    (machine.withBus (machine.bus, log)).dispatch bus.recorded op operands =
      (machine.dispatch bus op operands).withBus
        ((machine.dispatch bus op operands).machine.bus, log ++ machine.accessesOf op operands) := by
  -- The outcome does not depend on the bus, so the two machines end in the same way.
  let recording := machine.withBus (machine.bus, log)
  cases yields : machine.outcome? op (operands.seenBy op) with
  | some outcome =>
    have yieldsRecording : recording.outcome? op (operands.seenBy op) = some outcome := yields
    rw [recording.dispatch_outcome bus.recorded op operands yieldsRecording,
      machine.dispatch_outcome bus op operands yields, machine.accessesOf_outcome yields, List.append_nil]
    cases outcome with
    | completed effect => rfl
    | trapped bits => rfl
  | none =>
    cases op with
    | arithmetic op | conversion op | compare ordered | control op => cases yields
    | transfer op =>
      cases addressed : op.form.effective operands machine.core.gpr with
      | error exception =>
        rw [recording.dispatch_refused bus.recorded addressed, machine.dispatch_refused bus addressed]
        rw [machine.accessesOf_refused op operands addressed, List.append_nil]
        rfl
      | ok address =>
        have seen := op.perform_recorded bus (machine.core.fpscr.host.working machine.thread) address
          (machine.core.fpr.get operands.rd) machine.bus log
        rw [machine.accessesOf_addressed op operands addressed]
        rcases served : op.perform bus (machine.core.fpscr.host.working machine.thread) address
            (machine.core.fpr.get operands.rd) machine.bus with ⟨exception | loaded, next⟩
        · rw [served] at seen
          rw [recording.dispatch_faulted bus.recorded addressed seen, machine.dispatch_faulted bus addressed served]
          rfl
        · rw [served] at seen
          rw [recording.dispatch_received bus.recorded addressed seen,
            machine.dispatch_received bus addressed served]
          rfl

theorem perform_recorded (request : Request) :
    (machine.withBus (machine.bus, log)).perform bus.recorded request =
      (machine.perform bus request).withBus
        ((machine.perform bus request).machine.bus, log ++ machine.accessesBy request) := by
  cases request with
  | decoded op operands => exact machine.dispatch_recorded bus log op operands
  | word inst =>
    simp only [perform, execute, accessesBy, Request.operation?]
    cases Operation.decode inst with
    | none => simp only [Option.map_none, withBus, mapStatistics, Step.withBus, List.append_nil]
    | some op =>
      simp only [Option.map_some, dispatch_recorded]
      generalize machine.dispatch bus op (.decode inst) = ended
      obtain ⟨exception | done, events, after⟩ := ended
      · rfl
      · rfl

theorem seen_eq (request : Request) : machine.seen bus request = machine.accessesBy request := by
  rw [seen, perform_recorded]
  rfl

theorem seen_undecoded {request : Request} (undecoded : request.operation? = none) :
    machine.seen bus request = [] := by
  rw [seen_eq, accessesBy, undecoded]

theorem seen_decoded {request : Request} {op : Operation} {operands : Operands}
    (decoded : request.operation? = some (op, operands)) :
    machine.seen bus request = machine.accessesOf op operands := by
  rw [seen_eq, accessesBy, decoded]

theorem dispatch_bus (op : Operation) (operands : Operands) :
    (machine.dispatch bus op operands).machine.bus =
      (machine.accessesOf op operands).foldl (fun state access => (bus.serve access state).2) machine.bus := by
  have step := machine.dispatched bus op operands
  generalize machine.dispatch bus op operands = ended at step
  cases step with
  | completed effect yields =>
    rw [machine.accessesOf_outcome yields]
    rfl
  | trapped bits yields =>
    rw [machine.accessesOf_outcome yields]
    rfl
  | refused transfer exception isTransfer noAddress =>
    cases isTransfer
    rw [machine.accessesOf_refused transfer operands noAddress]
    rfl
  | faulted transfer address exception next isTransfer addressed served =>
    cases isTransfer
    rw [machine.accessesOf_addressed transfer operands addressed]
    exact (congrArg Prod.snd served).symm.trans (transfer.perform_served bus _ _ _ _).1
  | transferred transfer address loaded next isTransfer addressed served =>
    cases isTransfer
    rw [machine.accessesOf_addressed transfer operands addressed]
    exact (congrArg Prod.snd served).symm.trans (transfer.perform_served bus _ _ _ _).1

theorem perform_bus (request : Request) :
    (machine.perform bus request).machine.bus =
      (machine.accessesBy request).foldl (fun state access => (bus.serve access state).2) machine.bus := by
  let served := (machine.accessesBy request).foldl (fun state access => (bus.serve access state).2) machine.bus
  refine machine.perform_of_dispatch bus (motive := fun after => after.bus = served) request
    (fun _ _ kept => kept) (fun undecoded => ?_) fun op operands decoded => ?_
  · simp only [served, accessesBy, undecoded, List.foldl_nil]
  · simp only [served, accessesBy, decoded]
    exact machine.dispatch_bus bus op operands

end Machine

end

namespace Machine

variable {σ : Type} (bus : Bus σ) {machine : Machine σ}

/-- The mode of RN on a native core, whose environment holds it by `Linked` in a window
or outside; to nearest on a detached core, when its thread rounds so. -/
inductive RoundsIn (machine : Machine σ) : RoundingMode → Prop where
  | native (saved : Option RoundingMode)
      (isNative : machine.core.fpscr.host = .native (.ofBits machine.core.fpscr.bits) saved) :
      RoundsIn machine (.ofBits machine.core.fpscr.bits)
  | detached (guest : RoundingMode) (isDetached : machine.core.fpscr.host = .detached guest)
      (toNearest : machine.thread = .nearest) : RoundsIn machine .nearest

theorem RoundsIn.working {mode : RoundingMode} (rounds : machine.RoundsIn mode) :
    machine.core.fpscr.host.working machine.thread = mode := by
  cases rounds with
  | native saved isNative =>
    rw [isNative]
    rfl
  | detached guest isDetached toNearest =>
    rw [isDetached, toNearest]
    rfl

theorem RoundsIn.of_native {mode : RoundingMode} {saved : Option RoundingMode}
    (isNative : machine.core.fpscr.host = .native mode saved)
    (isRn : RoundingMode.ofBits machine.core.fpscr.bits = mode) : machine.RoundsIn mode := by
  subst isRn
  exact .native saved isNative

section Perform
variable {request : Request} {op : Operation} {operands : Operands}
  (decoded : request.operation? = some (op, operands))
include decoded

theorem perform_completed {effect : Effect}
    (yields : machine.outcome? op (operands.seenBy op) = some (.completed effect)) :
    let step := machine.perform bus request
    step.result = .ok () ∧
      step.machine.core.fpscr.bits = effect.fpscr ∧
      step.machine.core.fpr =
        effect.target.elim machine.core.fpr (machine.core.fpr.set operands.rd) ∧
      step.machine.bus = machine.bus := by
  intro step
  obtain ⟨result, change, same⟩ := machine.perform_decoded bus decoded
  rw [machine.dispatch_completed bus op operands yields] at result same
  refine ⟨result, ?_, ?_, ?_⟩
  · rw [same]
    exact machine.rewrite_bits effect.fpscr
  · rw [same, mapStatistics_fpr]
    cases effect with
    | mk fpscr target field => cases target <;> rfl
  · rw [same]
    rfl

theorem perform_trapped {bits : Word}
    (yields : machine.outcome? op (operands.seenBy op) = some (.trapped bits)) :
    let step := machine.perform bus request
    step.result = .error .floatingPointEnabled ∧
      step.machine.core.fpscr.bits = bits ∧
      step.machine.core.fpr = machine.core.fpr ∧
      step.machine.bus = machine.bus := by
  intro step
  obtain ⟨result, change, same⟩ := machine.perform_decoded bus decoded
  rw [machine.dispatch_trapped bus op operands yields] at result same
  refine ⟨result, ?_, ?_, ?_⟩
  · rw [same]
    exact machine.rewrite_bits bits
  · rw [same]
    rfl
  · rw [same]
    rfl

end Perform

theorem perform_arithmetic_working {mode : RoundingMode}
    (working : machine.core.fpscr.host.working machine.thread = mode) {request : Request}
    {op : Arithmetic} {operands : Operands} (decoded : request.operation? = some (.arithmetic op, operands)) :
    (machine.perform bus request).result = .ok () ∧
      (machine.perform bus request).machine.core.fpr.get operands.rd =
        op.result mode (machine.sources operands) := by
  have yields : machine.outcome? (.arithmetic op) (operands.seenBy (.arithmetic op)) =
      some (.completed (op.effect mode (machine.sources operands) machine.core.fpscr.bits)) := by
    rw [outcome?, working]
    rfl
  obtain ⟨result, -, fpr, -⟩ := perform_completed bus decoded yields
  refine ⟨result, ?_⟩
  rw [fpr]
  exact Bank.get_set_self _ _ _

theorem RoundsIn.perform_arithmetic {mode : RoundingMode} (rounds : machine.RoundsIn mode) {request : Request}
    {op : Arithmetic} {operands : Operands} (decoded : request.operation? = some (.arithmetic op, operands)) :
    (machine.perform bus request).result = .ok () ∧
      (machine.perform bus request).machine.core.fpr.get operands.rd =
        op.result mode (machine.sources operands) :=
  perform_arithmetic_working bus rounds.working decoded

end Machine

end PowerFpu
