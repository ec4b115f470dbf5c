import PowerFpu.Proofs.Core.Frame
import PowerFpu.Proofs.Core.SharedThread

/-! What the trace flag and the processor model of a core are for.

Two runs of the same requests are compared, on cores that differ in these settings alone.
The flag decides which reports are made, and the model pads the FPSCR when a register
receives it. Nothing else reads them. -/

set_option autoImplicit false

namespace PowerFpu

def Event.isTracing : Event → Bool
  | .executing .. | .generalPair .. | .floatPair .. => true
  | .created .. | .roundingChanged .. | .unrecognized _ | .conversionTrapped _ | .raised .. => false

def Event.untraced (events : List Event) : List Event :=
  events.filter fun event => !event.isTracing

def Observation.untraced (observation : Observation) : Observation :=
  { observation with events := Event.untraced observation.events }

def Operation.readsFpscr (op : Operation) : Bool :=
  op = .control .readFpscr

namespace Event

@[simp] theorem untraced_append (first second : List Event) :
    untraced (first ++ second) = untraced first ++ untraced second :=
  List.filter_append ..

@[simp] theorem untraced_ofWrite (before after : Word) : untraced (ofWrite before after) = ofWrite before after := by
  unfold ofWrite
  split <;> rfl

@[simp] theorem untraced_executing (inst : Word) (op : Operation) (record : Bool) :
    untraced [.executing inst op record] = [] := rfl

@[simp] theorem untraced_raised (op : Operation) (exception : Exception) :
    untraced [.raised op exception] = [.raised op exception] := rfl

@[simp] theorem untraced_dump (core : Core) : untraced (dump core) = [] := by
  simp [untraced, dump, isTracing]

theorem untraced_whenTracing {traced : List Event} {condition : Prop} [Decidable condition]
    (dropped : untraced traced = []) : untraced (if condition then traced else []) = [] := by
  split
  · exact dropped
  · rfl

end Event

variable {σ : Type}

def Machine.withSettings (machine : Machine σ) (trace : Bool) (model : ProcessorModel) : Machine σ :=
  { machine with core := { machine.core with trace, model } }

def Step.withSettings (step : Step σ) (trace : Bool) (model : ProcessorModel) : Step σ :=
  { step with machine := step.machine.withSettings trace model }

theorem Bank.set_set {width : Nat} (bank : Bank width) (index : RegisterIndex) (first second : BitVec width) :
    (bank.set index first).set index second = bank.set index second := by
  apply Bank.ext
  intro other
  simp only [get_set]
  split <;> rfl

namespace Machine

def withTrace (machine : Machine σ) (trace : Bool) : Machine σ :=
  machine.withSettings trace machine.core.model

def withModel (machine : Machine σ) (model : ProcessorModel) : Machine σ :=
  machine.withSettings machine.core.trace model

/-- The same machine with another upper word in one of its floating-point registers. -/
def withUpper (machine : Machine σ) (index : RegisterIndex) (upper : Word) : Machine σ :=
  let lower := (machine.core.fpr.get index).setWidth 32
  { machine with core := { machine.core with fpr := machine.core.fpr.set index (upper ++ lower) } }

variable (bus : Bus σ) (machine : Machine σ) (trace : Bool) {model : ProcessorModel}

theorem conclude_withSettings (op : Transfer) (operands : Operands) (address : Word)
    (served : Except Exception (Option Doubleword) × σ) :
    (machine.withSettings trace model).conclude op operands address served =
      (machine.conclude op operands address served).withSettings trace model := by
  obtain ⟨exception | loaded, next⟩ := served
  · rfl
  · rfl

section Dispatch
variable (op : Operation) (operands : Operands)
  (unread : op.readsFpscr = true → model = machine.core.model)
include unread

theorem outcome?_withSettings :
    (machine.withSettings trace model).outcome? op operands = machine.outcome? op operands := by
  cases op with
  | arithmetic op | conversion op | compare ordered | transfer op => rfl
  | control op =>
    cases op with
    | readFpscr =>
      rw [unread rfl]
      rfl
    | writeFields | writeImmediate | writeBit value | drainField => rfl

/-- Changing the settings commutes with every instruction that does not read them. -/
theorem dispatch_withSettings :
    (machine.withSettings trace model).dispatch bus op operands =
      (machine.dispatch bus op operands).withSettings trace model := by
  have sameOutcome := machine.outcome?_withSettings trace op (operands.seenBy op) unread
  cases yields : machine.outcome? op (operands.seenBy op) with
  | some outcome =>
    rw [yields] at sameOutcome
    rw [machine.dispatch_outcome bus op operands yields,
      (machine.withSettings trace model).dispatch_outcome bus op operands sameOutcome]
    cases outcome with
    | completed effect => rfl
    | trapped bits => rfl
  | none =>
    cases op with
    | arithmetic op | conversion op | compare ordered | control op => cases yields
    | transfer op =>
      cases addressed : op.form.effective operands machine.core.gpr with
      | error exception =>
        rw [machine.dispatch_refused bus addressed,
          (machine.withSettings trace model).dispatch_refused bus addressed]
        rfl
      | ok address =>
        rw [machine.dispatch_addressed bus addressed,
          (machine.withSettings trace model).dispatch_addressed bus addressed]
        exact machine.conclude_withSettings trace op operands address _

end Dispatch

theorem untraced_dispatch (op : Operation) (operands : Operands) :
    Event.untraced (machine.dispatch bus op operands).events = (machine.dispatch bus op operands).events := by
  have step := machine.dispatched bus op operands
  generalize machine.dispatch bus op operands = ended at step
  cases step with
  | completed effect yields => exact Event.untraced_ofWrite _ _
  | trapped bits yields =>
    rw [Event.untraced_append, Event.untraced_ofWrite]
    rfl
  | refused | faulted | transferred => rfl

theorem execute_withSettings (inst : Word)
    (unread : ∀ op, Operation.decode inst = some op → op.readsFpscr = true → model = machine.core.model) :
    let changed := (machine.withSettings trace model).execute bus inst
    let step := machine.execute bus inst
    changed.result = step.result ∧
      changed.machine = step.machine.withSettings trace model ∧
      (trace = machine.core.trace → changed.events = step.events) ∧
      (trace = false → changed.events = Event.untraced step.events) := by
  intro changed step
  simp only [changed, step, execute]
  cases decoded : Operation.decode inst with
  | none => exact ⟨rfl, rfl, fun _ => rfl, fun _ => rfl⟩
  | some op =>
    have quiet := machine.untraced_dispatch bus op (.decode inst)
    simp only [machine.dispatch_withSettings bus trace op _ (unread op decoded)]
    generalize machine.dispatch bus op (.decode inst) = ended at quiet
    obtain ⟨exception | done, events, after⟩ := ended
    · refine ⟨rfl, rfl, ?_, ?_⟩
      · rintro rfl
        rfl
      · rintro rfl
        change [] ++ events ++ [.raised op exception] ++ [] = Event.untraced (_ ++ events ++ [.raised op exception] ++ _)
        simp only [Event.untraced_append, Event.untraced_raised, quiet,
          Event.untraced_whenTracing (Event.untraced_executing ..), Event.untraced_whenTracing (Event.untraced_dump _)]
    · refine ⟨rfl, rfl, ?_, ?_⟩
      · rintro rfl
        rfl
      · rintro rfl
        change [] ++ events = Event.untraced (_ ++ events)
        rw [Event.untraced_append, quiet, Event.untraced_whenTracing (Event.untraced_executing ..)]

theorem perform_settings (request : Request) :
    let after := (machine.perform bus request).machine
    after.core.model = machine.core.model ∧ after.core.trace = machine.core.trace := by
  refine machine.perform_of_dispatch bus request
    (motive := fun after => after.core.model = machine.core.model ∧ after.core.trace = machine.core.trace)
    (fun _ _ kept => kept) (fun _ => ⟨rfl, rfl⟩) ?_
  intro op operands decoded
  obtain ⟨model, trace, -⟩ := machine.dispatch_settings bus op operands
  exact ⟨model, trace⟩

theorem performAll_settings (requests : List Request) :
    (machine.performAll bus requests).core.model = machine.core.model ∧
      (machine.performAll bus requests).core.trace = machine.core.trace := by
  refine performAll_induction bus machine (motive := fun after =>
    after.core.model = machine.core.model ∧ after.core.trace = machine.core.trace) ?_ requests ⟨rfl, rfl⟩
  intro after request kept
  obtain ⟨model, trace⟩ := after.perform_settings bus request
  exact ⟨model.trans kept.1, trace.trans kept.2⟩

section Request
variable {request : Request} (unread : request.isOf Operation.readsFpscr = true → model = machine.core.model)
include unread

theorem perform_withSettings :
    let changed := (machine.withSettings trace model).perform bus request
    let step := machine.perform bus request
    changed.result = step.result ∧
      changed.machine = step.machine.withSettings trace model ∧
      (trace = machine.core.trace → changed.events = step.events) ∧
      (trace = false → changed.events = Event.untraced step.events) := by
  cases request with
  | word inst =>
    apply machine.execute_withSettings bus trace inst
    intro op decoded reads
    apply unread
    simp [Request.isOf, Request.operation?, decoded, reads]
  | decoded op operands =>
    intro changed step
    have same : changed = step.withSettings trace model :=
      machine.dispatch_withSettings bus trace op operands fun reads => unread reads
    rw [same]
    exact ⟨rfl, rfl, fun _ => rfl, fun _ => (machine.untraced_dispatch bus op operands).symm⟩

/-- The accesses of a request are the same under all settings, and so is the rest of what it
shows but for tracing. -/
theorem observe_withSettings :
    let changed := (machine.withSettings trace model).observe bus request
    let observation := machine.observe bus request
    (trace = machine.core.trace → changed = observation) ∧ (trace = false → changed = observation.untraced) := by
  obtain ⟨result, -, same, untraced⟩ := machine.perform_withSettings bus trace unread
  have accesses : (machine.withSettings trace model).seen bus request = machine.seen bus request := by
    rw [seen_eq, seen_eq]
    rfl
  refine ⟨?_, ?_⟩
  · intro kept
    simp only [observe, result, same kept, accesses]
  · intro silent
    simp only [observe, Observation.untraced, result, untraced silent, accesses]

end Request

section Run
variable {requests : List Request}
  (unread : ∀ request ∈ requests, request.isOf Operation.readsFpscr = true → model = machine.core.model)
include unread

theorem performAll_withSettings :
    (machine.withSettings trace model).performAll bus requests =
      (machine.performAll bus requests).withSettings trace model := by
  induction requests generalizing machine with
  | nil => rfl
  | cons request requests ih =>
    obtain ⟨-, same, -⟩ := machine.perform_withSettings bus trace (unread request List.mem_cons_self)
    simp only [performAll, List.foldl_cons, same]
    apply ih
    intro later mem reads
    rw [(machine.perform_settings bus request).1]
    exact unread later (List.mem_cons_of_mem _ mem) reads

theorem observeAll_withSettings :
    let changed := (machine.withSettings trace model).observeAll bus requests
    let observations := machine.observeAll bus requests
    (trace = machine.core.trace → changed = observations) ∧
      (trace = false → changed = observations.map Observation.untraced) := by
  induction requests generalizing machine with
  | nil => exact ⟨fun _ => rfl, fun _ => rfl⟩
  | cons request requests ih =>
    obtain ⟨-, after, -⟩ := machine.perform_withSettings bus trace (unread request List.mem_cons_self)
    obtain ⟨same, untraced⟩ := machine.observe_withSettings bus trace (unread request List.mem_cons_self)
    obtain ⟨model, flag⟩ := machine.perform_settings bus request
    obtain ⟨sameLater, untracedLater⟩ := ih (machine.perform bus request).machine fun later mem reads =>
      (unread later (List.mem_cons_of_mem _ mem) reads).trans model.symm
    simp only [observeAll, List.map_cons, after]
    refine ⟨?_, ?_⟩
    · intro kept
      rw [same kept, sameLater (kept.trans flag.symm)]
    · intro silent
      rw [untraced silent, untracedLater silent]

end Run

section ReadFpscr
variable (operands : Operands)

theorem dispatch_readFpscr_withModel (model : ProcessorModel) :
    let step := machine.dispatch bus (.control .readFpscr) operands
    (machine.withModel model).dispatch bus (.control .readFpscr) operands =
      { step with machine := (step.machine.withModel model).withUpper operands.rd model.padding } := by
  let bits := machine.core.fpscr.bits
  have padded : machine.core.fpr.set operands.rd (model.boxFpscr bits) =
      (machine.core.fpr.set operands.rd (machine.core.model.boxFpscr bits)).set operands.rd
        (model.padding ++ ((machine.core.fpr.set operands.rd (machine.core.model.boxFpscr bits)).get
          operands.rd).setWidth 32) := by
    rw [Bank.get_set_self, ProcessorModel.setWidth_boxFpscr, Bank.set_set]
    rfl
  -- The two ends are one function of the registers.
  let step := (machine.dispatch bus (.control .readFpscr) operands).withSettings machine.core.trace model
  exact congrArg (fun fpr =>
    ({ step with machine := { step.machine with core := { step.machine.core with fpr } } } : Step σ)) padded

variable {operands} {request : Request} (decoded : request.operation? = some (.control .readFpscr, operands))
include decoded

theorem perform_readFpscr_withModel (model : ProcessorModel) :
    let step := machine.perform bus request
    (machine.withModel model).perform bus request =
      { step with machine := (step.machine.withModel model).withUpper operands.rd model.padding } := by
  cases request with
  | decoded op _ =>
    cases decoded
    exact machine.dispatch_readFpscr_withModel bus operands model
  | word inst =>
    obtain ⟨op, decodes, same⟩ := Option.map_eq_some_iff.mp decoded
    cases same
    simp only [perform, execute, decodes, machine.dispatch_readFpscr_withModel bus (.decode inst) model]
    have completes : (machine.dispatch bus (.control .readFpscr) (.decode inst)).result = .ok () := rfl
    generalize machine.dispatch bus (.control .readFpscr) (.decode inst) = ended at completes
    obtain ⟨exception | done, events, after⟩ := ended
    · cases completes
    · rfl

theorem get_readFpscr :
    (machine.perform bus request).machine.core.fpr.get operands.rd =
      machine.core.model.boxFpscr machine.core.fpscr.bits := by
  let bits := machine.core.fpscr.bits
  have yields : machine.outcome? (.control .readFpscr) (operands.seenBy (.control .readFpscr)) =
      some (.completed ⟨bits, some (machine.core.model.boxFpscr bits), none⟩) := rfl
  obtain ⟨-, -, fpr, -⟩ := perform_completed bus decoded yields
  rw [fpr]
  exact Bank.get_set_self _ _ _

theorem observe_readFpscr_withModel (model : ProcessorModel) :
    (machine.withModel model).observe bus request = machine.observe bus request := by
  have accesses : (machine.withModel model).seen bus request = machine.seen bus request := by
    rw [seen_eq, seen_eq]
    rfl
  simp only [observe, machine.perform_readFpscr_withModel bus decoded model, accesses]

end ReadFpscr

/-- Settings do not leak into execution. Cores that differ in the trace flag alone give the same
results and accesses and are after every step the same machine but for the flag; all that
tracing adds is reports. Cores that differ in the model alone show the same altogether, as
long as no request reads the FPSCR; and one that does leaves them with the same machine
again, but for the upper word of its target. -/
theorem settings_do_not_leak (requests : List Request) :
    (∀ trace,
      ((machine.withTrace trace).observeAll bus requests).map Observation.untraced =
          (machine.observeAll bus requests).map Observation.untraced ∧
        ∀ count,
          (machine.withTrace trace).performAll bus (requests.take count) =
            (machine.performAll bus (requests.take count)).withTrace trace) ∧
    (machine.withTrace false).observeAll bus requests =
      (machine.observeAll bus requests).map Observation.untraced ∧
    ∀ model,
      ((∀ request ∈ requests, request.isOf Operation.readsFpscr = false) →
        (machine.withModel model).observeAll bus requests = machine.observeAll bus requests ∧
          ∀ count,
            (machine.withModel model).performAll bus (requests.take count) =
              (machine.performAll bus (requests.take count)).withModel model) ∧
      ∀ (request : Request) (operands : Operands), request.operation? = some (.control .readFpscr, operands) →
        let after := (machine.perform bus request).machine
        (machine.withModel model).observe bus request = machine.observe bus request ∧
          ((machine.withModel model).perform bus request).machine =
            (after.withModel model).withUpper operands.rd model.padding ∧
          after.core.fpr.get operands.rd = machine.core.model.boxFpscr machine.core.fpscr.bits := by
  have silent (machine : Machine σ) : (machine.withTrace false).observeAll bus requests =
      (machine.observeAll bus requests).map Observation.untraced :=
    (machine.observeAll_withSettings bus false fun _ _ _ => rfl).2 rfl
  refine ⟨?_, silent machine, ?_⟩
  · intro trace
    refine ⟨(silent (machine.withTrace trace)).symm.trans (silent machine), ?_⟩
    intro count
    have spared : ∀ request ∈ requests.take count, request.isOf Operation.readsFpscr = true →
        machine.core.model = machine.core.model := fun _ _ _ => rfl
    have after := machine.performAll_withSettings bus trace spared
    rw [withTrace, after, withTrace, (machine.performAll_settings bus _).1]
  · intro model
    refine ⟨?_, ?_⟩
    · intro unread
      have spared : ∀ request ∈ requests, request.isOf Operation.readsFpscr = true → model = machine.core.model := by
        intro request mem reads
        rw [unread request mem] at reads
        cases reads
      refine ⟨(machine.observeAll_withSettings bus machine.core.trace spared).1 rfl, ?_⟩
      intro count
      have sparedFirst : ∀ request ∈ requests.take count, request.isOf Operation.readsFpscr = true →
          model = machine.core.model := fun request mem => spared request (List.mem_of_mem_take mem)
      have after := machine.performAll_withSettings bus machine.core.trace sparedFirst
      rw [withModel, after, withModel, (machine.performAll_settings bus _).2]
    · intro request operands decoded after
      refine ⟨machine.observe_readFpscr_withModel bus decoded model, ?_, ?_⟩
      · exact congrArg Step.machine (machine.perform_readFpscr_withModel bus decoded model)
      · exact machine.get_readFpscr bus decoded

/-- A sum and a conversion that traps, with and without tracing, which reports the instructions
and walks through the registers after the trap; and the FPSCR as each model reads it. -/
theorem settings_do_not_leak_of_trap :
    let machine := resting 0x80 (.native .nearest none)
      (((Bank.zero.set 1 0x3FF0000000000000).set 2 0x3C30000000000000).set 4 0x7FF0000000000000)
    let requests : List Request := [.word 0xFC61102A, .word 0xFCA0201C]
    let traced := machine.withTrace true
    (traced.observeAll Memory.bus requests).map Observation.untraced = machine.observeAll Memory.bus requests ∧
      (traced.observeAll Memory.bus requests).map (·.events.length) = [1, 35] ∧
      (machine.observeAll Memory.bus requests).map (·.events.length) = [0, 2] ∧
      traced.performAll Memory.bus requests = (machine.performAll Memory.bus requests).withTrace true ∧
      (∀ request ∈ requests, request.isOf Operation.readsFpscr = false) ∧
      (machine.withModel .mpc601).performAll Memory.bus requests =
        (machine.performAll Memory.bus requests).withModel .mpc601 ∧
      (machine.perform Memory.bus (.word 0xFC60048E)).machine.core.fpr.get 3 = 0xFFF8000000000080 ∧
      ((machine.withModel .mpc601).perform Memory.bus (.word 0xFC60048E)).machine.core.fpr.get 3 =
        0xFFFFFFFF00000080 := by
  intro machine requests traced
  have spared : ∀ request ∈ requests, request.isOf Operation.readsFpscr = false := by decide
  obtain ⟨flags, silent, models⟩ := machine.settings_do_not_leak Memory.bus requests
  obtain ⟨observed, after⟩ := flags true
  obtain ⟨same, reads⟩ := models .mpc601
  obtain ⟨-, padded, word⟩ := reads (.word 0xFC60048E) (.decode 0xFC60048E) (by decide)
  have target : (Operands.decode 0xFC60048E).rd = 3 := by decide
  rw [target] at padded word
  refine ⟨observed.trans silent.symm, ?_, ?_, after 2, spared, (same spared).2 2, word.trans (by decide), ?_⟩
  · decide +kernel
  · decide +kernel
  · rw [padded]
    decide +kernel

end Machine

end PowerFpu
