import PowerFpu.Configuration
import PowerFpu.Execution
import PowerFpu.Statistics

/-! One processor core: its creation, the events it reports and the execution of instructions. -/

set_option autoImplicit false

namespace PowerFpu

structure Core where
  gpr : Bank 32
  fpr : Bank 64
  fpscr : Fpscr
  cr : Word
  model : ProcessorModel
  trace : Bool
  statistics : Statistics
  deriving DecidableEq

/-- The registers start at zero and the summaries follow from the initial FPSCR. -/
def Core.create (configuration : Configuration) (thread : RoundingMode) :
    Except ConfigurationError (Core × RoundingMode) :=
  match configuration.validate with
  | .error error => .error error
  | .ok configuration =>
    let host := HostEnvironment.create configuration.host thread
    let (fpscr, thread) := Fpscr.create configuration.initialFpscr host thread
    -- The summaries are derived bits, so they are set without a write.
    .ok ({ gpr := Bank.zero
           fpr := Bank.zero
           fpscr := fpscr.mapBits Fpscr.summarize
           cr := 0
           model := configuration.model
           trace := configuration.trace
           statistics := Statistics.zero }, thread)

/-! The events a core reports while it works, and how they are worded. -/

inductive Event where
  | created (model : ProcessorModel) (fpscr : Word)
  | roundingChanged (before after : RoundingMode)
  | unrecognized (inst : Word)
  | executing (inst : Word) (op : Operation) (record : Bool)
  | conversionTrapped (fpscr : Word)
  | raised (op : Operation) (exception : Exception)
  | generalPair (index : Nat) (first second : Word)
  | floatPair (index : Nat) (first second : Doubleword)
  deriving DecidableEq, Repr

inductive EventLevel where
  | trace
  | debug
  | warn
  deriving DecidableEq, Repr

def EventLevel.name : EventLevel → String
  | .trace => "TRACE"
  | .debug => "DEBUG"
  | .warn => "WARN"

namespace Event

def level : Event → EventLevel
  | .roundingChanged .. | .executing .. => .trace
  | .unrecognized _ => .warn
  | .created .. | .conversionTrapped _ | .raised .. | .generalPair .. | .floatPair .. => .debug

def pairText {width : Nat} (letter : String) (index : Nat) (first second : BitVec width) : String :=
  let cell (number : Nat) (value : BitVec width) :=
    letter ++ padRight (toString number) 2 ++ "=" ++ hexText value
  cell index first ++ " " ++ cell (index + 1) second

def message : Event → String
  | .created .. => "fpu core created"
  | .roundingChanged .. => "host rounding mode updated"
  | .unrecognized _ => "not a floating-point instruction"
  | .executing .. => "execute"
  | .conversionTrapped _ => "invalid convert trapped"
  | .raised _ exception => exception.message
  | .generalPair index first second => pairText "r" index first second
  | .floatPair index first second => pairText "f" index first second

def fields : Event → List (String × String)
  | .created model fpscr => [("model", model.name), ("fpscr", hexText fpscr)]
  | .roundingChanged before after => [("from", before.name), ("to", after.name)]
  | .unrecognized inst => [("inst", hexText inst)]
  | .executing inst op record =>
    [("inst", hexText inst), ("op", op.mnemonic), ("record", if record then "true" else "false")]
  | .conversionTrapped fpscr => [("fpscr", hexText fpscr)]
  | .raised op exception => [("op", op.mnemonic), ("vector", hexText exception.vector)]
  | .generalPair .. | .floatPair .. => []

def ofCreation (core : Core) : List Event :=
  [.created core.model core.fpscr.bits]

/-- A write of the FPSCR is reported when it changes the rounding mode. -/
def ofWrite (before after : Word) : List Event :=
  if RoundingMode.ofBits after = RoundingMode.ofBits before then []
  else [.roundingChanged (.ofBits before) (.ofBits after)]

def dump (core : Core) : List Event :=
  (List.range 16).map (fun i =>
      .generalPair (2 * i) (core.gpr.get (.ofNat 5 (2 * i))) (core.gpr.get (.ofNat 5 (2 * i + 1)))) ++
    (List.range 16).map (fun i =>
      .floatPair (2 * i) (core.fpr.get (.ofNat 5 (2 * i))) (core.fpr.get (.ofNat 5 (2 * i + 1))))

end Event

/-! Execution of instructions by a core with its bus, on a host thread.

The guest's rounding mode is on the thread for the length of one instruction. -/

/-- A core, the state of its bus, and the rounding mode of the thread it runs on. -/
structure Machine (σ : Type) where
  core : Core
  bus : σ
  thread : RoundingMode

structure Step (σ : Type) where
  result : Except Exception Unit
  events : List Event
  machine : Machine σ

namespace Machine

variable {σ : Type}

def enter (machine : Machine σ) : Machine σ :=
  let (fpscr, thread) := machine.core.fpscr.enter machine.thread
  { machine with core := { machine.core with fpscr }, thread }

def leave (machine : Machine σ) : Machine σ :=
  let (fpscr, thread) := machine.core.fpscr.leave machine.thread
  { machine with core := { machine.core with fpscr }, thread }

def writeFpscr (machine : Machine σ) (bits : Word) : Machine σ :=
  let (fpscr, thread) := machine.core.fpscr.write bits machine.thread
  { machine with core := { machine.core with fpscr }, thread }

def sources (machine : Machine σ) (operands : Operands) : Sources where
  a := machine.core.fpr.get operands.ra
  b := machine.core.fpr.get operands.rb
  c := machine.core.fpr.get operands.rc

/-- The registers after an effect. A record form copies the new exception bits last. -/
def applyEffect (core : Core) (operands : Operands) (effect : Effect) : Core :=
  let cr :=
    match effect.field with
    | some (index, value) => Field.set core.cr index value
    | none => core.cr
  { core with
    fpr := match effect.target with
      | some value => core.fpr.set operands.rd value
      | none => core.fpr
    cr := if operands.record then ConditionRegister.recordExceptions cr effect.fpscr else cr }

def complete (machine : Machine σ) (operands : Operands) : Outcome → Step σ
  | .completed effect =>
    let written := machine.writeFpscr effect.fpscr
    { result := .ok ()
      events := Event.ofWrite machine.core.fpscr.bits effect.fpscr
      machine := { written with core := applyEffect written.core operands effect } }
  | .trapped fpscr =>
    { result := .error .floatingPointEnabled
      events := Event.ofWrite machine.core.fpscr.bits fpscr ++ [.conversionTrapped fpscr]
      machine := machine.writeFpscr fpscr }

/-- A load or store. Registers change only after the access succeeded. -/
def transfer (bus : Bus σ) (op : Transfer) (operands : Operands) (machine : Machine σ) : Step σ :=
  match op.form.effective operands machine.core.gpr with
  | .error exception => ⟨.error exception, [], machine⟩
  | .ok address =>
    let (reply, next) :=
      op.perform bus machine.thread address (machine.core.fpr.get operands.rd) machine.bus
    -- Even a failed access may have changed the bus.
    let served := { machine with bus := next }
    match reply with
    | .error exception => ⟨.error exception, [], served⟩
    | .ok loaded =>
      let core := { machine.core with
        fpr := match loaded with
          | some value => machine.core.fpr.set operands.rd value
          | none => machine.core.fpr
        gpr := if op.form.update then machine.core.gpr.set operands.ra address else machine.core.gpr }
      ⟨.ok (), [], { served with core }⟩

/-- Runs an operation in the rounding mode the thread has now. The sources are all read before
anything is written, so the target may be one of them. -/
def run (bus : Bus σ) (op : Operation) (operands : Operands) (machine : Machine σ) : Step σ :=
  let sources := machine.sources operands
  let bits := machine.core.fpscr.bits
  match op with
  | .arithmetic op => machine.complete operands (.completed (op.effect machine.thread sources bits))
  | .conversion op => machine.complete operands (op.outcome machine.thread sources bits)
  | .compare _ => machine.complete operands (.completed (compareEffect operands.crfd sources bits))
  | .control op =>
    machine.complete operands (.completed (op.effect machine.core.model operands sources bits))
  | .transfer op => transfer bus op operands machine

/-- Runs a decoded instruction inside a window of the host. The record bit is
ignored where it means nothing. -/
def dispatch (bus : Bus σ) (op : Operation) (operands : Operands) (machine : Machine σ) : Step σ :=
  let step := machine.enter.run bus op { operands with record := operands.record && op.hasRecordForm }
  -- The window closes however the step ended.
  { step with machine := step.machine.leave }

def mapStatistics (machine : Machine σ) (change : Statistics → Statistics) : Machine σ :=
  { machine with core := { machine.core with statistics := change machine.core.statistics } }

def execute (bus : Bus σ) (inst : Word) (machine : Machine σ) : Step σ :=
  match Operation.decode inst with
  | none =>
    { result := .error .illegal
      events := [.unrecognized inst]
      machine := machine.mapStatistics (·.failed .illegal) }
  | some op =>
    let operands := Operands.decode inst
    let step := machine.dispatch bus op operands
    let events :=
      (if machine.core.trace then [.executing inst op operands.record] else []) ++ step.events
    match step.result with
    | .ok _ =>
      { step with
        events
        machine := step.machine.mapStatistics (·.completed op operands.record) }
    | .error exception =>
      let dumped :=
        if machine.core.trace && exception == .floatingPointEnabled then Event.dump step.machine.core else []
      { step with
        events := events ++ [.raised op exception] ++ dumped
        machine := step.machine.mapStatistics (·.failed exception) }

end Machine

/-! A core as one line of text. -/

def Statistics.describe (statistics : Statistics) : String :=
  recordText "FpStats"
    [("inst_arith", toString statistics.arithmetic.toNat),
      ("inst_convert", toString statistics.conversion.toNat),
      ("inst_compare", toString statistics.compare.toNat),
      ("inst_control", toString statistics.control.toNat),
      ("inst_memory", toString statistics.memory.toNat),
      ("record_forms", toString statistics.recordForms.toNat),
      ("fp_traps", toString statistics.traps.toNat),
      ("illegal", toString statistics.illegal.toNat)] ""

/-- General registers are written in decimal, floating-point ones as quoted patterns. -/
def Core.describe (core : Core) : String :=
  let gpr := recordText "Gpr" [("regs", listText (core.gpr.toList.map fun cell => toString cell.toNat))] ""
  let fpr := listText (core.fpr.toList.map fun cell => "\"" ++ hexText cell ++ "\"")
  recordText "Cpu"
    [("regs", recordText "RegisterFile" [("gpr", gpr), ("fpr", fpr)] ""),
      ("fpscr", core.fpscr.describe),
      ("cr", "ConditionRegister(" ++ toString core.cr.toNat ++ ")"),
      ("model", core.model.name),
      ("trace", if core.trace then "true" else "false"),
      ("stats", core.statistics.describe)] ", .."

end PowerFpu
