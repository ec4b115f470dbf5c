import PowerFpu.Fpscr
import PowerFpu.Json

/-! The settings a processor starts with, and which of them are refused. -/

set_option autoImplicit false

namespace PowerFpu

structure Configuration where
  trace : Bool
  model : ProcessorModel
  initialFpscr : Word
  host : HostKind
  deriving DecidableEq, Repr

inductive ConfigurationError where
  | unreadable
  | malformed
  | reservedBit (initial : Word)
  | presetSummary (initial : Word)
  deriving DecidableEq, Repr

def Configuration.default : Configuration :=
  ⟨false, .mpc603e, 0, .native⟩

/-- The reserved bit is looked at before FEX. -/
def Configuration.validate (configuration : Configuration) : Except ConfigurationError Configuration :=
  let initial := configuration.initialFpscr
  if initial &&& Fpscr.reserved ≠ 0 then .error (.reservedBit initial)
  else if initial &&& Fpscr.fex ≠ 0 then .error (.presetSummary initial)
  else .ok configuration

def ConfigurationError.message? : ConfigurationError → Option String
  | .unreadable | .malformed => none
  | .reservedBit initial =>
    some ("invalid configuration value for \x60fpu.initial_fpscr\x60: reserved bit 20 set in " ++ hexText initial)
  | .presetSummary initial =>
    some ("invalid configuration value for \x60fpu.initial_fpscr\x60: FEX is derived and may not be preset (" ++
      hexText initial ++ ")")

/-! Configurations written in JSON, as a text or as the bytes of a file. -/

namespace Configuration

/-- Each model has a short name too. -/
def modelNames : List (String × ProcessorModel) :=
  [("Mpc601", .mpc601), ("601", .mpc601), ("Mpc603e", .mpc603e), ("603e", .mpc603e)]

def hostNames : List (String × HostKind) :=
  [("Native", .native), ("Detached", .detached)]

def general? (value : Json.Value) : Option Bool := do
  let record ← value.record? ["trace_instructions"]
  Json.Value.member record "trace_instructions" Json.Value.bool? default.trace

def fpu? (trace : Bool) (value : Json.Value) : Option Configuration := do
  let record ← value.record? ["model", "initial_fpscr", "host_env"]
  let model ← Json.Value.member record "model" (Json.Value.choice? modelNames) default.model
  let initialFpscr ← Json.Value.member record "initial_fpscr" Json.Value.word? default.initialFpscr
  let host ← Json.Value.member record "host_env" (Json.Value.choice? hostNames) default.host
  some { trace, model, initialFpscr, host }

def ofValue? (value : Json.Value) : Option Configuration := do
  let record ← value.record? ["general", "fpu"]
  let trace ← Json.Value.member record "general" general? default.trace
  Json.Value.member record "fpu" (fpu? trace) { default with trace }

def ofJson (text : String) : Except ConfigurationError Configuration :=
  match (Json.Value.parse? text).bind ofValue? with
  | some configuration => configuration.validate
  | none => .error .malformed

/-- The contents of a file, if it could be read. Other bytes than UTF-8 are no text. -/
def ofFile (contents : Option ByteArray) : Except ConfigurationError Configuration :=
  match contents.bind String.fromUTF8? with
  | some text => ofJson text
  | none => .error .unreadable

end Configuration

end PowerFpu
