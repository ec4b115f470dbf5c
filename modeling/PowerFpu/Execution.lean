import PowerFpu.Bus
import PowerFpu.Fpscr
import PowerFpu.Instruction

/-! What an instruction reads from the floating-point registers and what it changes. -/

set_option autoImplicit false

namespace PowerFpu

/-- The contents of the source registers when the instruction starts, before any write. -/
structure Sources where
  a : Doubleword
  b : Doubleword
  c : Doubleword

/-- The changes of a completed instruction that stays inside the processor. -/
structure Effect where
  fpscr : Word
  target : Option Doubleword
  field : Option (FieldIndex × BitVec 4)

/-- A trapped instruction still leaves its exception bits in the FPSCR. -/
inductive Outcome where
  | completed (effect : Effect)
  | trapped (fpscr : Word)

/-! Arithmetic: the result of each operation and the FPSCR after it.

Single forms round twice, first to double and then to single. -/

def Precision.deliver (precision : Precision) (mode : RoundingMode) (x : Doubleword) : Doubleword :=
  match precision with
  | .double => x
  | .single => Double.narrow mode x

namespace BinaryKind

def check : BinaryKind → OperandCheck
  | .add => .add
  | .sub => .sub
  | .mul => .mul
  | .div => .div

/-- Multiplication takes its second operand from the third source. -/
def second (kind : BinaryKind) (sources : Sources) : Doubleword :=
  match kind with
  | .mul => sources.c
  | .add | .sub | .div => sources.b

def apply (kind : BinaryKind) (mode : RoundingMode) (a b : Doubleword) : Doubleword :=
  match kind with
  | .add => Double.add mode a b
  | .sub => Double.sub mode a b
  | .mul => Double.mul mode a b
  | .div => Double.div mode a b

end BinaryKind

namespace FusedKind

def check : FusedKind → OperandCheck
  | .add | .negatedAdd => .add
  | .sub | .negatedSub => .sub

/-- The negated sum is negated after it was rounded, to single for the single
form; the negated difference negates the first factor instead. -/
def apply (kind : FusedKind) (precision : Precision) (mode : RoundingMode) (sources : Sources) : Doubleword :=
  let ⟨a, b, c⟩ := sources
  match kind with
  | .add => Double.fusedMultiplyAdd mode a c b
  | .sub => Double.fusedMultiplyAdd mode a c (Double.negate b)
  | .negatedAdd => Double.negate (precision.deliver mode (Double.fusedMultiplyAdd mode a c b))
  | .negatedSub => Double.fusedMultiplyAdd mode (Double.negate a) c b

end FusedKind

def SignChange.apply (change : SignChange) (bits : Doubleword) : Doubleword :=
  match change with
  | .keep => bits
  | .clear => bits &&& ~~~Double.signBit
  | .set => bits ||| Double.signBit
  | .flip => bits ^^^ Double.signBit

namespace Arithmetic

def result (op : Arithmetic) (mode : RoundingMode) (sources : Sources) : Doubleword :=
  match op with
  | .binary kind precision =>
    precision.deliver mode (kind.apply mode sources.a (kind.second sources))
  | .fused kind precision => precision.deliver mode (kind.apply precision mode sources)
  | .squareRoot precision => precision.deliver mode (Double.sqrt mode sources.b)
  | .rootEstimate => Double.div mode Double.one (Double.sqrt mode sources.b)
  | .reciprocalEstimate => Double.narrow mode (Double.div mode Double.one sources.b)
  | .move change => change.apply sources.b
  | .select =>
    let a := Double.value sources.a
    if a.isNan || a.isNegative then sources.b else sources.c

def exceptionBits (op : Arithmetic) (mode : RoundingMode) (sources : Sources) (bits : Word) : Word :=
  let b := Double.value sources.b
  match op with
  | .binary kind _ => Fpscr.classifyOperands kind.check sources.a (kind.second sources) bits
  | .fused kind precision =>
    let checked := Fpscr.classifyOperands .mul sources.a sources.c bits
    -- The second check looks at the addend and at what the operation delivered.
    if b.isNan then
      Fpscr.classifyOperands kind.check sources.b (kind.apply precision mode sources) checked
    else checked
  | .squareRoot _ => Fpscr.classifyOperands .root 0 sources.b bits
  | .rootEstimate =>
    let checked := Fpscr.classifyOperands .root 0 sources.b bits
    Fpscr.summarize <|
      if Double.isSignaling sources.b then checked ||| (Fpscr.fx ||| Fpscr.vxsnan)
      else if b.isZero then checked ||| (Fpscr.fx ||| Fpscr.zx)
      else if b.isNegative then checked ||| (Fpscr.fx ||| Fpscr.vxsqrt)
      else checked
  | .reciprocalEstimate =>
    -- No operand check comes first, and FX stays as it is.
    Fpscr.summarize <|
      if b.isZero then bits ||| Fpscr.zx
      else if b.isNan then bits ||| Fpscr.vxsnan
      else if b.isInfinite then (bits &&& ~~~(Fpscr.fr ||| Fpscr.fi)) ||| Fpscr.vxsnan
      else bits
  | .move _ | .select => bits

def describesResult : Arithmetic → Bool
  | .move _ | .select => false
  | .binary .. | .fused .. | .squareRoot _ | .rootEstimate | .reciprocalEstimate => true

def fpscrAfter (op : Arithmetic) (mode : RoundingMode) (sources : Sources) (bits : Word) : Word :=
  let checked := op.exceptionBits mode sources bits
  if op.describesResult then Fpscr.classifyResult (op.result mode sources) checked else checked

def effect (op : Arithmetic) (mode : RoundingMode) (sources : Sources) (bits : Word) : Effect where
  fpscr := op.fpscrAfter mode sources bits
  target := some (op.result mode sources)
  field := none

end Arithmetic

/-! Conversion to single precision and to a 32-bit integer.

An integer result fills the low word of its register; the upper word makes the
register a quiet NaN. -/

def boxInteger (word : Word) : Doubleword :=
  (0xFFF80000 : Word) ++ word

/-- The integer that a mode chooses. Nearest adds a half, which the host rounds
to a double, and takes the floor: a half goes up. -/
def RoundingMode.toInteger (mode host : RoundingMode) (x : Doubleword) : Int :=
  match mode with
  | .nearest => (Double.value (Double.add host x Double.half)).floor
  | .towardZero => (Double.value x).trunc
  | .towardPosInf => (Double.value x).ceil
  | .towardNegInf => (Double.value x).floor

namespace Conversion

def invalidBits (x : Doubleword) (bits : Word) : Word :=
  (bits &&& ~~~(Fpscr.fr ||| Fpscr.fi)) ||| (Fpscr.vx ||| Fpscr.vxcvi) |||
    (if Double.isSignaling x then Fpscr.vxsnan else 0)

/-- An invalid input traps when VE is set, and otherwise delivers the nearest limit. -/
def invalid (x limit : Doubleword) (bits : Word) : Outcome :=
  let flagged := invalidBits x bits
  if flagged &&& Fpscr.ve = 0 then .completed ⟨flagged, some limit, none⟩
  else .trapped (Fpscr.summarizeFex flagged)

def toIntegerOutcome (mode host : RoundingMode) (x : Doubleword) (bits : Word) : Outcome :=
  let value := Double.value x
  if value.isNan || value.compare? (.finite true 1 31) == some .lt then
    invalid x (boxInteger 0x80000000) bits
  else if value.compare? (.finite false 0x7FFFFFFF 0) == some .gt then
    invalid x (boxInteger 0x7FFFFFFF) bits
  else
    .completed ⟨bits, some (boxInteger (.ofInt 32 (mode.toInteger host x))), none⟩

def outcome (op : Conversion) (host : RoundingMode) (sources : Sources) (bits : Word) : Outcome :=
  match op with
  | .toSingle =>
    let result := Double.narrow host sources.b
    .completed ⟨Fpscr.classifyResult result bits, some result, none⟩
  | .toInteger truncating =>
    toIntegerOutcome (if truncating then .towardZero else .ofBits bits) host sources.b bits

end Conversion

/-! Comparison of two registers into the FPSCR and a condition field. -/

def compareCode (a b : Doubleword) : BitVec 4 :=
  match (Double.value a).compare? (Double.value b) with
  | some .lt => ConditionRegister.less
  | some .gt => ConditionRegister.greater
  | some .eq => ConditionRegister.equal
  | none => ConditionRegister.unordered

/-- Ordered and unordered compares have the same effect, and neither traps. -/
def compareEffect (target : FieldIndex) (sources : Sources) (bits : Word) : Effect :=
  let code := compareCode sources.a sources.b
  ⟨(bits &&& ~~~Fpscr.fpcc) ||| (code.setWidth 32 <<< 12), none, some (target, code)⟩

/-! Transfers to and from the FPSCR.

No instruction writes FEX or VX: both are recomputed after every write. -/

namespace Fpscr

def writeFields (selection : BitVec 8) (source bits : Word) : Word :=
  let mask := Field.select selection &&& ~~~summary
  summarize ((bits &&& ~~~mask) ||| (source &&& mask))

/-- Field 0 cannot be written with an immediate. -/
def writeImmediate (field : FieldIndex) (value : BitVec 4) (bits : Word) : Word :=
  if field = 0 then bits else summarize (Field.set bits field value)

/-- The bit with a number that counts from the most significant. -/
def bitMask (number : BitVec 5) : Word :=
  0x80000000 >>> number.toNat

/-- The summary bits ignore a write. -/
def writeBit (number : BitVec 5) (value : Bool) (bits : Word) : Word :=
  let mask := bitMask number
  if mask &&& summary = 0 then
    summarize (if value then bits ||| mask else bits &&& ~~~mask)
  else bits

def drainField (field : FieldIndex) (bits : Word) : Word :=
  summarize (bits &&& ~~~(Field.mask field &&& clearable))

end Fpscr

def Control.effect (op : Control) (model : ProcessorModel) (operands : Operands) (sources : Sources)
    (bits : Word) : Effect :=
  match op with
  | .readFpscr => ⟨bits, some (model.boxFpscr bits), none⟩
  | .writeFields => ⟨Fpscr.writeFields operands.fm (sources.b.setWidth 32) bits, none, none⟩
  | .writeImmediate => ⟨Fpscr.writeImmediate operands.crfd operands.imm bits, none, none⟩
  | .writeBit value => ⟨Fpscr.writeBit operands.rd value bits, none, none⟩
  -- The condition field receives the bits from before they are cleared.
  | .drainField =>
    ⟨Fpscr.drainField operands.crfs bits, none, some (operands.crfd, Field.get bits operands.crfs)⟩

/-! Loads and stores: the effective address and the one access on the bus.

A single in memory is a double in a register; doubles and integer words move
unchanged. -/

/-- The base is zero when its register is number 0, and then an update form is
illegal. Addresses wrap. -/
def AddressForm.effective (form : AddressForm) (operands : Operands) (gpr : Bank 32) :
    Except Exception Word :=
  if form.update && operands.ra == 0 then .error .illegal
  else
    let base := if operands.ra = 0 then 0 else gpr.get operands.ra
    .ok (base + if form.indexed then gpr.get operands.rb else operands.d)

namespace Transfer

def form : Transfer → AddressForm
  | .load _ form | .store _ form => form
  | .storeInteger => ⟨true, false⟩

/-- Makes the access at an address. A load brings the new contents of its target. -/
def perform {σ : Type} (op : Transfer) (bus : Bus σ) (mode : RoundingMode) (address : Word)
    (source : Doubleword) (state : σ) : Except Exception (Option Doubleword) × σ :=
  match op with
  | .load .single _ =>
    let (reply, next) := bus.serve (.readWord address) state
    (reply.map fun word => some (Double.ofSingle word), next)
  | .load .double _ =>
    let (reply, next) := bus.serve (.readDoubleword address) state
    (reply.map some, next)
  | .store .single _ =>
    let (reply, next) := bus.serve (.writeWord address (Double.toSingle mode source)) state
    (reply.map fun _ => none, next)
  | .store .double _ =>
    let (reply, next) := bus.serve (.writeDoubleword address source) state
    (reply.map fun _ => none, next)
  | .storeInteger =>
    let (reply, next) := bus.serve (.writeWord address (source.setWidth 32)) state
    (reply.map fun _ => none, next)

end Transfer

end PowerFpu
