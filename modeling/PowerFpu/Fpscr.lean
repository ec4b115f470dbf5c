import PowerFpu.Float.Arithmetic
import PowerFpu.Host

/-! The floating-point status and control register: its fields, what follows from them, and
the host environment that it tells of its rounding mode. -/

set_option autoImplicit false

namespace PowerFpu

namespace Fpscr

/-! Exception bits: summaries first, then causes, then the causes of VX. -/

def fx : Word := 0x80000000
def fex : Word := 0x40000000
def vx : Word := 0x20000000
def ox : Word := 0x10000000
def ux : Word := 0x08000000
def zx : Word := 0x04000000
def xx : Word := 0x02000000
def vxsnan : Word := 0x01000000
def vxisi : Word := 0x00800000
def vxidi : Word := 0x00400000
def vxzdz : Word := 0x00200000
def vximz : Word := 0x00100000
def vxvc : Word := 0x00080000
def vxsoft : Word := 0x00000400
def vxsqrt : Word := 0x00000200
def vxcvi : Word := 0x00000100

/-! The description of the last result. -/

def fr : Word := 0x00040000
def fi : Word := 0x00020000
def resultClass : Word := 0x00010000
def less : Word := 0x00008000
def greater : Word := 0x00004000
def equal : Word := 0x00002000
def unordered : Word := 0x00001000

/-! Enables and controls. -/

def reserved : Word := 0x00000800
def ve : Word := 0x00000080
def oe : Word := 0x00000040
def ue : Word := 0x00000020
def ze : Word := 0x00000010
def xe : Word := 0x00000008
def ni : Word := 0x00000004
def rn : Word := 0x00000003

def fpcc : Word := less ||| greater ||| equal ||| unordered

def fprf : Word := resultClass ||| fpcc

def invalidCauses : Word :=
  vxsnan ||| vxisi ||| vxidi ||| vxzdz ||| vximz ||| vxvc ||| vxsoft ||| vxsqrt ||| vxcvi

/-- The bits that reading a field into the condition register drains. -/
def clearable : Word := fx ||| ox ||| ux ||| zx ||| xx ||| invalidCauses

/-- The bits that follow from others and are never written by themselves. -/
def summary : Word := fex ||| vx

/-- The causes that have an enable, in the order of their enables. -/
def enabledCauses : Word := vx ||| ox ||| ux ||| zx ||| xx

end Fpscr

/-! The summary bits of the FPSCR, recomputed from causes and enables. -/

namespace Fpscr

def summarizeVx (bits : Word) : Word :=
  if bits &&& invalidCauses = 0 then bits &&& ~~~vx else bits ||| vx

/-- FEX is set when some cause is set together with its own enable: a shift by 22
places brings each enable to its cause. -/
def summarizeFex (bits : Word) : Word :=
  if bits &&& (bits <<< 22) &&& enabledCauses = 0 then bits &&& ~~~fex else bits ||| fex

/-- VX is one of the causes that FEX looks at, so it comes first. -/
def summarize (bits : Word) : Word :=
  summarizeFex (summarizeVx bits)

end Fpscr

/-! How operands and results are described in the FPSCR.

The operand checks are those of the processor, not the general rule for invalid
operations: a zero times an infinity, for one, is not noticed. -/

inductive OperandCheck where
  | add
  | sub
  | mul
  | div
  | root
  deriving DecidableEq, Repr

namespace OperandCheck

def bothAre (test : Number → Bool) (a b : Doubleword) : Bool :=
  test (Double.value a) && test (Double.value b)

/-- The bits that a pair of operands sets. A root looks at the second alone. -/
def invalidBits (check : OperandCheck) (a b : Doubleword) : Word :=
  match check with
  | .add => if bothAre Number.isNan a b then Fpscr.fx ||| Fpscr.vxisi else 0
  | .sub =>
    if bothAre Number.isInfinite a b || bothAre Number.isNan a b then Fpscr.fx ||| Fpscr.vxisi else 0
  | .mul => if bothAre Number.isNan a b then Fpscr.fx else 0
  | .div =>
    if bothAre Number.isInfinite a b then Fpscr.fx ||| Fpscr.vxidi
    else if bothAre Number.isZero a b then Fpscr.fx ||| Fpscr.vxzdz
    else 0
  | .root =>
    if Double.isNan b || b == Double.minusOne then Fpscr.fx ||| Fpscr.vxsqrt else 0

end OperandCheck

namespace Fpscr

/-- A check starts by clearing FX and VXIDI; the other causes stay. -/
def classifyOperands (check : OperandCheck) (a b : Doubleword) (bits : Word) : Word :=
  summarize ((bits &&& ~~~(fx ||| vxidi)) ||| check.invalidBits a b)

def resultBits : Number → Word
  | .nan => resultClass ||| unordered
  | .infinity negative => (if negative then less else greater) ||| unordered
  | .finite negative significand _ =>
    if significand = 0 then equal else if negative then less else greater

def classifyResult (result : Doubleword) (bits : Word) : Word :=
  (bits &&& ~~~fprf) ||| resultBits (Double.value result)

end Fpscr

/-! The FPSCR together with the host environment that follows its RN field. -/

structure Fpscr where
  bits : Word
  host : HostEnvironment
  deriving DecidableEq, Repr

namespace Fpscr

def rounding (register : Fpscr) : RoundingMode :=
  .ofBits register.bits

/-- A new register sets its environment to the mode of its initial word. -/
def create (initial : Word) (host : HostEnvironment) (thread : RoundingMode) : Fpscr × RoundingMode :=
  let (host, thread) := host.setRounding (.ofBits initial) thread
  (⟨initial, host⟩, thread)

/-- The host environment hears of a write that changes RN. -/
def write (register : Fpscr) (value : Word) (thread : RoundingMode) : Fpscr × RoundingMode :=
  if RoundingMode.ofBits value = register.rounding then
    ({ register with bits := value }, thread)
  else
    let (host, thread) := register.host.setRounding (.ofBits value) thread
    (⟨value, host⟩, thread)

def set (register : Fpscr) (mask : Word) (thread : RoundingMode) : Fpscr × RoundingMode :=
  register.write (register.bits ||| mask) thread

def clear (register : Fpscr) (mask : Word) (thread : RoundingMode) : Fpscr × RoundingMode :=
  register.write (register.bits &&& ~~~mask) thread

def test (register : Fpscr) (mask : Word) : Bool :=
  register.bits &&& mask != 0

/-- The summaries are derived bits, so they change without a write. -/
def mapBits (register : Fpscr) (change : Word → Word) : Fpscr :=
  { register with bits := change register.bits }

def enter (register : Fpscr) (thread : RoundingMode) : Fpscr × RoundingMode :=
  let (host, thread) := register.host.enter thread
  ({ register with host }, thread)

def leave (register : Fpscr) (thread : RoundingMode) : Fpscr × RoundingMode :=
  let (host, thread) := register.host.leave thread
  ({ register with host }, thread)

def describe (register : Fpscr) : String :=
  recordText "Fpscr" [("bits", hexText register.bits), ("host_rounding", register.host.rounding.name)] ""

end Fpscr

end PowerFpu
