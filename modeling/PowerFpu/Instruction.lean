import PowerFpu.Architecture

/-! The floating-point instructions: operand fields, operations and opcodes. -/

set_option autoImplicit false

namespace PowerFpu

structure Operands where
  /-- The target of a result, the source of a store, or the number of an FPSCR bit. -/
  rd : RegisterIndex
  ra : RegisterIndex
  rb : RegisterIndex
  rc : RegisterIndex
  crfd : BitVec 3
  crfs : BitVec 3
  /-- Which FPSCR fields are written, the first field in the top bit. -/
  fm : BitVec 8
  imm : BitVec 4
  /-- The displacement, with its sign extended. -/
  d : Word
  record : Bool
  deriving DecidableEq

def Operands.decode (word : Word) : Operands where
  rd := word.extractLsb' 21 5
  ra := word.extractLsb' 16 5
  rb := word.extractLsb' 11 5
  rc := word.extractLsb' 6 5
  crfd := word.extractLsb' 23 3
  crfs := word.extractLsb' 18 3
  fm := word.extractLsb' 17 8
  imm := word.extractLsb' 12 4
  d := (word.extractLsb' 0 16).signExtend 32
  record := word.getLsbD 0

/-! The five classes of instructions are five families of operations. Inside a
family, operations that differ in one respect are one operation with a
parameter: the precision, the sign change, the form of the address. -/

inductive Precision where
  | double
  | single
  deriving DecidableEq, Repr

inductive BinaryKind where
  | add
  | sub
  | mul
  | div
  deriving DecidableEq, Repr

inductive FusedKind where
  | add
  | sub
  | negatedAdd
  | negatedSub
  deriving DecidableEq, Repr

inductive SignChange where
  | keep
  | clear
  | set
  | flip
  deriving DecidableEq, Repr

inductive Arithmetic where
  | binary (kind : BinaryKind) (precision : Precision)
  | fused (kind : FusedKind) (precision : Precision)
  | squareRoot (precision : Precision)
  | rootEstimate
  | reciprocalEstimate
  | move (change : SignChange)
  | select
  deriving DecidableEq, Repr

inductive Conversion where
  | toSingle
  | toInteger (truncating : Bool)
  deriving DecidableEq, Repr

inductive Control where
  | readFpscr
  | writeFields
  | writeImmediate
  | writeBit (value : Bool)
  | drainField
  deriving DecidableEq, Repr

/-- The address is a base plus a displacement or an index; an update form writes it back. -/
structure AddressForm where
  indexed : Bool
  update : Bool
  deriving DecidableEq, Repr

inductive Transfer where
  | load (precision : Precision) (form : AddressForm)
  | store (precision : Precision) (form : AddressForm)
  | storeInteger
  deriving DecidableEq, Repr

inductive Operation where
  | arithmetic (op : Arithmetic)
  | conversion (op : Conversion)
  | compare (ordered : Bool)
  | control (op : Control)
  | transfer (op : Transfer)
  deriving DecidableEq, Repr

inductive OperationClass where
  | arithmetic
  | conversion
  | compare
  | control
  | memory
  deriving DecidableEq, Repr

def OperationClass.name : OperationClass → String
  | .arithmetic => "Arithmetic"
  | .conversion => "Conversion"
  | .compare => "Compare"
  | .control => "Control"
  | .memory => "Memory"

namespace Operation

def opClass : Operation → OperationClass
  | .arithmetic _ => .arithmetic
  | .conversion _ => .conversion
  | .compare _ => .compare
  | .control _ => .control
  | .transfer _ => .memory

def hasRecordForm : Operation → Bool
  | .arithmetic _ | .conversion _ => true
  | .compare _ | .transfer _ => false
  | .control op => op ≠ .drainField

end Operation

/-! The assembler's names. -/

def Precision.suffix : Precision → String
  | .double => ""
  | .single => "s"

def Arithmetic.mnemonic : Arithmetic → String
  | .binary .add precision => "fadd" ++ precision.suffix
  | .binary .sub precision => "fsub" ++ precision.suffix
  | .binary .mul precision => "fmul" ++ precision.suffix
  | .binary .div precision => "fdiv" ++ precision.suffix
  | .fused .add precision => "fmadd" ++ precision.suffix
  | .fused .sub precision => "fmsub" ++ precision.suffix
  | .fused .negatedAdd precision => "fnmadd" ++ precision.suffix
  | .fused .negatedSub precision => "fnmsub" ++ precision.suffix
  | .squareRoot precision => "fsqrt" ++ precision.suffix
  | .rootEstimate => "frsqrte"
  | .reciprocalEstimate => "fres"
  | .move .keep => "fmr"
  | .move .clear => "fabs"
  | .move .set => "fnabs"
  | .move .flip => "fneg"
  | .select => "fsel"

def Conversion.mnemonic : Conversion → String
  | .toSingle => "frsp"
  | .toInteger false => "fctiw"
  | .toInteger true => "fctiwz"

def Control.mnemonic : Control → String
  | .readFpscr => "mffs"
  | .writeFields => "mtfsf"
  | .writeImmediate => "mtfsfi"
  | .writeBit false => "mtfsb0"
  | .writeBit true => "mtfsb1"
  | .drainField => "mcrfs"

def AddressForm.suffix (form : AddressForm) : String :=
  (if form.update then "u" else "") ++ (if form.indexed then "x" else "")

def Transfer.mnemonic : Transfer → String
  | .load .single form => "lfs" ++ form.suffix
  | .load .double form => "lfd" ++ form.suffix
  | .store .single form => "stfs" ++ form.suffix
  | .store .double form => "stfd" ++ form.suffix
  | .storeInteger => "stfiwx"

def Operation.mnemonic : Operation → String
  | .arithmetic op => op.mnemonic
  | .conversion op => op.mnemonic
  | .compare false => "fcmpu"
  | .compare true => "fcmpo"
  | .control op => op.mnemonic
  | .transfer op => op.mnemonic

/-! The opcodes of the instructions, and decoding by looking a word up among them. -/

inductive ExtendedOpcode where
  | none
  | five (code : BitVec 5)
  | ten (code : BitVec 10)
  deriving DecidableEq, Repr

structure Opcode where
  primary : BitVec 6
  extended : ExtendedOpcode
  deriving DecidableEq, Repr

/-- Whether the word carries the opcode; no other bit of it is looked at. -/
def Opcode.matchesWord (opcode : Opcode) (word : Word) : Bool :=
  word.extractLsb' 26 6 == opcode.primary &&
    match opcode.extended with
    | .none => true
    | .five code => word.extractLsb' 1 5 == code
    | .ten code => word.extractLsb' 1 10 == code

/-- Single and double forms share their extended opcodes. -/
def Precision.primary : Precision → BitVec 6
  | .double => 63
  | .single => 59

def Arithmetic.opcode : Arithmetic → Opcode
  | .binary .div precision => ⟨precision.primary, .five 18⟩
  | .binary .sub precision => ⟨precision.primary, .five 20⟩
  | .binary .add precision => ⟨precision.primary, .five 21⟩
  | .binary .mul precision => ⟨precision.primary, .five 25⟩
  | .fused .sub precision => ⟨precision.primary, .five 28⟩
  | .fused .add precision => ⟨precision.primary, .five 29⟩
  | .fused .negatedSub precision => ⟨precision.primary, .five 30⟩
  | .fused .negatedAdd precision => ⟨precision.primary, .five 31⟩
  | .squareRoot precision => ⟨precision.primary, .five 22⟩
  | .rootEstimate => ⟨63, .five 26⟩
  | .reciprocalEstimate => ⟨59, .five 24⟩
  | .select => ⟨63, .five 23⟩
  | .move .keep => ⟨63, .ten 72⟩
  | .move .clear => ⟨63, .ten 264⟩
  | .move .set => ⟨63, .ten 136⟩
  | .move .flip => ⟨63, .ten 40⟩

def Conversion.opcode : Conversion → Opcode
  | .toSingle => ⟨63, .ten 12⟩
  | .toInteger false => ⟨63, .ten 14⟩
  | .toInteger true => ⟨63, .ten 15⟩

def Control.opcode : Control → Opcode
  | .readFpscr => ⟨63, .ten 583⟩
  | .writeFields => ⟨63, .ten 711⟩
  | .writeImmediate => ⟨63, .ten 134⟩
  | .writeBit false => ⟨63, .ten 70⟩
  | .writeBit true => ⟨63, .ten 38⟩
  | .drainField => ⟨63, .ten 64⟩

def Transfer.opcode : Transfer → Opcode
  | .load .single ⟨false, false⟩ => ⟨48, .none⟩
  | .load .single ⟨false, true⟩ => ⟨49, .none⟩
  | .load .single ⟨true, false⟩ => ⟨31, .ten 535⟩
  | .load .single ⟨true, true⟩ => ⟨31, .ten 567⟩
  | .load .double ⟨false, false⟩ => ⟨50, .none⟩
  | .load .double ⟨false, true⟩ => ⟨51, .none⟩
  | .load .double ⟨true, false⟩ => ⟨31, .ten 599⟩
  | .load .double ⟨true, true⟩ => ⟨31, .ten 631⟩
  | .store .single ⟨false, false⟩ => ⟨52, .none⟩
  | .store .single ⟨false, true⟩ => ⟨53, .none⟩
  | .store .single ⟨true, false⟩ => ⟨31, .ten 663⟩
  | .store .single ⟨true, true⟩ => ⟨31, .ten 695⟩
  | .store .double ⟨false, false⟩ => ⟨54, .none⟩
  | .store .double ⟨false, true⟩ => ⟨55, .none⟩
  | .store .double ⟨true, false⟩ => ⟨31, .ten 727⟩
  | .store .double ⟨true, true⟩ => ⟨31, .ten 759⟩
  | .storeInteger => ⟨31, .ten 983⟩

def Operation.opcode : Operation → Opcode
  | .arithmetic op => op.opcode
  | .conversion op => op.opcode
  | .compare false => ⟨63, .ten 0⟩
  | .compare true => ⟨63, .ten 32⟩
  | .control op => op.opcode
  | .transfer op => op.opcode

def Precision.all : List Precision :=
  [.double, .single]

def AddressForm.all : List AddressForm :=
  [⟨false, false⟩, ⟨false, true⟩, ⟨true, false⟩, ⟨true, true⟩]

def Arithmetic.all : List Arithmetic :=
  (Precision.all.flatMap fun precision =>
    [.binary .add precision, .binary .sub precision, .binary .mul precision, .binary .div precision,
      .fused .add precision, .fused .sub precision, .fused .negatedAdd precision,
      .fused .negatedSub precision, .squareRoot precision]) ++
    [.rootEstimate, .reciprocalEstimate, .move .keep, .move .clear, .move .set, .move .flip, .select]

def Conversion.all : List Conversion :=
  [.toSingle, .toInteger false, .toInteger true]

def Control.all : List Control :=
  [.readFpscr, .writeFields, .writeImmediate, .writeBit false, .writeBit true, .drainField]

def Transfer.all : List Transfer :=
  (Precision.all.flatMap fun precision =>
    AddressForm.all.flatMap fun form => [.load precision form, .store precision form]) ++ [.storeInteger]

def Operation.all : List Operation :=
  Arithmetic.all.map .arithmetic ++ Conversion.all.map .conversion ++ [.compare false, .compare true] ++
    Control.all.map .control ++ Transfer.all.map .transfer

theorem Precision.mem_all (precision : Precision) : precision ∈ all := by
  cases precision <;> decide

theorem AddressForm.mem_all (form : AddressForm) : form ∈ all := by
  rcases form with ⟨_ | _, _ | _⟩ <;> decide

theorem Arithmetic.mem_all (op : Arithmetic) : op ∈ all := by
  cases op with
  | binary kind precision => cases kind <;> cases precision <;> decide
  | fused kind precision => cases kind <;> cases precision <;> decide
  | squareRoot precision => cases precision <;> decide
  | move change => cases change <;> decide
  | rootEstimate | reciprocalEstimate | select => decide

theorem Transfer.mem_all (op : Transfer) : op ∈ all := by
  cases op with
  | load precision form | store precision form =>
    simp [all, precision.mem_all, form.mem_all]
  | storeInteger => decide

theorem Operation.mem_all (op : Operation) : op ∈ all := by
  cases op with
  | arithmetic op => simp [all, op.mem_all]
  | conversion op =>
    cases op with
    | toSingle => decide
    | toInteger truncating => cases truncating <;> decide
  | compare ordered => cases ordered <;> decide
  | control op =>
    cases op with
    | writeBit value => cases value <;> decide
    | readFpscr | writeFields | writeImmediate | drainField => decide
  | transfer op => simp [all, op.mem_all]

def Operation.decode (word : Word) : Option Operation :=
  all.find? fun op => op.opcode.matchesWord word

def Operation.ofMnemonic? (mnemonic : String) : Option Operation :=
  all.find? fun op => op.mnemonic == mnemonic

end PowerFpu
