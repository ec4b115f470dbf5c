/-! Words, register banks, modes and exceptions of the processor, and how they are printed. -/

set_option autoImplicit false

namespace PowerFpu

abbrev Word := BitVec 32

abbrev Doubleword := BitVec 64

/-- A fixed number of lower-case digits for each width, after the mark of the base. -/
def hexText {n : Nat} (bits : BitVec n) : String :=
  "0x" ++ bits.toHex

/-! Padding, lists and records in printed text. -/

/-- Blanks on the right up to a width; a longer text is left as it is. -/
def padRight (text : String) (width : Nat) : String :=
  text ++ String.ofList (List.replicate (width - text.length) ' ')

def listText (items : List String) : String :=
  "[" ++ ", ".intercalate items ++ "]"

def recordText (name : String) (fields : List (String × String)) (rest : String) : String :=
  name ++ " \x7b " ++ ", ".intercalate (fields.map fun field => field.1 ++ ": " ++ field.2) ++ rest ++ " \x7d"

/-! A word as eight fields of four bits, field 0 the most significant. -/

abbrev FieldIndex := BitVec 3

namespace Field

def shift (index : FieldIndex) : Nat :=
  28 - 4 * index.toNat

def mask (index : FieldIndex) : Word :=
  0xF <<< shift index

def get (word : Word) (index : FieldIndex) : BitVec 4 :=
  word.extractLsb' (shift index) 4

def set (word : Word) (index : FieldIndex) (value : BitVec 4) : Word :=
  (word &&& ~~~mask index) ||| (value.setWidth 32 <<< shift index)

/-- The fields whose bits are set in a selection, field 0 in its top bit. -/
def select (selection : BitVec 8) : Word :=
  (List.range 8).foldl
    (fun mask i => if selection.getLsbD i then mask ||| (0xF <<< (4 * i)) else mask) 0

end Field

/-! The condition register and the codes of a floating-point compare. -/

namespace ConditionRegister

def less : BitVec 4 := 0x8
def greater : BitVec 4 := 0x4
def equal : BitVec 4 := 0x2
def unordered : BitVec 4 := 0x1

/-- A record form copies FX, FEX, VX and OX, the first field of the FPSCR, into field 1. -/
def recordExceptions (cr fpscr : Word) : Word :=
  Field.set cr 1 (Field.get fpscr 0)

end ConditionRegister

/-! A bank of 32 registers of one width. -/

abbrev RegisterIndex := BitVec 5

structure Bank (width : Nat) where
  cells : Vector (BitVec width) 32
  deriving DecidableEq

namespace Bank

variable {width : Nat}

def zero : Bank width :=
  ⟨Vector.replicate 32 0⟩

def get (bank : Bank width) (index : RegisterIndex) : BitVec width :=
  have : index.toNat < 32 := index.isLt
  bank.cells[index.toNat]

def set (bank : Bank width) (index : RegisterIndex) (value : BitVec width) : Bank width :=
  ⟨bank.cells.set index.toNat value index.isLt⟩

def toList (bank : Bank width) : List (BitVec width) :=
  bank.cells.toList

theorem get_set (bank : Bank width) (index other : RegisterIndex) (value : BitVec width) :
    (bank.set index value).get other = if index = other then value else bank.get other := by
  simp only [get, set, Vector.getElem_set, BitVec.toNat_inj]

@[simp] theorem get_set_self (bank : Bank width) (index : RegisterIndex) (value : BitVec width) :
    (bank.set index value).get index = value := by
  simp [get_set]

theorem get_set_ne (bank : Bank width) {index other : RegisterIndex} (value : BitVec width)
    (distinct : index ≠ other) : (bank.set index value).get other = bank.get other := by
  simp [get_set, distinct]

theorem eq_of_get_set_ne {bank : Bank width} {index other : RegisterIndex} {value : BitVec width}
    (changed : (bank.set index value).get other ≠ bank.get other) : other = index := by
  by_cases same : index = other
  · exact same.symm
  · exact absurd (bank.get_set_ne value same) changed

@[ext] theorem ext {first second : Bank width} (same : ∀ index, first.get index = second.get index) :
    first = second := by
  cases first with | mk firstCells =>
  cases second with | mk secondCells =>
  congr 1
  apply Vector.ext
  intro i bound
  exact same (.ofFin ⟨i, bound⟩)

end Bank

/-! The four rounding modes that the RN field of the FPSCR selects. -/

inductive RoundingMode where
  | nearest
  | towardZero
  | towardPosInf
  | towardNegInf
  deriving DecidableEq, Repr

/-- Only the two low bits of the word, the place of RN in the FPSCR, are read. -/
def RoundingMode.ofBits (word : Word) : RoundingMode :=
  match word.getLsbD 1, word.getLsbD 0 with
  | false, false => .nearest
  | false, true => .towardZero
  | true, false => .towardPosInf
  | true, true => .towardNegInf

def RoundingMode.toBits : RoundingMode → Word
  | .nearest => 0
  | .towardZero => 1
  | .towardPosInf => 2
  | .towardNegInf => 3

def RoundingMode.name : RoundingMode → String
  | .nearest => "Nearest"
  | .towardZero => "TowardZero"
  | .towardPosInf => "TowardPosInf"
  | .towardNegInf => "TowardNegInf"

/-! The processor models, which pad the FPSCR differently when a register receives it. -/

inductive ProcessorModel where
  | mpc601
  | mpc603e
  deriving DecidableEq, Repr

def ProcessorModel.name : ProcessorModel → String
  | .mpc601 => "Mpc601"
  | .mpc603e => "Mpc603e"

/-- The upper word of a register that receives the FPSCR. -/
def ProcessorModel.padding : ProcessorModel → Word
  | .mpc601 => 0xFFFFFFFF
  | .mpc603e => 0xFFF80000

def ProcessorModel.boxFpscr (model : ProcessorModel) (bits : Word) : Doubleword :=
  model.padding ++ bits

/-! The exceptions that end an instruction before it completes. -/

inductive ProgramCause where
  | illegalInstruction
  | floatingPointEnabled
  deriving DecidableEq, Repr

inductive Exception where
  | program (cause : ProgramCause)
  | dataStorage (address : Word)
  | alignment (address : Word)
  deriving DecidableEq, Repr

def ProgramCause.name : ProgramCause → String
  | .illegalInstruction => "IllegalInstruction"
  | .floatingPointEnabled => "FloatingPointEnabled"

namespace Exception

abbrev illegal : Exception := .program .illegalInstruction

abbrev floatingPointEnabled : Exception := .program .floatingPointEnabled

def vector : Exception → BitVec 12
  | .dataStorage _ => 0x300
  | .alignment _ => 0x600
  | .program _ => 0x700

def name : Exception → String
  | .program cause => cause.name
  | .dataStorage _ => "DataStorage"
  | .alignment _ => "Alignment"

def message : Exception → String
  | .program cause => "program exception: " ++ cause.name
  | .dataStorage address => "data storage exception at " ++ hexText address
  | .alignment address => "alignment exception at " ++ hexText address

end Exception

end PowerFpu
