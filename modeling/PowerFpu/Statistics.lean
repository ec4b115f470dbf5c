import PowerFpu.Float.Arithmetic
import PowerFpu.Instruction

/-! Counters of completed, trapped and illegal instructions.

A counter has 64 bits and wraps around. -/

set_option autoImplicit false

namespace PowerFpu

abbrev Counter := BitVec 64

structure Statistics where
  arithmetic : Counter
  conversion : Counter
  compare : Counter
  control : Counter
  memory : Counter
  recordForms : Counter
  traps : Counter
  illegal : Counter
  deriving DecidableEq, Repr

namespace Statistics

def zero : Statistics :=
  ⟨0, 0, 0, 0, 0, 0, 0, 0⟩

def count (statistics : Statistics) : OperationClass → Counter
  | .arithmetic => statistics.arithmetic
  | .conversion => statistics.conversion
  | .compare => statistics.compare
  | .control => statistics.control
  | .memory => statistics.memory

def record (statistics : Statistics) : OperationClass → Statistics
  | .arithmetic => { statistics with arithmetic := statistics.arithmetic + 1 }
  | .conversion => { statistics with conversion := statistics.conversion + 1 }
  | .compare => { statistics with compare := statistics.compare + 1 }
  | .control => { statistics with control := statistics.control + 1 }
  | .memory => { statistics with memory := statistics.memory + 1 }

def total (statistics : Statistics) : Counter :=
  statistics.arithmetic + statistics.conversion + statistics.compare + statistics.control + statistics.memory

/-- A completed instruction counts as a record form when its record bit means something. -/
def completed (statistics : Statistics) (op : Operation) (record : Bool) : Statistics :=
  let counted := statistics.record op.opClass
  if record && op.hasRecordForm then { counted with recordForms := counted.recordForms + 1 } else counted

/-- Memory faults are not counted. -/
def failed (statistics : Statistics) : Exception → Statistics
  | .program .illegalInstruction => { statistics with illegal := statistics.illegal + 1 }
  | .program .floatingPointEnabled => { statistics with traps := statistics.traps + 1 }
  | .dataStorage _ | .alignment _ => statistics

theorem total_record (statistics : Statistics) (opClass : OperationClass) :
    (statistics.record opClass).total = statistics.total + 1 := by
  cases opClass <;> simp only [record, total] <;> ac_rfl

end Statistics

/-! The printed report of the counters.

A percentage is computed in doubles, whose exact value is then printed to two places. -/

/-- The number in hundredths, to the nearest one; a half goes to the even one. -/
def Number.hundredths (x : Number) : Nat :=
  match x with
  | .finite _ significand exponent =>
    let scaled := significand * 100
    if 0 ≤ exponent then scaled <<< exponent.toNat
    else
      let unit := 1 <<< (-exponent).toNat
      let kept := scaled / unit
      let twice := 2 * (scaled % unit)
      if twice < unit then kept
      else if twice = unit then kept + kept % 2
      else kept + 1
  | .nan | .infinity _ => 0

def hundredthsText (n : Nat) : String :=
  let places := toString (n % 100)
  toString (n / 100) ++ "." ++ (if n % 100 < 10 then "0" ++ places else places)

namespace Statistics

/-- The share of a total in percent. A counter becomes a double to nearest, whatever the mode;
the quotient and the product are rounded in the mode of the thread that prints. -/
def percentage (mode : RoundingMode) (count total : Nat) : Doubleword :=
  let double (n : Nat) := Double.ofNumber .nearest (.finite false n 0)
  Double.mul mode (Double.div mode (double count) (double (max total 1))) Double.hundred

def percentageText (mode : RoundingMode) (count total : Nat) : String :=
  hundredthsText (Double.value (percentage mode count total)).hundredths

def classLine (statistics : Statistics) (mode : RoundingMode) (name : String) (opClass : OperationClass) : String :=
  let count := (statistics.count opClass).toNat
  "  " ++ padRight name 22 ++ " " ++ toString count ++
    " (" ++ percentageText mode count statistics.total.toNat ++ "%)"

def report (statistics : Statistics) (mode : RoundingMode) : String :=
  let rule := String.ofList (List.replicate 58 '=')
  let thin := String.ofList (List.replicate 58 '-')
  "\n".intercalate
    [rule,
      "POWERPC FPU STATISTICS",
      rule,
      "fp_insts                 " ++ toString statistics.total.toNat,
      thin,
      "INSTRUCTION MIX",
      statistics.classLine mode "op.arith" .arithmetic,
      statistics.classLine mode "op.convert" .conversion,
      statistics.classLine mode "op.compare" .compare,
      statistics.classLine mode "op.control" .control,
      statistics.classLine mode "op.memory" .memory,
      thin,
      "EXCEPTIONS",
      "  record_forms           " ++ toString statistics.recordForms.toNat,
      "  fp_traps               " ++ toString statistics.traps.toNat,
      "  illegal                " ++ toString statistics.illegal.toNat,
      rule]

end Statistics

end PowerFpu
