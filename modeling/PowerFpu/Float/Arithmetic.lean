import PowerFpu.Float.Format

/-! Exact arithmetic on numbers, and the rounded arithmetic on doubles that is made of it. -/

set_option autoImplicit false

namespace PowerFpu

/-! Sum, product, order and integer parts. Nothing is rounded here: the rounding mode is asked
only for the sign of a sum that is exactly zero. -/

/-- A significand with its sign, in units of a smaller power of two. -/
def alignedSignificand (negative : Bool) (significand : Nat) (exponent unit : Int) : Int :=
  let scaled : Int := (significand <<< (exponent - unit).toNat : Nat)
  if negative then -scaled else scaled

namespace Number

/-- The exact sum. A zero sum of unlike zeros or of opposite numbers is positive,
except when rounding toward negative infinity. -/
def add (mode : RoundingMode) : Number → Number → Number
  | .nan, _ | _, .nan => .nan
  | .infinity a, .infinity b => if a = b then .infinity a else .nan
  | .infinity a, .finite .. => .infinity a
  | .finite .., .infinity b => .infinity b
  | .finite a m e, .finite b n f =>
    let unit := min e f
    let sum := alignedSignificand a m e unit + alignedSignificand b n f unit
    if sum = 0 then
      .finite (if a = b then a else mode = .towardNegInf) 0 unit
    else
      .finite (sum < 0) sum.natAbs unit

def mul : Number → Number → Number
  | .nan, _ | _, .nan => .nan
  | .infinity a, .infinity b => .infinity (a != b)
  | .infinity a, .finite b n _ => if n = 0 then .nan else .infinity (a != b)
  | .finite a m _, .infinity b => if m = 0 then .nan else .infinity (a != b)
  | .finite a m e, .finite b n f => .finite (a != b) (m * n) (e + f)

/-- The order of the values; a NaN is not ordered and the two zeros are equal. -/
def compare? : Number → Number → Option Ordering
  | .nan, _ | _, .nan => none
  | .infinity a, .infinity b =>
    some (if a = b then .eq else if a then .lt else .gt)
  | .infinity a, .finite .. => some (if a then .lt else .gt)
  | .finite .., .infinity b => some (if b then .gt else .lt)
  | .finite a m e, .finite b n f =>
    let unit := min e f
    some (compare (alignedSignificand a m e unit) (alignedSignificand b n f unit))

def floor : Number → Int
  | .nan | .infinity _ => 0
  | .finite negative significand exponent =>
    if 0 ≤ exponent then alignedSignificand negative significand exponent 0
    else (if negative then -(significand : Int) else significand) >>> (-exponent).toNat

def ceil (x : Number) : Int :=
  -x.negate.floor

def trunc : Number → Int
  | .finite true significand exponent => (Number.finite true significand exponent).ceil
  | x => x.floor

end Number

/-! The integer square root, one binary digit at a time. -/

/-- The first digits of the square root of a number below four to the digit count. -/
def rootDigits : Nat → Nat → Nat
  | 0, _ => 0
  | digits + 1, n =>
    let doubled := 2 * rootDigits digits (n / 4)
    if (doubled + 1) * (doubled + 1) ≤ n then doubled + 1 else doubled

def integerRoot (n : Nat) : Nat :=
  rootDigits (n.log2 / 2 + 1) n

theorem rootDigits_spec (digits : Nat) (n : Nat) (bound : n < 1 <<< (2 * digits)) :
    rootDigits digits n * rootDigits digits n ≤ n ∧
      n < (rootDigits digits n + 1) * (rootDigits digits n + 1) := by
  induction digits generalizing n with
  | zero =>
    simp only [Nat.mul_zero, Nat.shiftLeft_zero] at bound
    simp only [rootDigits]
    omega
  | succ digits ih =>
    have small : n / 4 < 1 <<< (2 * digits) := by
      rw [Nat.mul_succ, Nat.shiftLeft_succ, Nat.shiftLeft_succ] at bound
      omega
    obtain ⟨lower, upper⟩ := ih (n / 4) small
    simp only [rootDigits]
    generalize rootDigits digits (n / 4) = r at lower upper
    have square : 2 * r * (2 * r) = 4 * (r * r) := by
      rw [Nat.mul_mul_mul_comm]
    have next : (2 * r + 1) * (2 * r + 1) = 4 * (r * r) + 4 * r + 1 := by
      rw [Nat.mul_add, Nat.add_mul, Nat.mul_mul_mul_comm]
      omega
    have later : (2 * r + 1 + 1) * (2 * r + 1 + 1) = 4 * ((r + 1) * (r + 1)) := by
      have : 2 * r + 1 + 1 = 2 * (r + 1) := by omega
      rw [this, Nat.mul_mul_mul_comm]
    split
    · constructor
      · assumption
      · rw [later]
        omega
    · constructor
      · rw [square]
        omega
      · omega

theorem integerRoot_spec (n : Nat) :
    integerRoot n * integerRoot n ≤ n ∧ n < (integerRoot n + 1) * (integerRoot n + 1) := by
  apply rootDigits_spec
  have wide : n.log2 + 1 ≤ 2 * (n.log2 / 2 + 1) := by omega
  rw [Nat.one_shiftLeft]
  exact Nat.lt_of_lt_of_le Nat.lt_log2_self (Nat.pow_le_pow_right (by omega) wide)

/-! Rounded quotients and square roots.

Both are computed to more bits than the format keeps, with a note whether
anything was left over, and then rounded once. -/

/-- A quotient with at least the given number of bits; the divisor is not zero. -/
def Magnitude.quotient (bits : Nat) (m : Nat) (e : Int) (n : Nat) (f : Int) : Magnitude :=
  -- The divisor is below two to its own bit count, so the given bits remain.
  let shift := bits + n.log2 + 1
  let scaled := m <<< shift
  ⟨scaled / n, e - f - shift, scaled % n != 0⟩

def Magnitude.root (bits : Nat) (m : Nat) (e : Int) : Magnitude :=
  -- The exponent left over is even, so its half is exact.
  let shift := 2 * bits + (e % 2).toNat
  let scaled := m <<< shift
  let root := integerRoot scaled
  ⟨root, (e - shift) / 2, root * root != scaled⟩

namespace BinaryFormat

/-- Enough bits of an inexact magnitude for every rounding to the format. -/
def guardedBits (format : BinaryFormat) : Nat :=
  format.fractionBits + 3

/-- The rounded quotient. A nonzero number over zero is infinite. -/
def divide (format : BinaryFormat) (mode : RoundingMode) : Number → Number → Nat
  | .nan, _ | _, .nan | .infinity _, .infinity _ => format.defaultNan
  | .infinity a, .finite b .. => format.signed (a != b) format.infinity
  | .finite a .., .infinity b => format.signed (a != b) 0
  | .finite a m e, .finite b n f =>
    if n = 0 then
      if m = 0 then format.defaultNan else format.signed (a != b) format.infinity
    else
      format.signed (a != b)
        (format.roundMagnitude mode (a != b) (.quotient format.guardedBits m e n f))

/-- The rounded square root. Negative zero is its own root. -/
def squareRoot (format : BinaryFormat) (mode : RoundingMode) : Number → Nat
  | .nan | .infinity true => format.defaultNan
  | .infinity false => format.infinity
  | .finite negative m e =>
    if m = 0 then format.signed negative 0
    else if negative then format.defaultNan
    else format.roundMagnitude mode false (.root format.guardedBits m e)

end BinaryFormat

/-! Operations on the bit patterns of doubles and singles.

Every NaN that an operation delivers is the default NaN of its format. -/

namespace Single

def value (bits : Word) : Number :=
  BinaryFormat.single.decode bits.toNat

end Single

namespace Double

def value (bits : Doubleword) : Number :=
  BinaryFormat.double.decode bits.toNat

def ofNumber (mode : RoundingMode) (x : Number) : Doubleword :=
  .ofNat 64 (BinaryFormat.double.round mode x)

def defaultNan : Doubleword :=
  .ofNat 64 BinaryFormat.double.defaultNan

def signBit : Doubleword :=
  0x8000000000000000

def isNan (bits : Doubleword) : Bool :=
  (value bits).isNan

/-- The top fraction bit tells a quiet NaN from a signalling one. -/
def isQuiet (bits : Doubleword) : Bool :=
  bits.getLsbD 51

def isSignaling (bits : Doubleword) : Bool :=
  isNan bits && !isQuiet bits

def one : Doubleword :=
  0x3FF0000000000000

def minusOne : Doubleword :=
  0xBFF0000000000000

def half : Doubleword :=
  0x3FE0000000000000

def hundred : Doubleword :=
  0x4059000000000000

def add (mode : RoundingMode) (a b : Doubleword) : Doubleword :=
  ofNumber mode ((value a).add mode (value b))

def sub (mode : RoundingMode) (a b : Doubleword) : Doubleword :=
  ofNumber mode ((value a).add mode (value b).negate)

def mul (mode : RoundingMode) (a b : Doubleword) : Doubleword :=
  ofNumber mode ((value a).mul (value b))

def div (mode : RoundingMode) (a b : Doubleword) : Doubleword :=
  .ofNat 64 (BinaryFormat.double.divide mode (value a) (value b))

def sqrt (mode : RoundingMode) (a : Doubleword) : Doubleword :=
  .ofNat 64 (BinaryFormat.double.squareRoot mode (value a))

/-- The product is exact: only the sum is rounded. -/
def fusedMultiplyAdd (mode : RoundingMode) (a c b : Doubleword) : Doubleword :=
  ofNumber mode (((value a).mul (value c)).add mode (value b))

/-- Flips the sign, and keeps a NaN the default one. -/
def negate (a : Doubleword) : Doubleword :=
  if isNan a then defaultNan else a ^^^ signBit

def toSingle (mode : RoundingMode) (a : Doubleword) : Word :=
  .ofNat 32 (BinaryFormat.single.round mode (value a))

/-- Exact, so the mode does not matter. -/
def ofSingle (a : Word) : Doubleword :=
  ofNumber .nearest (Single.value a)

/-- Rounds to single precision; the result is still a double. -/
def narrow (mode : RoundingMode) (a : Doubleword) : Doubleword :=
  ofSingle (toSingle mode a)

end Double

end PowerFpu
