import PowerFpu.Architecture

/-! Binary interchange formats and the numbers their bit patterns denote.

A pattern is a sign bit, a biased exponent and a fraction. Decoding gives the
exact value as an integer multiple of a power of two. -/

set_option autoImplicit false

namespace PowerFpu

structure BinaryFormat where
  exponentBits : Nat
  fractionBits : Nat
  deriving DecidableEq, Repr

def BinaryFormat.double : BinaryFormat := ⟨11, 52⟩

def BinaryFormat.single : BinaryFormat := ⟨8, 23⟩

/-- The power of two whose multiples are the subnormal numbers. -/
def BinaryFormat.minExponent (format : BinaryFormat) : Int :=
  2 - (1 <<< (format.exponentBits - 1) : Nat) - format.fractionBits

def BinaryFormat.maxBiased (format : BinaryFormat) : Nat :=
  (1 <<< format.exponentBits) - 1

/-- The leading bit of a normal number, which its pattern leaves out. -/
def BinaryFormat.hiddenBit (format : BinaryFormat) : Nat :=
  1 <<< format.fractionBits

/-- The pattern of positive infinity: patterns below it are finite. -/
def BinaryFormat.infinity (format : BinaryFormat) : Nat :=
  format.maxBiased <<< format.fractionBits

def BinaryFormat.signBit (format : BinaryFormat) : Nat :=
  1 <<< (format.exponentBits + format.fractionBits)

def BinaryFormat.defaultNan (format : BinaryFormat) : Nat :=
  format.infinity + (1 <<< (format.fractionBits - 1))

/-- A finite number is its significand times two to its exponent. Zero keeps a sign. -/
inductive Number where
  | nan
  | infinity (negative : Bool)
  | finite (negative : Bool) (significand : Nat) (exponent : Int)
  deriving DecidableEq, Repr

def BinaryFormat.decode (format : BinaryFormat) (pattern : Nat) : Number :=
  let negative := pattern.testBit (format.exponentBits + format.fractionBits)
  let biased := (pattern >>> format.fractionBits) % (1 <<< format.exponentBits)
  let fraction := pattern % format.hiddenBit
  if biased = format.maxBiased then
    if fraction = 0 then .infinity negative else .nan
  else if biased = 0 then
    .finite negative fraction format.minExponent
  else
    .finite negative (format.hiddenBit + fraction) (format.minExponent + (biased - 1 : Nat))

namespace Number

def isNan : Number → Bool
  | .nan => true
  | _ => false

def isInfinite : Number → Bool
  | .infinity _ => true
  | _ => false

def isZero : Number → Bool
  | .finite _ 0 _ => true
  | _ => false

/-- Below zero; neither zero is. -/
def isNegative : Number → Bool
  | .infinity negative => negative
  | .finite negative significand _ => negative && significand != 0
  | .nan => false

def negate : Number → Number
  | .nan => .nan
  | .infinity negative => .infinity !negative
  | .finite negative significand exponent => .finite (!negative) significand exponent

end Number

/-! Rounding a magnitude to a binary format.

A magnitude is cut at the spacing of the format's numbers around it. The
multiple kept goes up by at most one, and the sum of the scaled spacing and the
multiple is already the pattern: a carry out of the significand moves the
exponent by itself. -/

/-- A nonnegative real number known down to two to the exponent. An inexact
magnitude lies strictly between its significand and the next, in that unit. -/
structure Magnitude where
  significand : Nat
  exponent : Int
  inexact : Bool
  deriving DecidableEq, Repr

inductive Remainder where
  | zero
  | belowHalf
  | half
  | aboveHalf
  deriving DecidableEq, Repr

namespace Magnitude

/-- The exponent of the spacing between the format's numbers around the magnitude. -/
def quantum (format : BinaryFormat) (x : Magnitude) : Int :=
  if x.significand = 0 then format.minExponent
  else max format.minExponent (x.exponent + x.significand.log2 - format.fractionBits)

def kept (x : Magnitude) (quantum : Int) : Nat :=
  if quantum ≤ x.exponent then x.significand <<< (x.exponent - quantum).toNat
  else x.significand >>> (quantum - x.exponent).toNat

def remainder (x : Magnitude) (quantum : Int) : Remainder :=
  if quantum ≤ x.exponent then
    if x.inexact then .belowHalf else .zero
  else
    let unit := 1 <<< (quantum - x.exponent).toNat
    let rest := x.significand % unit
    if rest = 0 then
      if x.inexact then .belowHalf else .zero
    else if 2 * rest < unit then .belowHalf
    else if 2 * rest = unit then
      if x.inexact then .aboveHalf else .half
    else .aboveHalf

end Magnitude

/-- Whether a magnitude of the given sign goes to the next multiple. A half goes
to the even one in nearest mode. -/
def RoundingMode.roundsUp (mode : RoundingMode) (negative : Bool) (kept : Nat) : Remainder → Bool
  | .zero => false
  | .belowHalf =>
    match mode with
    | .nearest | .towardZero => false
    | .towardPosInf => !negative
    | .towardNegInf => negative
  | .half =>
    match mode with
    | .nearest => kept % 2 == 1
    | .towardZero => false
    | .towardPosInf => !negative
    | .towardNegInf => negative
  | .aboveHalf =>
    match mode with
    | .nearest => true
    | .towardZero => false
    | .towardPosInf => !negative
    | .towardNegInf => negative

namespace BinaryFormat

def overflow (format : BinaryFormat) (mode : RoundingMode) (negative : Bool) : Nat :=
  match mode, negative with
  | .nearest, _ | .towardPosInf, false | .towardNegInf, true => format.infinity
  | .towardZero, _ | .towardPosInf, true | .towardNegInf, false => format.infinity - 1

/-- The pattern, without its sign bit, of the magnitude rounded to the format. -/
def roundMagnitude (format : BinaryFormat) (mode : RoundingMode) (negative : Bool) (x : Magnitude) : Nat :=
  let quantum := x.quantum format
  let kept := x.kept quantum
  let rounded := if mode.roundsUp negative kept (x.remainder quantum) then kept + 1 else kept
  -- A leading bit in the multiple adds one to the exponent field; a subnormal has none.
  let pattern := ((quantum - format.minExponent).toNat <<< format.fractionBits) + rounded
  if pattern < format.infinity then pattern else format.overflow mode negative

def signed (format : BinaryFormat) (negative : Bool) (magnitude : Nat) : Nat :=
  if negative then format.signBit + magnitude else magnitude

def round (format : BinaryFormat) (mode : RoundingMode) : Number → Nat
  | .nan => format.defaultNan
  | .infinity negative => format.signed negative format.infinity
  | .finite negative significand exponent =>
    format.signed negative (format.roundMagnitude mode negative ⟨significand, exponent, false⟩)

end BinaryFormat

end PowerFpu
