import PowerFpu.Execution
import PowerFpu.Proofs.Float.DoubleArithmetic

/-! A multiplication fused with an addition rounds its exact value once. -/

set_option autoImplicit false

namespace PowerFpu

/-- The sign of a rounded sum. A sum that is not zero keeps its sign when it rounds to
zero; an exact zero has the sign of two like zeros, and otherwise that of the mode. -/
noncomputable def RoundingMode.sumNegative (mode : RoundingMode) (x y : ℝ) (negativeX negativeY : Bool) : Bool :=
  if x + y = 0 then
    if x = 0 ∧ negativeX = negativeY then negativeX else mode = .towardNegInf
  else x + y < 0

theorem Number.sumNegative_eq {a b : Number} (isFiniteA : a.isFinite = true) (isFiniteB : b.isFinite = true)
    (mode : RoundingMode) :
    sumNegative mode a b = mode.sumNegative a.toReal b.toReal a.negative b.negative := by
  unfold sumNegative RoundingMode.sumNegative
  split
  next zero =>
    -- One addend of a zero sum is zero exactly when the other is.
    have likeZeros : (a.isZero && b.isZero && a.negative == b.negative) = true ↔
        a.toReal = 0 ∧ a.negative = b.negative := by
      rw [Bool.and_eq_true, Bool.and_eq_true, isZero_iff isFiniteA, isZero_iff isFiniteB, beq_iff_eq]
      refine and_congr_left fun _ => and_iff_left_of_imp fun zeroA => ?_
      rwa [zeroA, zero_add] at zero
    exact if_congr likeZeros rfl rfl
  next => rfl

namespace Double

theorem value_flip (bits : Doubleword) : value (bits ^^^ signBit) = (value bits).negate := by
  have sign : (bits ^^^ signBit).msb = !bits.msb := by
    rw [BitVec.msb_xor, show signBit.msb = true from rfl, Bool.xor_true]
  have rung : (bits ^^^ signBit).toNat % BinaryFormat.double.signBit = bits.toNat % BinaryFormat.double.signBit := by
    have above : signBit.toNat % 2 ^ (BinaryFormat.double.exponentBits + BinaryFormat.double.fractionBits) = 0 := by
      decide
    rw [BinaryFormat.signBit_eq, BitVec.toNat_xor, Nat.xor_mod_two_pow, above, Nat.xor_zero]
  rw [value_eq_assemble, value_eq_assemble, BinaryFormat.negate_assemble, sign, rung]

theorem negate_of_ne_nan {bits : Doubleword} (isNumber : value bits ≠ .nan) : negate bits = bits ^^^ signBit := by
  rw [negate, isNan, Number.isNan_of_ne_nan isNumber, if_neg Bool.false_ne_true]

theorem value_negate_of_isFinite {bits : Doubleword} (isFinite : (value bits).isFinite = true) :
    value (negate bits) = (value bits).negate := by
  rw [negate_of_ne_nan (Number.ne_nan_of_isFinite isFinite), value_flip]

theorem fusedMultiplyAdd_roundsTo (mode : RoundingMode) {a c b : Doubleword}
    (isFiniteA : (value a).isFinite = true) (isFiniteC : (value c).isFinite = true)
    (isFiniteB : (value b).isFinite = true) :
    RoundsTo mode ((value a).toReal * (value c).toReal + (value b).toReal)
      (mode.sumNegative ((value a).toReal * (value c).toReal) (value b).toReal
        ((value a).negative != (value c).negative) (value b).negative)
      (fusedMultiplyAdd mode a c b) := by
  obtain ⟨isFiniteProduct, product, productSign⟩ := Number.mul_exact isFiniteA isFiniteC
  obtain ⟨isFinite, sum, sign⟩ := Number.add_exact isFiniteProduct isFiniteB mode
  rw [Number.sumNegative_eq isFiniteProduct isFiniteB, product, productSign] at sign
  rw [← sign, ← product, ← sum]
  exact ofNumber_roundsTo mode isFinite

end Double

namespace FusedKind

/-- What a fused operation delivers for three finite numbers. The sum and the difference
are rounded once; the negated sum is the rounded sum with its sign bit flipped. -/
inductive Delivers (mode : RoundingMode) (a b c : Number) : FusedKind → Doubleword → Prop where
  | add {bits : Doubleword}
      (rounds : Double.RoundsTo mode (a.toReal * c.toReal + b.toReal)
        (mode.sumNegative (a.toReal * c.toReal) b.toReal (a.negative != c.negative) b.negative) bits) :
      Delivers mode a b c .add bits
  | sub {bits : Doubleword}
      (rounds : Double.RoundsTo mode (a.toReal * c.toReal - b.toReal)
        (mode.sumNegative (a.toReal * c.toReal) (-b.toReal) (a.negative != c.negative) (!b.negative)) bits) :
      Delivers mode a b c .sub bits
  | negatedAdd {bits : Doubleword} (sum : Delivers mode a b c .add bits) :
      Delivers mode a b c .negatedAdd (bits ^^^ Double.signBit)

variable {mode : RoundingMode}

theorem Delivers.unique {kind : FusedKind} {a b c : Number} {first second : Doubleword}
    (delivers : kind.Delivers mode a b c first) (deliversSecond : kind.Delivers mode a b c second) :
    first = second := by
  induction delivers generalizing second with
  | add rounds | sub rounds =>
    cases deliversSecond with
    | _ roundsSecond => exact rounds.unique roundsSecond
  | negatedAdd sum ih =>
    cases deliversSecond with
    | negatedAdd sumSecond => rw [ih sumSecond]

theorem apply_delivers {kind : FusedKind} (other : kind ≠ .negatedSub) {a b c : Doubleword}
    (isFiniteA : (Double.value a).isFinite = true) (isFiniteB : (Double.value b).isFinite = true)
    (isFiniteC : (Double.value c).isFinite = true) :
    kind.Delivers mode (Double.value a) (Double.value b) (Double.value c) (kind.apply .double mode ⟨a, b, c⟩) := by
  have sum := Double.fusedMultiplyAdd_roundsTo mode isFiniteA isFiniteC isFiniteB
  cases kind with
  | add => exact .add sum
  | negatedAdd =>
    have flips := Double.negate_of_ne_nan sum.1.ne_nan
    change Delivers mode _ _ _ .negatedAdd (Double.negate (Double.fusedMultiplyAdd mode a c b))
    rw [flips]
    exact .negatedAdd (.add sum)
  | sub =>
    have negated := Double.value_negate_of_isFinite isFiniteB
    have isFiniteNegated : (Double.value (Double.negate b)).isFinite = true := by
      rw [negated]
      exact Number.isFinite_negate isFiniteB
    have difference := Double.fusedMultiplyAdd_roundsTo mode isFiniteA isFiniteC isFiniteNegated
    rw [negated, Number.toReal_negate, Number.negative_negate_of_isFinite isFiniteB, ← sub_eq_add_neg] at difference
    exact .sub difference
  | negatedSub => exact absurd rfl other

end FusedKind

/-! Exact results, infinities and invalid operations included, and the doubles that the
operations deliver for them. -/

open BinaryFormat (double)

/-- What an operation comes to before it is rounded. A zero has a sign that its value
does not show. -/
inductive Ideal where
  | invalid
  | infinite (negative : Bool)
  | real (x : ℝ) (negative : Bool)

namespace Number

noncomputable def idealSum (mode : RoundingMode) : Number → Number → Ideal
  | .nan, _ | _, .nan => .invalid
  | .infinity a, .infinity b => if a = b then .infinite a else .invalid
  | .infinity a, .finite .. => .infinite a
  | .finite .., .infinity b => .infinite b
  | x, y => .real (x.toReal + y.toReal) (mode.sumNegative x.toReal y.toReal x.negative y.negative)

noncomputable def idealProduct : Number → Number → Ideal
  | .nan, _ | _, .nan => .invalid
  | .infinity a, .infinity b => .infinite (a != b)
  | .infinity a, y => if y.toReal = 0 then .invalid else .infinite (a != y.negative)
  | x, .infinity b => if x.toReal = 0 then .invalid else .infinite (x.negative != b)
  | x, y => .real (x.toReal * y.toReal) (x.negative != y.negative)

/-- Two infinities, and two zeros, have no quotient. Over zero a number is infinite. -/
noncomputable def idealQuotient : Number → Number → Ideal
  | .nan, _ | _, .nan | .infinity _, .infinity _ => .invalid
  | .infinity a, y => .infinite (a != y.negative)
  | x, .infinity b => .real 0 (x.negative != b)
  | x, y =>
    if y.toReal = 0 then
      if x.toReal = 0 then .invalid else .infinite (x.negative != y.negative)
    else .real (x.toReal / y.toReal) (x.negative != y.negative)

noncomputable def idealRoot : Number → Ideal
  | .nan | .infinity true => .invalid
  | .infinity false => .infinite false
  | x => if x.toReal < 0 then .invalid else .real (√x.toReal) x.negative

end Number

noncomputable def BinaryKind.ideal (kind : BinaryKind) (mode : RoundingMode) (a b : Number) : Ideal :=
  match kind with
  | .add => a.idealSum mode b
  | .sub => a.idealSum mode b.negate
  | .mul => a.idealProduct b
  | .div => a.idealQuotient b

namespace Double

/-- The exact result as a double: the default NaN, an infinity, or the real number
rounded once. -/
def Delivers (mode : RoundingMode) (ideal : Ideal) (bits : Doubleword) : Prop :=
  match ideal with
  | .invalid => bits = defaultNan
  | .infinite negative => value bits = .infinity negative
  | .real x negative => RoundsTo mode x negative bits

variable (mode : RoundingMode)

theorem infinity_delivers (negative : Bool) (significand : Nat) (exponent : Int) (sign : Bool) :
    Delivers mode
      (if (Number.finite negative significand exponent).toReal = 0 then .invalid else .infinite sign)
      (ofNumber mode (if significand = 0 then .nan else .infinity sign)) := by
  simp only [Number.toReal_finite_eq_zero]
  split
  next => rfl
  next => exact value_ofNumber_infinity mode sign

section Exact
variable (x y : Number)

theorem ofNumber_add_delivers : Delivers mode (x.idealSum mode y) (ofNumber mode (x.add mode y)) := by
  cases x with
  | nan => rfl
  | infinity a =>
    cases y with
    | nan => rfl
    | finite b n f => exact value_ofNumber_infinity mode a
    | infinity b =>
      simp only [Number.idealSum, Number.add]
      split
      next => exact value_ofNumber_infinity mode a
      next => rfl
  | finite a m e =>
    cases y with
    | nan => rfl
    | infinity b => exact value_ofNumber_infinity mode b
    | finite b n f =>
      obtain ⟨isFinite, sum, sign⟩ := Number.add_exact (a := .finite a m e) (b := .finite b n f) rfl rfl mode
      rw [Number.sumNegative_eq rfl rfl] at sign
      have rounds := ofNumber_roundsTo mode isFinite
      rw [sum, sign] at rounds
      exact rounds

theorem ofNumber_mul_delivers : Delivers mode (x.idealProduct y) (ofNumber mode (x.mul y)) := by
  cases x with
  | nan => rfl
  | infinity a =>
    cases y with
    | nan => rfl
    | infinity b => exact value_ofNumber_infinity mode (a != b)
    | finite b n f => exact infinity_delivers mode b n f (a != b)
  | finite a m e =>
    cases y with
    | nan => rfl
    | infinity b => exact infinity_delivers mode a m e (a != b)
    | finite b n f =>
      obtain ⟨isFinite, product, sign⟩ := Number.mul_exact (a := .finite a m e) (b := .finite b n f) rfl rfl
      have rounds := ofNumber_roundsTo mode isFinite
      rw [product, sign] at rounds
      exact rounds

end Exact

section Patterns
variable (a b : Doubleword)

theorem div_delivers : Delivers mode ((value a).idealQuotient (value b)) (div mode a b) := by
  cases isA : value a with
  | nan =>
    rw [div, isA]
    rfl
  | infinity negativeA =>
    cases isB : value b with
    | nan | infinity negativeB =>
      rw [div, isA, isB]
      rfl
    | finite negativeB n f =>
      rw [div, isA, isB]
      exact value_signed_infinity (negativeA != negativeB)
  | finite negativeA m e =>
    cases isB : value b with
    | nan =>
      rw [div, isA, isB]
      rfl
    | infinity negativeB =>
      rw [div, isA, isB]
      exact zero_roundsTo mode (negativeA != negativeB)
    | finite negativeB n f =>
      have rounds (nonzero : n ≠ 0) := div_roundsTo mode (a := a) (b := b) (by rw [isA]; rfl) (by rw [isB]; rfl)
        (by rw [isB]; exact (Number.toReal_finite_eq_zero negativeB n f).not.mpr nonzero)
      rw [div, isA, isB] at rounds ⊢
      simp only [Number.idealQuotient, BinaryFormat.divide, Number.toReal_finite_eq_zero] at rounds ⊢
      split
      next zero =>
        split
        next => rfl
        next => exact value_signed_infinity (negativeA != negativeB)
      next nonzero =>
        have quotient := rounds nonzero
        rw [if_neg nonzero] at quotient
        exact quotient

theorem sqrt_delivers : Delivers mode (value a).idealRoot (sqrt mode a) := by
  cases isA : value a with
  | nan =>
    rw [sqrt, isA]
    rfl
  | infinity negative =>
    rw [sqrt, isA]
    cases negative with
    | false => exact value_signed_infinity false
    | true => rfl
  | finite negative m e =>
    by_cases below : (Number.finite negative m e).toReal < 0
    · have nonzero : m ≠ 0 := (Number.toReal_finite_eq_zero negative m e).not.mp below.ne
      obtain rfl : negative = true := by
        by_contra positive
        rw [Bool.eq_false_iff.mpr positive] at below
        exact absurd below (dyadic_nonneg m e).not_gt
      simp only [sqrt, isA, Number.idealRoot, if_pos below, BinaryFormat.squareRoot, if_neg nonzero, if_true]
      rfl
    · have rounds := sqrt_roundsTo mode (b := a) (by rw [isA]; rfl) (by rw [isA]; exact not_lt.mp below)
      rw [isA] at rounds
      simp only [Number.idealRoot, if_neg below]
      exact rounds

end Patterns

end Double

theorem BinaryKind.apply_delivers (kind : BinaryKind) (mode : RoundingMode) (a b : Doubleword) :
    Double.Delivers mode (kind.ideal mode (Double.value a) (Double.value b)) (kind.apply mode a b) := by
  cases kind with
  | add => exact Double.ofNumber_add_delivers mode (Double.value a) (Double.value b)
  | sub => exact Double.ofNumber_add_delivers mode (Double.value a) (Double.value b).negate
  | mul => exact Double.ofNumber_mul_delivers mode (Double.value a) (Double.value b)
  | div => exact Double.div_delivers mode a b

end PowerFpu
