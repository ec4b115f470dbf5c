import PowerFpu.Execution
import PowerFpu.Proofs.Float.IntegerPart

/-! Comparison is the order of the values.

Doubles that are not NaNs compare as the real or infinite numbers that they denote, for
which the two zeros are one; a NaN is above, below and equal to nothing. -/

set_option autoImplicit false

namespace PowerFpu

namespace ConditionRegister

def ofOrdering : Ordering → BitVec 4
  | .lt => less
  | .gt => greater
  | .eq => equal

variable (ordering : Ordering)

theorem known_ofOrdering : ofOrdering ordering ∈ [less, greater, equal, unordered] := by
  cases ordering <;> decide

theorem ofOrdering_ne_unordered : ofOrdering ordering ≠ unordered := by
  cases ordering <;> decide

theorem ofOrdering_eq_less_iff : ofOrdering ordering = less ↔ ordering = .lt := by
  cases ordering <;> decide

theorem ofOrdering_eq_greater_iff : ofOrdering ordering = greater ↔ ordering = .gt := by
  cases ordering <;> decide

theorem ofOrdering_eq_equal_iff : ofOrdering ordering = equal ↔ ordering = .eq := by
  cases ordering <;> decide

end ConditionRegister

open ConditionRegister

namespace Number

theorem compare?_eq_none_iff {a b : Number} : a.compare? b = none ↔ a = .nan ∨ b = .nan := by
  cases a <;> cases b <;> simp [compare?]

theorem compare?_eq_compare {a b : Number} (isNumberA : a ≠ .nan) (isNumberB : b ≠ .nan) :
    a.compare? b = some (compare a.toEReal b.toEReal) := by
  obtain ⟨isLess, isGreater⟩ := compare?_iff isNumberA isNumberB
  cases compared : a.compare? b with
  | none => simp [compare?_eq_none_iff, isNumberA, isNumberB] at compared
  | some ordering =>
    cases ordering with
    | lt => rw [compare_lt_iff_lt.mpr (isLess.mp compared)]
    | gt => rw [compare_gt_iff_gt.mpr (isGreater.mp compared)]
    | eq =>
      have notLess := isLess.not.mp (by simp [compared])
      have notGreater := isGreater.not.mp (by simp [compared])
      rw [compare_eq_iff_eq.mpr (le_antisymm (not_lt.mp notGreater) (not_lt.mp notLess))]

theorem isNegative_iff {a : Number} : a.isNegative = true ↔ a.toEReal < 0 := by
  cases a with
  | nan => simp [isNegative, toEReal]
  | infinity negative => cases negative <;> simp [isNegative, toEReal]
  | finite negative significand exponent =>
    rw [toEReal_of_isFinite rfl, EReal.coe_neg']
    cases negative with
    | false => simp [isNegative, toReal, dyadic_nonneg]
    | true =>
      rcases Nat.eq_zero_or_pos significand with rfl | positive
      · simp [isNegative, toReal]
      · simp [isNegative, toReal, dyadic_pos positive, positive.ne']

end Number

/-- What a condition code tells of two doubles. -/
structure Tells (a b : Doubleword) (code : BitVec 4) : Prop where
  known : code ∈ [less, greater, equal, unordered]
  unordered_iff : code = unordered ↔ Double.value a = .nan ∨ Double.value b = .nan
  less_iff : code = less ↔
    (Double.value a ≠ .nan ∧ Double.value b ≠ .nan) ∧ (Double.value a).toEReal < (Double.value b).toEReal
  greater_iff : code = greater ↔
    (Double.value a ≠ .nan ∧ Double.value b ≠ .nan) ∧ (Double.value b).toEReal < (Double.value a).toEReal
  equal_iff : code = equal ↔
    (Double.value a ≠ .nan ∧ Double.value b ≠ .nan) ∧ (Double.value a).toEReal = (Double.value b).toEReal

theorem compareCode_of_nan {a b : Doubleword} (isNan : Double.value a = .nan ∨ Double.value b = .nan) :
    compareCode a b = unordered := by
  rw [compareCode, Number.compare?_eq_none_iff.mpr isNan]

theorem compareCode_of_ne_nan {a b : Doubleword} (isNumberA : Double.value a ≠ .nan)
    (isNumberB : Double.value b ≠ .nan) :
    compareCode a b = ofOrdering (compare (Double.value a).toEReal (Double.value b).toEReal) := by
  rw [compareCode, Number.compare?_eq_compare isNumberA isNumberB]
  cases compare (Double.value a).toEReal (Double.value b).toEReal <;> rfl

theorem compareCode_tells (a b : Doubleword) : Tells a b (compareCode a b) := by
  by_cases isNan : Double.value a = .nan ∨ Double.value b = .nan
  · have notNumbers : ¬ (Double.value a ≠ .nan ∧ Double.value b ≠ .nan) :=
      not_and_or.mpr (isNan.imp not_not.mpr not_not.mpr)
    rw [compareCode_of_nan isNan]
    constructor
    · decide
    · exact iff_of_true rfl isNan
    · exact iff_of_false (by decide) fun tells => notNumbers tells.1
    · exact iff_of_false (by decide) fun tells => notNumbers tells.1
    · exact iff_of_false (by decide) fun tells => notNumbers tells.1
  · have numbers := not_or.mp isNan
    rw [compareCode_of_ne_nan numbers.1 numbers.2]
    constructor
    · exact known_ofOrdering _
    · exact iff_of_false (ofOrdering_ne_unordered _) isNan
    · rw [ofOrdering_eq_less_iff, compare_lt_iff_lt, and_iff_right numbers]
    · rw [ofOrdering_eq_greater_iff, compare_gt_iff_gt, and_iff_right numbers]
    · rw [ofOrdering_eq_equal_iff, compare_eq_iff_eq, and_iff_right numbers]

/-- Whether a comparison finds the first number below the second or equal to it. -/
def AtMost (a b : Doubleword) : Prop :=
  compareCode a b = less ∨ compareCode a b = equal

theorem atMost_iff {a b : Doubleword} : AtMost a b ↔
    (Double.value a ≠ .nan ∧ Double.value b ≠ .nan) ∧ (Double.value a).toEReal ≤ (Double.value b).toEReal := by
  rw [AtMost, (compareCode_tells a b).less_iff, (compareCode_tells a b).equal_iff, ← and_or_left, le_iff_lt_or_eq]

theorem AtMost.trans {a b c : Doubleword} (first : AtMost a b) (second : AtMost b c) : AtMost a c := by
  rw [atMost_iff] at *
  exact ⟨⟨first.1.1, second.1.2⟩, first.2.trans second.2⟩

theorem compareCode_swap (a b : Doubleword) :
    (compareCode b a = less ↔ compareCode a b = greater) ∧
      (compareCode b a = greater ↔ compareCode a b = less) ∧
      (compareCode b a = equal ↔ compareCode a b = equal) ∧
      (compareCode b a = unordered ↔ compareCode a b = unordered) := by
  have tells := compareCode_tells a b
  have swapped := compareCode_tells b a
  refine ⟨?_, ?_, ?_, ?_⟩
  · rw [swapped.less_iff, tells.greater_iff, and_comm (a := Double.value b ≠ .nan)]
  · rw [swapped.greater_iff, tells.less_iff, and_comm (a := Double.value b ≠ .nan)]
  · rw [swapped.equal_iff, tells.equal_iff, and_comm (a := Double.value b ≠ .nan), eq_comm]
  · rw [swapped.unordered_iff, tells.unordered_iff, or_comm]

theorem value_of_zero {zero : Doubleword} (isZero : zero ∈ [0, Double.signBit]) :
    Double.value zero ≠ .nan ∧ (Double.value zero).toEReal = 0 := by
  have finite : ∃ negative exponent, Double.value zero = .finite negative 0 exponent := by
    simp only [List.mem_cons, List.not_mem_nil, or_false] at isZero
    rcases isZero with rfl | rfl
    · exact ⟨false, -1074, by decide⟩
    · exact ⟨true, -1074, by decide⟩
  obtain ⟨negative, exponent, same⟩ := finite
  rw [same, Number.toEReal_of_isFinite rfl]
  cases negative <;> simp [Number.toReal]

/-- The select takes its third source exactly when a comparison of the first with zero says
that it is greater or equal. -/
theorem Arithmetic.result_select (mode : RoundingMode) (sources : Sources) {zero : Doubleword}
    (isZero : zero ∈ [0, Double.signBit]) :
    Arithmetic.select.result mode sources =
      if compareCode sources.a zero = greater ∨ compareCode sources.a zero = equal then sources.c
      else sources.b := by
  obtain ⟨isNumberZero, isZeroValue⟩ := value_of_zero isZero
  have swap := compareCode_swap sources.a zero
  have chosen : compareCode sources.a zero = greater ∨ compareCode sources.a zero = equal ↔
      ¬ ((Double.value sources.a).isNan || (Double.value sources.a).isNegative) = true := by
    rw [← swap.1, ← swap.2.2.1, ← AtMost, atMost_iff, isZeroValue, Bool.or_eq_true, Number.isNan_iff,
      Number.isNegative_iff]
    simp [isNumberZero]
  by_cases passes : ((Double.value sources.a).isNan || (Double.value sources.a).isNegative) = true
  · rw [if_neg (chosen.not.mpr (not_not.mpr passes))]
    exact if_pos passes
  · rw [if_pos (chosen.mpr passes)]
    exact if_neg passes

end PowerFpu
