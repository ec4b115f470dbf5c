import PowerFpu.Proofs.Statistics.Percentage
import PowerFpu.Proofs.Statistics.Table

/-! The percentages of a report, as they are read back from its text. -/

set_option autoImplicit false

namespace PowerFpu

/-! The hundredths that are printed of a number are the closest ones, and of two equally close
ones the even ones. So printing keeps the order. -/

/-- No natural number is closer, and of two closest ones this is the even one. -/
structure IsClosestNat (x : ℝ) (n : Nat) : Prop where
  close : 2 * |n - x| ≤ 1
  even : 2 * |n - x| = 1 → n % 2 = 0

namespace IsClosestNat

section Order
variable {x y : ℝ} {m n : Nat}

/-- Two results in the wrong order would both be half off, and both even. -/
theorem mono (closest : IsClosestNat x m) (closestUpper : IsClosestNat y n) (ordered : x ≤ y) : m ≤ n := by
  by_contra! greater
  -- Half a unit on either side leaves room for one step, and only if both are ties.
  have next : (n : ℝ) + 1 ≤ m := by exact_mod_cast greater
  have above := (le_abs_self (m - x)).trans (show |m - x| ≤ 1 / 2 by linarith [closest.close])
  have below := (neg_abs_le (n - y)).trans' (show -(1 / 2) ≤ -|n - y| by linarith [closestUpper.close])
  have few : (m : ℝ) ≤ n + 1 := by linarith
  have isNext : m = n + 1 := le_antisymm (by exact_mod_cast few) greater
  have isEven : m % 2 = 0 := closest.even (by rw [abs_of_nonneg (by linarith)]; linarith)
  have isEvenUpper : n % 2 = 0 := closestUpper.even (by rw [abs_of_nonpos (by linarith)]; linarith)
  omega

theorem natCast (n : Nat) : IsClosestNat n n := by
  constructor
  · norm_num
  · norm_num

theorem le_of_le (closest : IsClosestNat x m) (below : x ≤ n) : m ≤ n :=
  closest.mono (natCast n) below

end Order

section Quotient
variable {n unit m : Nat} (positive : 0 < unit)
include positive

theorem of_multiple (above : 2 * n ≤ 2 * (m * unit) + unit) (below : 2 * (m * unit) ≤ 2 * n + unit)
    (even : 2 * n = 2 * (m * unit) + unit ∨ 2 * (m * unit) = 2 * n + unit → m % 2 = 0) :
    IsClosestNat (n / unit) m := by
  have positiveUnit : (0 : ℝ) < unit := Nat.cast_pos.mpr positive
  have scaled : 2 * |(m : ℝ) - n / unit| = |2 * ((m : ℝ) * unit) - 2 * n| / unit := by
    rw [← abs_of_pos positiveUnit, ← abs_div, ← abs_two, ← abs_mul, abs_two, abs_of_pos positiveUnit]
    congr 1
    field_simp
  rify at above below
  constructor
  · rw [scaled, div_le_one positiveUnit]
    exact abs_le.mpr ⟨by linarith, by linarith⟩
  · rw [scaled, div_eq_one_iff_eq positiveUnit.ne']
    intro tie
    apply even
    rcases abs_eq_abs.mp (tie.trans (abs_of_pos positiveUnit).symm) with same | opposite
    · right
      rify
      linarith
    · left
      rify
      linarith

theorem quotient :
    IsClosestNat (n / unit)
      (if 2 * (n % unit) < unit then n / unit
        else if 2 * (n % unit) = unit then n / unit + n / unit % 2
        else n / unit + 1) := by
  have whole := Nat.div_add_mod' n unit
  have rest := Nat.mod_lt n positive
  generalize n / unit = kept at *
  generalize n % unit = left at *
  have next : (kept + 1) * unit = kept * unit + unit := Nat.succ_mul kept unit
  split
  next belowHalf => exact of_multiple positive (by omega) (by omega) (by omega)
  next =>
    split
    next half =>
      rcases Nat.mod_two_eq_zero_or_one kept with isEven | isOdd
      · rw [isEven, Nat.add_zero]
        exact of_multiple positive (by omega) (by omega) fun _ => isEven
      -- An odd number below gives way to the even one above.
      · rw [isOdd]
        exact of_multiple positive (by omega) (by omega) (by omega)
    next aboveHalf => exact of_multiple positive (by omega) (by omega) (by omega)

end Quotient

end IsClosestNat

theorem Number.hundredths_closest {x : Number} (isFinite : x.isFinite = true) (unsigned : x.negative = false) :
    IsClosestNat (100 * x.toReal) x.hundredths := by
  cases x with
  | nan | infinity negative => cases isFinite
  | finite negative significand exponent =>
    cases negative with
    | true => cases unsigned
    | false =>
      simp only [hundredths]
      split
      next nonneg =>
        obtain ⟨shift, rfl⟩ := Int.eq_ofNat_of_zero_le nonneg
        have value : (100 : ℝ) * (finite false significand shift).toReal = ((significand * 100) <<< shift : Nat) := by
          rw [Nat.shiftLeft_eq]
          push_cast
          rw [toReal, dyadic, zpow_natCast]
          ring
        rw [value]
        exact .natCast _
      next below =>
        obtain ⟨shift, isShift⟩ := Int.eq_ofNat_of_zero_le (show 0 ≤ -exponent by omega)
        have value : (100 : ℝ) * (finite false significand exponent).toReal =
            (significand * 100 : Nat) / (1 <<< (-exponent).toNat : Nat) := by
          have exponents : exponent = -shift := by omega
          rw [exponents, neg_neg, Int.toNat_natCast, Nat.one_shiftLeft, toReal, dyadic, zpow_neg, zpow_natCast]
          push_cast
          ring
        rw [value]
        exact .quotient (by rw [Nat.one_shiftLeft]; positivity)

namespace Statistics

/-- The completed instructions, counted without a bound. -/
def completions (statistics : Statistics) : Nat :=
  statistics.arithmetic.toNat + statistics.conversion.toNat + statistics.compare.toNat +
    statistics.control.toNat + statistics.memory.toNat

theorem toNat_total (statistics : Statistics) (bounded : statistics.completions < 2 ^ 64) :
    statistics.total.toNat = statistics.completions := by
  unfold completions at bounded
  simp only [total, completions, BitVec.toNat_add]
  omega

theorem toNat_count_le (statistics : Statistics) (opClass : OperationClass) :
    (statistics.count opClass).toNat ≤ statistics.completions := by
  cases opClass <;> simp only [count, completions] <;> omega

/-- What is printed of a share, in hundredths of a percent. -/
def printed (mode : RoundingMode) (count total : Nat) : Nat :=
  (Double.value (percentage mode count total)).hundredths

section Printed
variable (mode : RoundingMode) {total : Nat} (bounded : total < 2 ^ 64)
include bounded

theorem printed_closest {count : Nat} (part : count ≤ total) :
    IsClosestNat (100 * (Double.value (percentage mode count total)).toReal) (printed mode count total) :=
  have within := percentage_within mode bounded part
  Number.hundredths_closest within.between.1 within.rounds.negative_eq

theorem printed_le {count : Nat} (part : count ≤ total) : printed mode count total ≤ 10000 := by
  apply (printed_closest mode bounded part).le_of_le
  have below := (percentage_within mode bounded part).between.2.2
  push_cast
  linarith

theorem printed_mono {first second : Nat} (ordered : first ≤ second) (part : second ≤ total) :
    printed mode first total ≤ printed mode second total :=
  (printed_closest mode bounded (ordered.trans part)).mono (printed_closest mode bounded part)
    (mul_le_mul_of_nonneg_left (percentage_mono mode bounded ordered part) (by norm_num))

/-- Half a hundredth is lost in printing, and next to nothing before. -/
theorem printed_error {count : Nat} (part : count ≤ total) :
    |(printed mode count total : ℚ) / 100 - 100 * count / (max total 1 : Nat)| < 501 / 100000 := by
  have printing := (printed_closest mode bounded part).close
  have rounding := percentage_error mode bounded part
  have error : |(printed mode count total : ℝ) / 100 - 100 * (count / (max total 1 : Nat))| < 501 / 100000 := by
    -- What the double is does not matter any more, only its two distances.
    generalize (Double.value (percentage mode count total)).toReal = result at *
    generalize (count : ℝ) / (max total 1 : Nat) = quotient at *
    generalize (printed mode count total : ℝ) = shown at *
    have triangle := abs_sub_le (shown / 100) result (100 * quotient)
    have scaled : |shown - 100 * result| = 100 * |shown / 100 - result| := by
      have factored : shown - 100 * result = 100 * (shown / 100 - result) := by ring
      rw [factored, abs_mul, abs_of_pos (by norm_num)]
    linarith
  rw [← mul_div_assoc] at error
  rify
  exact_mod_cast error

end Printed

theorem percentageText_empty (mode : RoundingMode) : percentageText mode 0 0 = "0.00" := by
  cases mode <;> decide +kernel

end Statistics

namespace Table

section Rows
variable (statistics : Statistics) (mode : RoundingMode)

theorem exists_classRow_of_mem {row : Row} (mem : row ∈ rows (statistics.report mode)) :
    ∃ name opClass, row = classRow statistics mode name opClass := by
  rw [rows_report] at mem
  simp only [List.mem_cons, List.not_mem_nil, or_false] at mem
  rcases mem with isRow | isRow | isRow | isRow | isRow
  · exact ⟨_, _, isRow⟩
  · exact ⟨_, _, isRow⟩
  · exact ⟨_, _, isRow⟩
  · exact ⟨_, _, isRow⟩
  · exact ⟨_, _, isRow⟩

theorem hundredths?_classRow (name : String) (opClass : OperationClass) :
    hundredths? (classRow statistics mode name opClass).percentage =
      some (Statistics.printed mode (statistics.count opClass).toNat statistics.total.toNat) :=
  hundredths?_hundredthsText _

end Rows

/-- The percentages that are read back from a report, in whatever mode it was printed. There is
one for each class. It is a decimal with two places from 0.00 to 100.00 that is off by half a
hundredth and next to nothing more, the percentages have the order of the counters, and
without any instruction all are 0.00. -/
theorem percentages_sound (statistics : Statistics) (mode : RoundingMode) (bounded : statistics.completions < 2 ^ 64) :
    let table := rows (statistics.report mode)
    table.map (fun row => (row.name, row.count)) =
        [("op.arith", statistics.arithmetic.toNat), ("op.convert", statistics.conversion.toNat),
          ("op.compare", statistics.compare.toNat), ("op.control", statistics.control.toNat),
          ("op.memory", statistics.memory.toNat)] ∧
      (∀ row ∈ table, ∃ printed, hundredths? row.percentage = some printed ∧ printed ≤ 10000 ∧
        |(printed : ℚ) / 100 - 100 * row.count / (max statistics.completions 1 : Nat)| < 501 / 100000) ∧
      (∀ first ∈ table, ∀ second ∈ table, first.count ≤ second.count →
        ∀ printed printedSecond, hundredths? first.percentage = some printed →
          hundredths? second.percentage = some printedSecond → printed ≤ printedSecond) ∧
      (statistics.completions = 0 → ∀ row ∈ table, row.percentage = "0.00".toList) := by
  intro table
  have total := statistics.toNat_total bounded
  have totalBounded : statistics.total.toNat < 2 ^ 64 := statistics.total.isLt
  have part (opClass : OperationClass) : (statistics.count opClass).toNat ≤ statistics.total.toNat := by
    rw [total]
    exact statistics.toNat_count_le opClass
  rw [← total]
  refine ⟨?_, ?_, ?_, ?_⟩
  · exact congrArg (List.map fun row : Row => (row.name, row.count)) (rows_report statistics mode)
  · intro row mem
    obtain ⟨name, opClass, rfl⟩ := exists_classRow_of_mem statistics mode mem
    exact ⟨_, hundredths?_classRow statistics mode name opClass, Statistics.printed_le mode totalBounded (part opClass),
      Statistics.printed_error mode totalBounded (part opClass)⟩
  · intro first mem second memSecond ordered printed printedSecond reads readsSecond
    obtain ⟨name, opClass, rfl⟩ := exists_classRow_of_mem statistics mode mem
    obtain ⟨nameSecond, opClassSecond, rfl⟩ := exists_classRow_of_mem statistics mode memSecond
    rw [hundredths?_classRow, Option.some_inj] at reads readsSecond
    rw [← reads, ← readsSecond]
    exact Statistics.printed_mono mode totalBounded ordered (part opClassSecond)
  · intro empty row mem
    obtain ⟨name, opClass, rfl⟩ := exists_classRow_of_mem statistics mode mem
    have noCount : (statistics.count opClass).toNat = 0 := Nat.le_zero.mp (empty ▸ part opClass)
    rw [classRow, noCount, empty, Statistics.percentageText_empty]

/-- An eighth of a percent, which is a tie, counters that are not doubles, and no instruction. -/
theorem percentages_sound_of_tie_and_large_and_empty :
    let tie : Statistics := ⟨1, 799, 0, 0, 0, 0, 0, 0⟩
    let large : Statistics :=
      ⟨0x8000000000000000, 0x4000000000000001, 0x20000000000001, 0, 0x2000000000000000, 9, 4, 2⟩
    let printedLarge := rows (large.report .towardPosInf)
    tie.completions < 2 ^ 64 ∧ large.completions < 2 ^ 64 ∧
      ⟨"op.arith", 1, "0.12".toList⟩ ∈ rows (tie.report .nearest) ∧
      (∃ printed, hundredths? "0.12".toList = some printed ∧ printed ≤ 10000 ∧
        |(printed : ℚ) / 100 - 100 * (1 : Nat) / (800 : Nat)| < 501 / 100000) ∧
      ⟨"op.compare", 2 ^ 53 + 1, "0.06".toList⟩ ∈ printedLarge ∧
      ⟨"op.memory", 2 ^ 61, "14.28".toList⟩ ∈ printedLarge ∧
      (∀ printed printedMemory, hundredths? "0.06".toList = some printed →
        hundredths? "14.28".toList = some printedMemory → printed ≤ printedMemory) ∧
      ∀ row ∈ rows (Statistics.zero.report .towardZero), row.percentage = "0.00".toList := by
  intro tie large printedLarge
  have tieBounded : tie.completions < 2 ^ 64 := by decide
  have largeBounded : large.completions < 2 ^ 64 := by decide +kernel
  obtain ⟨-, sound, -⟩ := percentages_sound tie .nearest tieBounded
  obtain ⟨-, -, mono, -⟩ := percentages_sound large .towardPosInf largeBounded
  obtain ⟨-, -, -, empty⟩ := percentages_sound Statistics.zero .towardZero (by decide)
  have isTie : ⟨"op.arith", 1, "0.12".toList⟩ ∈ rows (tie.report .nearest) := by
    rw [rows_report]
    decide +kernel
  have isCompare : ⟨"op.compare", 2 ^ 53 + 1, "0.06".toList⟩ ∈ printedLarge := by
    rw [show printedLarge = _ from rows_report large .towardPosInf]
    decide +kernel
  have isMemory : ⟨"op.memory", 2 ^ 61, "14.28".toList⟩ ∈ printedLarge := by
    rw [show printedLarge = _ from rows_report large .towardPosInf]
    decide +kernel
  exact ⟨tieBounded, largeBounded, isTie, sound _ isTie, isCompare, isMemory,
    mono _ isCompare _ isMemory (by decide), empty rfl⟩

end Table

end PowerFpu
