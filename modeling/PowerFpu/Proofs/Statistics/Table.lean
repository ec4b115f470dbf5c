import PowerFpu.Statistics

/-! Reading a printed report back.

A report is read line by line and a line word by word. A line of the instruction mix has a name,
a counter and a percentage in brackets, and no other line looks like that. -/

set_option autoImplicit false

namespace PowerFpu.Table

def lines (text : String) : List (List Char) :=
  text.toList.splitOn '\n'

def words (line : List Char) : List (List Char) :=
  (line.splitOn ' ').filter (!·.isEmpty)

def natural? (text : List Char) : Option Nat :=
  if !text.isEmpty && text.all Char.isDigit then some (Nat.ofDigitChars 10 text 0) else none

/-- The hundredths of a decimal with exactly two digits after the point. -/
def hundredths? (text : List Char) : Option Nat :=
  match text.splitOn '.' with
  | [whole, [tenths, hundredths]] => do
    let units ← natural? whole
    let places ← natural? [tenths, hundredths]
    return 100 * units + places
  | _ => none

def percentage? : List Char → Option (List Char)
  | '(' :: rest =>
    match rest.splitOn '%' with
    | [text, [')']] => some text
    | _ => none
  | _ => none

structure Row where
  name : String
  count : Nat
  percentage : List Char
  deriving DecidableEq, Repr

def Row.read? (line : List Char) : Option Row :=
  match words line with
  | [name, digits, bracketed] => do
    let count ← natural? digits
    let percentage ← percentage? bracketed
    return ⟨String.ofList name, count, percentage⟩
  | _ => none

def rows (report : String) : List Row :=
  (lines report).filterMap Row.read?

/-! Digits. -/

section Digits
variable {text : List Char} (digits : ∀ c ∈ text, c.isDigit = true)
include digits

theorem not_mem_of_digits {c : Char} (other : c.isDigit = false) : c ∉ text := by
  intro mem
  rw [digits c mem] at other
  cases other

theorem natural?_of_digits (nonempty : text ≠ []) : natural? text = some (Nat.ofDigitChars 10 text 0) := by
  have isNumber : (!text.isEmpty && text.all Char.isDigit) = true := by
    rw [Bool.and_eq_true, List.all_eq_true]
    exact ⟨by simpa using nonempty, digits⟩
  rw [natural?, if_pos isNumber]

end Digits

theorem toDigits_digits (n : Nat) : ∀ c ∈ Nat.toDigits 10 n, c.isDigit = true :=
  fun _ mem => Nat.isDigit_of_mem_toDigits (by decide) (by decide) mem

theorem natural?_toDigits (n : Nat) : natural? (Nat.toDigits 10 n) = some n := by
  rw [natural?_of_digits (toDigits_digits n) Nat.toDigits_ne_nil, Nat.ofDigitChars_ten_toDigits]

theorem toList_toString (n : Nat) : (toString n).toList = Nat.toDigits 10 n := by
  rw [Nat.toString_eq_ofList_toDigits, String.toList_ofList]

theorem toList_hundredthsText (n : Nat) :
    (hundredthsText n).toList =
      Nat.toDigits 10 (n / 100) ++ '.' :: [(n % 100 / 10).digitChar, (n % 10).digitChar] := by
  have last : n % 100 % 10 = n % 10 := by omega
  have places : (if n % 100 < 10 then "0" ++ toString (n % 100) else toString (n % 100)).toList =
      [(n % 100 / 10).digitChar, (n % 10).digitChar] := by
    split
    next small =>
      rw [String.toList_append, toList_toString, Nat.toDigits_of_lt_base small, Nat.div_eq_of_lt small, ← last,
        Nat.mod_eq_of_lt small]
      rfl
    next large =>
      rw [toList_toString, Nat.toDigits_of_base_le (by decide) (by omega),
        Nat.toDigits_of_lt_base (show n % 100 / 10 < 10 by omega), last]
      rfl
  rw [hundredthsText, String.toList_append, String.toList_append, toList_toString, places, List.append_assoc]
  rfl

section Hundredths
variable (n : Nat)

theorem places_digits : ∀ c ∈ [(n % 100 / 10).digitChar, (n % 10).digitChar], c.isDigit = true := by
  have tens : n % 100 / 10 < 10 := by omega
  have ones : n % 10 < 10 := by omega
  simp [Nat.isDigit_digitChar, tens, ones]

theorem hundredths?_hundredthsText : hundredths? (hundredthsText n).toList = some n := by
  have parts : (hundredthsText n).toList.splitOn '.' =
      [Nat.toDigits 10 (n / 100), [(n % 100 / 10).digitChar, (n % 10).digitChar]] := by
    rw [toList_hundredthsText, List.splitOn_append_cons_self_of_not_mem
      (not_mem_of_digits (toDigits_digits _) (by decide)),
      List.splitOn_eq_singleton (not_mem_of_digits (places_digits n) (by decide))]
  have places : natural? [(n % 100 / 10).digitChar, (n % 10).digitChar] = some (n % 100) := by
    rw [natural?_of_digits (places_digits n) (List.cons_ne_nil _ _),
      Nat.ofDigitChars_cons_digitChar_of_lt_ten (by omega), Nat.ofDigitChars_cons_digitChar_of_lt_ten (by omega),
      Nat.ofDigitChars_nil]
    congr 1
    omega
  simp only [hundredths?, parts, natural?_toDigits, places, Option.bind_eq_bind, Option.bind_some, Option.pure_def]
  rw [Nat.div_add_mod]

/-- A decimal has no blanks, brackets or percent signs. -/
theorem not_mem_hundredthsText {c : Char} (noDigit : c.isDigit = false) (noPoint : c ≠ '.') :
    c ∉ (hundredthsText n).toList := by
  rw [toList_hundredthsText, List.mem_append, List.mem_cons, not_or, not_or]
  exact ⟨not_mem_of_digits (toDigits_digits _) noDigit, noPoint, not_mem_of_digits (places_digits n) noDigit⟩

theorem percentage?_bracketed :
    percentage? ('(' :: ((hundredthsText n).toList ++ ['%', ')'])) = some (hundredthsText n).toList := by
  have noPercent : '%' ∉ (hundredthsText n).toList := not_mem_hundredthsText n (by decide) (by decide)
  simp only [percentage?]
  rw [List.splitOn_append_cons_self_of_not_mem noPercent]
  rfl

end Hundredths

/-! Words and lines. -/

theorem words_append (first second : List Char) : words (first ++ ' ' :: second) = words first ++ words second := by
  rw [words, List.splitOn_append_cons_self, List.filter_append]
  rfl

theorem words_of_not_mem {word : List Char} (nonempty : word ≠ []) (whole : ' ' ∉ word) : words word = [word] := by
  rw [words, List.splitOn_eq_singleton whole]
  simp [nonempty]

theorem words_toDigits (n : Nat) : words (Nat.toDigits 10 n) = [Nat.toDigits 10 n] :=
  words_of_not_mem Nat.toDigits_ne_nil (not_mem_of_digits (toDigits_digits n) (by decide))

theorem words_bracketed (n : Nat) :
    words ('(' :: ((hundredthsText n).toList ++ ['%', ')'])) = ['(' :: ((hundredthsText n).toList ++ ['%', ')'])] := by
  apply words_of_not_mem (List.cons_ne_nil _ _)
  simp [not_mem_hundredthsText]

variable (statistics : Statistics) (mode : RoundingMode)

def classRow (name : String) (opClass : OperationClass) : Row where
  name := name
  count := (statistics.count opClass).toNat
  percentage :=
    (Statistics.percentageText mode (statistics.count opClass).toNat statistics.total.toNat).toList

section ClassLine
variable (name : String) (opClass : OperationClass)

theorem classRow_percentage :
    (classRow statistics mode name opClass).percentage =
      (hundredthsText (Double.value
        (Statistics.percentage mode (statistics.count opClass).toNat statistics.total.toNat)).hundredths).toList := rfl

theorem toList_classLine :
    (statistics.classLine mode name opClass).toList =
      ("  " ++ padRight name 22).toList ++ ' ' :: (Nat.toDigits 10 (statistics.count opClass).toNat ++
        ' ' :: '(' :: ((classRow statistics mode name opClass).percentage ++ ['%', ')'])) := by
  simp [Statistics.classLine, classRow]

theorem read?_classLine (named : words ("  " ++ padRight name 22).toList = [name.toList]) :
    Row.read? (statistics.classLine mode name opClass).toList = some (classRow statistics mode name opClass) := by
  have parts : words (statistics.classLine mode name opClass).toList =
      [name.toList, Nat.toDigits 10 (statistics.count opClass).toNat,
        '(' :: ((classRow statistics mode name opClass).percentage ++ ['%', ')'])] := by
    rw [toList_classLine, words_append, words_append, named, words_toDigits, classRow_percentage, words_bracketed]
    rfl
  have percentage : percentage? ('(' :: ((classRow statistics mode name opClass).percentage ++ ['%', ')'])) =
      some (classRow statistics mode name opClass).percentage := by
    rw [classRow_percentage, percentage?_bracketed]
  simp only [Row.read?, parts, natural?_toDigits, percentage, Option.bind_eq_bind, Option.bind_some, Option.pure_def,
    String.ofList_toList]
  rfl

theorem newline_not_mem_classLine (label : '\n' ∉ ("  " ++ padRight name 22).toList) :
    '\n' ∉ (statistics.classLine mode name opClass).toList := by
  have noDigits : '\n' ∉ Nat.toDigits 10 (statistics.count opClass).toNat :=
    not_mem_of_digits (toDigits_digits _) (by decide)
  have noPercentage : '\n' ∉ (classRow statistics mode name opClass).percentage := by
    rw [classRow_percentage]
    exact not_mem_hundredthsText _ (by decide) (by decide)
  rw [toList_classLine]
  simp only [List.mem_append, List.mem_cons, not_or]
  exact ⟨label, by decide, noDigits, by decide, by decide, noPercentage, by decide⟩

end ClassLine

/-- A name and a counter alone are no row. -/
theorem read?_counterLine (label : List Char) (spaced : label.getLast? = some ' ') (named : (words label).length = 1)
    (n : Nat) : Row.read? (label ++ Nat.toDigits 10 n) = none := by
  -- The last blank of the label divides it from the digits.
  obtain ⟨stem, rfl⟩ := List.getLast?_eq_some_iff.mp spaced
  have parts : words (stem ++ [' '] ++ Nat.toDigits 10 n) = words (stem ++ [' ']) ++ [Nat.toDigits 10 n] := by
    rw [words_append, List.append_assoc, List.singleton_append, words_append, words_toDigits]
    simp [words]
  obtain ⟨word, isWord⟩ := List.length_eq_one_iff.mp named
  rw [isWord] at parts
  simp only [Row.read?, parts, List.singleton_append]

theorem newline_not_mem_counterLine {label : List Char} (noNewline : '\n' ∉ label) (n : Nat) :
    '\n' ∉ label ++ Nat.toDigits 10 n := by
  rw [List.mem_append, not_or]
  exact ⟨noNewline, not_mem_of_digits (toDigits_digits n) (by decide)⟩

def reportLines : List (List Char) :=
  [List.replicate 58 '=',
    "POWERPC FPU STATISTICS".toList,
    List.replicate 58 '=',
    "fp_insts                 ".toList ++ Nat.toDigits 10 statistics.total.toNat,
    List.replicate 58 '-',
    "INSTRUCTION MIX".toList,
    (statistics.classLine mode "op.arith" .arithmetic).toList,
    (statistics.classLine mode "op.convert" .conversion).toList,
    (statistics.classLine mode "op.compare" .compare).toList,
    (statistics.classLine mode "op.control" .control).toList,
    (statistics.classLine mode "op.memory" .memory).toList,
    List.replicate 58 '-',
    "EXCEPTIONS".toList,
    "  record_forms           ".toList ++ Nat.toDigits 10 statistics.recordForms.toNat,
    "  fp_traps               ".toList ++ Nat.toDigits 10 statistics.traps.toNat,
    "  illegal                ".toList ++ Nat.toDigits 10 statistics.illegal.toNat,
    List.replicate 58 '=']

theorem newline_not_mem_reportLines : ∀ line ∈ reportLines statistics mode, '\n' ∉ line := by
  have classLine {name : String} (label : '\n' ∉ ("  " ++ padRight name 22).toList) (opClass : OperationClass) :
      '\n' ∉ (statistics.classLine mode name opClass).toList :=
    newline_not_mem_classLine statistics mode name opClass label
  -- Titles and labels are fixed texts; the counters add digits only.
  simp only [reportLines, List.forall_mem_cons]
  exact ⟨by decide, by decide, by decide, newline_not_mem_counterLine (by decide) _, by decide, by decide,
    classLine (by decide) _, classLine (by decide) _, classLine (by decide) _, classLine (by decide) _,
    classLine (by decide) _, by decide, by decide, newline_not_mem_counterLine (by decide) _,
    newline_not_mem_counterLine (by decide) _, newline_not_mem_counterLine (by decide) _, by decide,
    fun _ mem => absurd mem List.not_mem_nil⟩

theorem lines_report : lines (statistics.report mode) = reportLines statistics mode := by
  have newline : "\n".toList = ['\n'] := rfl
  have joined : (statistics.report mode).toList = ['\n'].intercalate (reportLines statistics mode) := by
    simp only [Statistics.report, reportLines, String.toList_intercalate, newline, List.map_cons, List.map_nil,
      String.toList_append, String.toList_ofList, toList_toString]
  rw [lines, joined, List.splitOn_intercalate _ (newline_not_mem_reportLines statistics mode) (List.cons_ne_nil _ _)]

theorem rows_report :
    rows (statistics.report mode) =
      [classRow statistics mode "op.arith" .arithmetic, classRow statistics mode "op.convert" .conversion,
        classRow statistics mode "op.compare" .compare, classRow statistics mode "op.control" .control,
        classRow statistics mode "op.memory" .memory] := by
  -- A rule is one word, and a title has no number in the second place.
  have rule : Row.read? (List.replicate 58 '=') = none := by decide
  have thin : Row.read? (List.replicate 58 '-') = none := by decide
  have title : Row.read? "POWERPC FPU STATISTICS".toList = none := by decide
  have mix : Row.read? "INSTRUCTION MIX".toList = none := by decide
  have exceptions : Row.read? "EXCEPTIONS".toList = none := by decide
  have total := read?_counterLine "fp_insts                 ".toList (by decide) (by decide) statistics.total.toNat
  have recordForms :=
    read?_counterLine "  record_forms           ".toList (by decide) (by decide) statistics.recordForms.toNat
  have traps := read?_counterLine "  fp_traps               ".toList (by decide) (by decide) statistics.traps.toNat
  have illegal := read?_counterLine "  illegal                ".toList (by decide) (by decide) statistics.illegal.toNat
  -- A name padded with blanks is still one word.
  have arithmetic := read?_classLine statistics mode "op.arith" .arithmetic (by decide)
  have conversion := read?_classLine statistics mode "op.convert" .conversion (by decide)
  have compare := read?_classLine statistics mode "op.compare" .compare (by decide)
  have control := read?_classLine statistics mode "op.control" .control (by decide)
  have memory := read?_classLine statistics mode "op.memory" .memory (by decide)
  simp only [rows, lines_report, reportLines, List.filterMap_cons, List.filterMap_nil, rule, thin, title, mix, exceptions,
    total, recordForms, traps, illegal, arithmetic, conversion, compare, control, memory]

end PowerFpu.Table
