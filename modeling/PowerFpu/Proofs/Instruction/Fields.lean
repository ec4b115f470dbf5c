import PowerFpu.Instruction

/-! Runs of bits in a word.

A value is put into a run by a shift and read from it by an extraction; a mask of the run
is what both of them touch. -/

set_option autoImplicit false

namespace PowerFpu

namespace Word

def span (start width : Nat) : Word :=
  (BitVec.allOnes width).setWidth 32 <<< start

def place {width : Nat} (start : Nat) (value : BitVec width) : Word :=
  value.setWidth 32 <<< start

section Span
variable {start width i : Nat} (value : BitVec width) (word : Word)

theorem getLsbD_span (bound : i < 32) :
    (span start width).getLsbD i = (decide (start ≤ i) && decide (i - start < width)) := by
  simp only [span, BitVec.getLsbD_shiftLeft, BitVec.getLsbD_setWidth, BitVec.getLsbD_allOnes, bound,
    Nat.lt_of_le_of_lt (Nat.sub_le i start) bound, decide_true, Bool.true_and, ← decide_not, Nat.not_lt]

theorem getLsbD_place (bound : i < 32) :
    (place start value).getLsbD i = (decide (start ≤ i) && value.getLsbD (i - start)) := by
  simp only [place, BitVec.getLsbD_shiftLeft, BitVec.getLsbD_setWidth, bound,
    Nat.lt_of_le_of_lt (Nat.sub_le i start) bound, decide_true, Bool.true_and, ← decide_not, Nat.not_lt]

theorem place_and_span : place start value &&& span start width = place start value := by
  apply BitVec.eq_of_getLsbD_eq
  intro i bound
  rw [BitVec.getLsbD_and, getLsbD_place value bound, getLsbD_span bound]
  by_cases inside : i - start < width
  · cases decide (start ≤ i) <;> simp [inside]
  · simp [BitVec.getLsbD_of_ge value _ (Nat.le_of_not_lt inside)]

theorem extractLsb'_place (fits : start + width ≤ 32) : (place start value).extractLsb' start width = value := by
  apply BitVec.eq_of_getLsbD_eq
  intro i inside
  rw [BitVec.getLsbD_extractLsb', getLsbD_place value (by omega)]
  simp [inside]

theorem extractLsb'_and_span (fits : start + width ≤ 32) :
    (word &&& span start width).extractLsb' start width = word.extractLsb' start width := by
  apply BitVec.eq_of_getLsbD_eq
  intro i inside
  rw [BitVec.getLsbD_extractLsb', BitVec.getLsbD_extractLsb', BitVec.getLsbD_and, getLsbD_span (by omega)]
  simp [inside]

theorem place_extractLsb' :
    place start (word.extractLsb' start width) = word &&& span start width := by
  apply BitVec.eq_of_getLsbD_eq
  intro i bound
  rw [BitVec.getLsbD_and, getLsbD_place _ bound, getLsbD_span bound, BitVec.getLsbD_extractLsb']
  by_cases low : start ≤ i
  · have here : start + (i - start) = i := by omega
    rw [here, Bool.and_comm (decide (i - start < width)), Bool.and_left_comm]
  · simp [low]

theorem place_apart {mask : Word} (apart : span start width &&& mask = 0) : place start value &&& mask = 0 := by
  rw [← place_and_span, BitVec.and_assoc, apart]
  exact BitVec.and_zero

theorem and_span_eq_iff (fits : start + width ≤ 32) :
    word &&& span start width = place start value ↔ word.extractLsb' start width = value := by
  constructor
  · intro same
    rw [← extractLsb'_and_span word fits, same, extractLsb'_place value fits]
  · intro same
    rw [← place_extractLsb', same]

end Span

end Word

/-! Where the operands of an instruction stand in its word.

A field is a run of bits. Fields that do not overlap can be put side by side in a
word, and each of them is read back as it was put there. -/

/-- The operand fields. Each instruction form has some of them, and they overlap. -/
inductive OperandField where
  | rd
  | ra
  | rb
  | rc
  | crfd
  | crfs
  | fm
  | imm
  | d
  | record
  deriving DecidableEq, Repr

namespace OperandField

def start : OperandField → Nat
  | .rd => 21
  | .ra => 16
  | .rb => 11
  | .rc => 6
  | .crfd => 23
  | .crfs => 18
  | .fm => 17
  | .imm => 12
  | .d | .record => 0

def width : OperandField → Nat
  | .rd | .ra | .rb | .rc => 5
  | .crfd | .crfs => 3
  | .fm => 8
  | .imm => 4
  | .d => 16
  | .record => 1

def span (field : OperandField) : Word :=
  Word.span field.start field.width

theorem fits (field : OperandField) : field.start + field.width ≤ 32 := by
  cases field <;> decide

end OperandField

namespace Operands

/-- What a field holds. The displacement stands in the word without its sign extension. -/
def value (operands : Operands) : (field : OperandField) → BitVec field.width
  | .rd => operands.rd
  | .ra => operands.ra
  | .rb => operands.rb
  | .rc => operands.rc
  | .crfd => operands.crfd
  | .crfs => operands.crfs
  | .fm => operands.fm
  | .imm => operands.imm
  | .d => operands.d.setWidth 16
  | .record => BitVec.ofBool operands.record

def SameIn (field : OperandField) (operands other : Operands) : Prop :=
  match field with
  | .rd => operands.rd = other.rd
  | .ra => operands.ra = other.ra
  | .rb => operands.rb = other.rb
  | .rc => operands.rc = other.rc
  | .crfd => operands.crfd = other.crfd
  | .crfs => operands.crfs = other.crfs
  | .fm => operands.fm = other.fm
  | .imm => operands.imm = other.imm
  | .d => operands.d = other.d
  | .record => operands.record = other.record

/-- Whether the displacement is one of sixteen bits; the other operands cannot be too large. -/
def Displaces (operands : Operands) : Prop :=
  -32768 ≤ operands.d.toInt ∧ operands.d.toInt ≤ 32767

instance (operands : Operands) : Decidable operands.Displaces :=
  inferInstanceAs (Decidable (_ ∧ _))

/-- The numbers that the operands may be. Types see to it for all but the displacement. -/
structure InRange (operands : Operands) : Prop where
  registers : operands.rd.toNat < 32 ∧ operands.ra.toNat < 32 ∧ operands.rb.toNat < 32 ∧ operands.rc.toNat < 32
  crfd : operands.crfd.toNat < 8
  crfs : operands.crfs.toNat < 8
  fm : operands.fm.toNat < 256
  imm : operands.imm.toNat < 16
  displaces : operands.Displaces

def word (operands : Operands) (fields : List OperandField) : Word :=
  fields.foldr (fun field bits => Word.place field.start (operands.value field) ||| bits) 0

theorem signExtend_setWidth {operands : Operands} (displaces : operands.Displaces) :
    (operands.d.setWidth 16).signExtend 32 = operands.d := by
  obtain ⟨low, high⟩ := displaces
  apply BitVec.eq_of_toInt_eq
  have wraps : (operands.d.toNat : Int).bmod (2 ^ 16) = operands.d.toInt.bmod (2 ^ 16) := by
    rw [BitVec.toInt_eq_toNat_bmod, Int.bmod_bmod_of_dvd (by decide)]
  rw [BitVec.toInt_signExtend_of_le (by decide), BitVec.toInt_setWidth, wraps]
  exact Int.bmod_eq_of_le_mul_two (by omega) (by omega)

theorem decode_displaces (inst : Word) : (decode inst).Displaces := by
  have same : (decode inst).d.toInt = (inst.extractLsb' 0 16).toInt := BitVec.toInt_signExtend_of_le (by decide)
  have low := (inst.extractLsb' 0 16).le_toInt
  have high := (inst.extractLsb' 0 16).toInt_lt
  exact ⟨by omega, by omega⟩

theorem decode_inRange (inst : Word) : (decode inst).InRange where
  registers := ⟨BitVec.isLt _, BitVec.isLt _, BitVec.isLt _, BitVec.isLt _⟩
  crfd := BitVec.isLt _
  crfs := BitVec.isLt _
  fm := BitVec.isLt _
  imm := BitVec.isLt _
  displaces := decode_displaces inst

theorem value_decode (inst : Word) (field : OperandField) :
    (decode inst).value field = inst.extractLsb' field.start field.width := by
  cases field with
  | d =>
    -- The sign goes to the bits that are cut off again.
    apply BitVec.eq_of_getLsbD_eq
    intro i inside
    have low : i < 16 := inside
    have bound : i < 32 := by omega
    simp only [value, decode, OperandField.start, OperandField.width, BitVec.getLsbD_setWidth,
      BitVec.getLsbD_signExtend, low, bound, if_true, decide_true, Bool.true_and]
  | record =>
    apply BitVec.eq_of_getLsbD_eq
    intro i inside
    have first : i = 0 := Nat.lt_one_iff.mp inside
    simp [value, decode, OperandField.start, OperandField.width, first]
  | rd | ra | rb | rc | crfd | crfs | fm | imm => rfl

theorem sameIn_of_value {field : OperandField} {operands other : Operands}
    (same : operands.value field = other.value field)
    (displaces : field = .d → operands.Displaces ∧ other.Displaces) : SameIn field operands other := by
  cases field with
  | d =>
    obtain ⟨first, second⟩ := displaces rfl
    rw [SameIn, ← signExtend_setWidth first, ← signExtend_setWidth second]
    exact congrArg (BitVec.signExtend 32) same
  | record => exact BitVec.ofBool_eq_iff_eq.mp same
  | rd | ra | rb | rc | crfd | crfs | fm | imm => exact same

section Word
variable (operands : Operands) {fields : List OperandField}

theorem word_apart {mask : Word} (apart : ∀ field ∈ fields, field.span &&& mask = 0) :
    operands.word fields &&& mask = 0 := by
  induction fields with
  | nil => exact BitVec.zero_and
  | cons field rest ih =>
    obtain ⟨first, others⟩ := List.forall_mem_cons.mp apart
    rw [word, List.foldr_cons, BitVec.and_or_distrib_right, Word.place_apart _ first]
    exact (BitVec.zero_or).trans (ih others)

theorem word_and_span (apart : fields.Pairwise fun field other => field.span &&& other.span = 0)
    {field : OperandField} (member : field ∈ fields) :
    operands.word fields &&& field.span = Word.place field.start (operands.value field) := by
  induction fields with
  | nil => cases member
  | cons head rest ih =>
    obtain ⟨first, others⟩ := List.pairwise_cons.mp apart
    rw [word, List.foldr_cons, BitVec.and_or_distrib_right]
    rcases List.mem_cons.mp member with same | later
    · subst same
      have none : operands.word rest &&& field.span = 0 :=
        operands.word_apart fun other isLater => (BitVec.and_comm _ _).trans (first other isLater)
      rw [OperandField.span, Word.place_and_span]
      exact (congrArg (_ ||| ·) none).trans BitVec.or_zero
    · rw [Word.place_apart _ (first field later)]
      exact (BitVec.zero_or).trans (ih others later)

end Word

end Operands

end PowerFpu
