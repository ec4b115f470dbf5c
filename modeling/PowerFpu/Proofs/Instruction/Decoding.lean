import PowerFpu.Execution
import PowerFpu.Proofs.Instruction.Fields

/-! What an instruction word encodes.

Decoding looks a word up among opcodes. No two of them fit one word, although they
differ in how many bits they take up, and opcode and operands together fill the word. -/

set_option autoImplicit false

namespace PowerFpu

def ExtendedOpcode.mask : ExtendedOpcode → Word
  | .none => 0
  | .five _ => Word.span 1 5
  | .ten _ => Word.span 1 10

def ExtendedOpcode.bits : ExtendedOpcode → Word
  | .none => 0
  | .five code => Word.place 1 code
  | .ten code => Word.place 1 code

namespace Opcode

def mask (opcode : Opcode) : Word :=
  Word.span 26 6 ||| opcode.extended.mask

def bits (opcode : Opcode) : Word :=
  Word.place 26 opcode.primary ||| opcode.extended.bits

/-- Which primary opcodes have an extended one, and of which length. -/
def WellFormed (opcode : Opcode) : Prop :=
  match opcode.extended with
  | .none => 48 ≤ opcode.primary ∧ opcode.primary ≤ 55
  | .five _ => opcode.primary = 59 ∨ opcode.primary = 63
  | .ten _ => opcode.primary = 31 ∨ opcode.primary = 63

instance (opcode : Opcode) : Decidable opcode.WellFormed := by
  unfold WellFormed
  split <;> infer_instance

section Bits
variable {word mask bits otherMask otherBits : Word}

theorem and_of_and_or (inside : bits &&& mask = bits) (otherInside : otherBits &&& otherMask = otherBits)
    (apart : otherMask &&& mask = 0) (same : word &&& (mask ||| otherMask) = bits ||| otherBits) :
    word &&& mask = bits := by
  have kept : (mask ||| otherMask) &&& mask = mask := by
    rw [BitVec.and_or_distrib_right, BitVec.and_self, apart]
    exact BitVec.or_zero
  have gone : otherBits &&& mask = 0 := by
    rw [← otherInside, BitVec.and_assoc, apart]
    exact BitVec.and_zero
  calc
    word &&& mask = word &&& (mask ||| otherMask) &&& mask := by rw [BitVec.and_assoc, kept]
    _ = bits &&& mask ||| otherBits &&& mask := by rw [same, BitVec.and_or_distrib_right]
    _ = bits := by
      rw [inside, gone]
      exact BitVec.or_zero

/-- A word carries two runs of bits at once when it carries each of them. -/
theorem and_or_eq_iff (inside : bits &&& mask = bits) (otherInside : otherBits &&& otherMask = otherBits)
    (apart : mask &&& otherMask = 0) :
    word &&& (mask ||| otherMask) = bits ||| otherBits ↔
      word &&& mask = bits ∧ word &&& otherMask = otherBits := by
  constructor
  · intro same
    refine ⟨and_of_and_or inside otherInside ((BitVec.and_comm _ _).trans apart) same, ?_⟩
    apply and_of_and_or otherInside inside apart
    rw [BitVec.or_comm, same, BitVec.or_comm]
  · rintro ⟨first, second⟩
    rw [BitVec.and_or_distrib_left, first, second]

end Bits

theorem mask_apart (extended : ExtendedOpcode) : Word.span 26 6 &&& extended.mask = 0 := by
  cases extended with
  | none => decide
  | five code => exact (by decide : Word.span 26 6 &&& Word.span 1 5 = 0)
  | ten code => exact (by decide : Word.span 26 6 &&& Word.span 1 10 = 0)

theorem bits_inside (extended : ExtendedOpcode) : extended.bits &&& extended.mask = extended.bits := by
  cases extended with
  | none => decide
  | five code => exact Word.place_and_span code
  | ten code => exact Word.place_and_span code

theorem bits_and_mask (opcode : Opcode) : opcode.bits &&& opcode.mask = opcode.bits := by
  obtain ⟨primary, extended⟩ := opcode
  have first : extended.bits &&& Word.span 26 6 = 0 := by
    rw [← bits_inside extended, BitVec.and_assoc, BitVec.and_comm extended.mask, mask_apart]
    exact BitVec.and_zero
  rw [bits, mask, and_or_eq_iff (Word.place_and_span primary) (bits_inside extended) (mask_apart extended),
    BitVec.and_or_distrib_right, BitVec.and_or_distrib_right, first, Word.place_and_span, bits_inside,
    Word.place_apart primary (mask_apart extended)]
  exact ⟨BitVec.or_zero, BitVec.zero_or⟩

theorem matchesWord_iff (opcode : Opcode) (word : Word) :
    opcode.matchesWord word = true ↔ word &&& opcode.mask = opcode.bits := by
  obtain ⟨primary, extended⟩ := opcode
  rw [mask, bits, and_or_eq_iff (Word.place_and_span primary) (bits_inside extended) (mask_apart extended)]
  refine Bool.and_eq_true_iff.trans (and_congr ?_ ?_)
  · exact beq_iff_eq.trans (Word.and_span_eq_iff primary word (by decide)).symm
  · cases extended with
    | none => simp [ExtendedOpcode.mask, ExtendedOpcode.bits]
    | five code => exact beq_iff_eq.trans (Word.and_span_eq_iff code word (by decide)).symm
    | ten code => exact beq_iff_eq.trans (Word.and_span_eq_iff code word (by decide)).symm

end Opcode

namespace Operation

theorem wellFormed_opcode (op : Operation) : op.opcode.WellFormed := by
  have all : ∀ op ∈ all, op.opcode.WellFormed := by decide +kernel
  exact all op op.mem_all

theorem eq_of_carries {word : Word} {op other : Operation} (carries : word &&& op.opcode.mask = op.opcode.bits)
    (carriesOther : word &&& other.opcode.mask = other.opcode.bits) : op = other := by
  have distinct : ∀ op ∈ all, ∀ other ∈ all,
      op.opcode.bits &&& other.opcode.mask = other.opcode.bits &&& op.opcode.mask → op = other := by
    decide +kernel
  apply distinct op op.mem_all other other.mem_all
  rw [← carries, ← carriesOther, BitVec.and_assoc, BitVec.and_assoc, BitVec.and_comm op.opcode.mask]

theorem carries_of_decode {word : Word} {op : Operation} (decoded : decode word = some op) :
    word &&& op.opcode.mask = op.opcode.bits := by
  unfold decode at decoded
  have matched := List.find?_some decoded
  exact (op.opcode.matchesWord_iff word).mp matched

theorem primary_of_decode {word : Word} {op : Operation} (decoded : decode word = some op) :
    word.extractLsb' 26 6 = op.opcode.primary := by
  have matched := (op.opcode.matchesWord_iff word).mpr (carries_of_decode decoded)
  exact beq_iff_eq.mp (Bool.and_eq_true_iff.mp matched).1

theorem decode_eq_some_iff (word : Word) (op : Operation) :
    decode word = some op ↔ word &&& op.opcode.mask = op.opcode.bits := by
  constructor
  · exact carries_of_decode
  · intro carries
    cases decoded : decode word with
    | none =>
      have unmatched := List.find?_eq_none.mp decoded op op.mem_all
      exact absurd ((op.opcode.matchesWord_iff word).mpr carries) unmatched
    | some found => rw [eq_of_carries (carries_of_decode decoded) carries]

end Operation

/-- The bits that decide what a word encodes, by its primary opcode. Under 63 the highest bit
of a short extended opcode tells the short ones from the long ones, in which it is never set. -/
def Word.decisiveUnder (primary : BitVec 6) (short : Bool) : Word :=
  Word.span 26 6 |||
    if primary = 31 then Word.span 1 10
    else if primary = 59 then Word.span 1 5
    else if primary = 63 then
      if short then Word.span 1 5 else Word.span 1 10
    else 0

def Word.decisive (word : Word) : Word :=
  Word.decisiveUnder (word.extractLsb' 26 6) (word.getLsbD 5)

namespace Word

variable {word other : Word}

theorem extractLsb'_congr {start width : Nat} (fits : start + width ≤ 32)
    (same : word &&& span start width = other &&& span start width) :
    word.extractLsb' start width = other.extractLsb' start width := by
  rw [← extractLsb'_and_span word fits, same, extractLsb'_and_span other fits]

theorem span_and_decisive (word : Word) : span 26 6 &&& word.decisive = span 26 6 := by
  have absorbs (first second : Word) : first &&& (first ||| second) = first := by
    ext i bound
    rw [BitVec.getElem_and, BitVec.getElem_or]
    cases first[i] <;> rfl
  exact absorbs _ _

theorem decisive_congr (same : word &&& word.decisive = other &&& word.decisive) :
    other.decisive = word.decisive := by
  have primary : other.extractLsb' 26 6 = word.extractLsb' 26 6 := by
    apply extractLsb'_congr (by decide)
    rw [← span_and_decisive word, BitVec.and_comm (span 26 6), ← BitVec.and_assoc, ← BitVec.and_assoc, same]
  rw [decisive, primary]
  by_cases long : word.extractLsb' 26 6 = 63
  · -- Here the bit that tells short from long is among the decisive ones.
    have seen : word.decisive.getLsbD 5 = true := by
      rw [decisive, long]
      cases word.getLsbD 5 <;> decide
    have bit := congrArg (·.getLsbD 5) same
    simp only [BitVec.getLsbD_and, seen, Bool.and_true] at bit
    rw [← bit, ← decisive]
  · simp only [decisive, decisiveUnder, long, if_false]

theorem decisive_of_decode {op : Operation} (decoded : Operation.decode word = some op) :
    word.decisive = op.opcode.mask := by
  have table : ∀ op ∈ Operation.all, ∀ short,
      (op.opcode.mask.getLsbD 5 = true → short = op.opcode.bits.getLsbD 5) →
        decisiveUnder op.opcode.primary short = op.opcode.mask := by
    decide +kernel
  rw [decisive, Operation.primary_of_decode decoded]
  apply table op op.mem_all
  intro seen
  rw [← Operation.carries_of_decode decoded, BitVec.getLsbD_and, seen, Bool.and_true]

end Word

namespace Operation

variable {word other : Word}

theorem decode_congr_some (same : word &&& word.decisive = other &&& word.decisive) {op : Operation}
    (decoded : decode word = some op) : decode other = some op := by
  rw [decode_eq_some_iff, ← Word.decisive_of_decode decoded, ← same, Word.decisive_of_decode decoded]
  exact carries_of_decode decoded

theorem decode_congr (same : word &&& word.decisive = other &&& word.decisive) : decode other = decode word := by
  have sameOther : other &&& other.decisive = word &&& other.decisive := by
    rw [Word.decisive_congr same, same]
  apply Option.ext
  intro op
  exact ⟨decode_congr_some sameOther, decode_congr_some same⟩

/-- The operand fields of the form in which an operation is written. A field that the
operation does not read still has its place there. -/
def fields : Operation → List OperandField
  | .arithmetic (.move _) | .conversion _ => [.rd, .ra, .rb, .record]
  | .arithmetic _ => [.rd, .ra, .rb, .rc, .record]
  | .compare _ => [.crfd, .ra, .rb, .record]
  | .control .readFpscr | .control (.writeBit _) => [.rd, .ra, .rb, .record]
  | .control .writeFields => [.fm, .rb, .record]
  | .control .writeImmediate => [.crfd, .imm, .record]
  | .control .drainField => [.crfd, .crfs, .record]
  | .transfer op => if op.form.indexed then [.rd, .ra, .rb, .record] else [.rd, .ra, .d]

/-- The word of an instruction: its opcode and its operands, each in its place. -/
def assemble (op : Operation) (operands : Operands) : Word :=
  op.opcode.bits ||| operands.word op.fields

/-- Neither the fields of a form overlap each other nor the opcode. -/
theorem fields_apart (op : Operation) :
    (op.fields.Pairwise fun field other => field.span &&& other.span = 0) ∧
      ∀ field ∈ op.fields, field.span &&& op.opcode.mask = 0 := by
  have table : ∀ op ∈ all, (op.fields.Pairwise fun field other => field.span &&& other.span = 0) ∧
      ∀ field ∈ op.fields, field.span &&& op.opcode.mask = 0 := by
    decide +kernel
  exact table op op.mem_all

theorem assemble_carries (op : Operation) (operands : Operands) :
    op.assemble operands &&& op.opcode.mask = op.opcode.bits := by
  rw [assemble, BitVec.and_or_distrib_right, operands.word_apart op.fields_apart.2, Opcode.bits_and_mask]
  exact BitVec.or_zero

theorem value_assemble (op : Operation) (operands : Operands) {field : OperandField} (member : field ∈ op.fields) :
    (Operands.decode (op.assemble operands)).value field = operands.value field := by
  have apart : op.opcode.bits &&& field.span = 0 := by
    rw [← Opcode.bits_and_mask, BitVec.and_assoc, BitVec.and_comm op.opcode.mask, op.fields_apart.2 field member]
    exact BitVec.and_zero
  rw [Operands.value_decode, ← Word.and_span_eq_iff _ _ field.fits]
  change op.assemble operands &&& field.span = _
  rw [assemble, BitVec.and_or_distrib_right, apart, operands.word_and_span op.fields_apart.1 member]
  exact BitVec.zero_or

end Operation

/-- Every bit of a word belongs to the primary opcode, to one of the first two registers or
to what a displacement would take up. -/
theorem Word.eq_of_fields {word other : Word} (primary : word.extractLsb' 26 6 = other.extractLsb' 26 6)
    (same : Operands.decode word = Operands.decode other) : word = other := by
  have value (field : OperandField) :
      word.extractLsb' field.start field.width = other.extractLsb' field.start field.width := by
    rw [← Operands.value_decode, same, Operands.value_decode]
  have rd : word.extractLsb' 21 5 = other.extractLsb' 21 5 := value .rd
  have ra : word.extractLsb' 16 5 = other.extractLsb' 16 5 := value .ra
  have d : word.extractLsb' 0 16 = other.extractLsb' 0 16 := value .d
  have parts (whole : Word) : whole.extractLsb' 26 6 ++ whole.extractLsb' 21 5 ++ whole.extractLsb' 16 5 ++
      whole.extractLsb' 0 16 = whole := by
    have join {high start low width : Nat} (meet : high = low + width) :
        whole.extractLsb' high start ++ whole.extractLsb' low width = whole.extractLsb' low (start + width) :=
      BitVec.extractLsb'_append_extractLsb'_eq_extractLsb' meet
    rw [join (by decide), join (by decide), join (by decide)]
    exact BitVec.extractLsb'_eq_self
  rw [← parts word, ← parts other, primary, rd, ra, d]

/-- Decoding is exact. A word encodes the one operation whose opcode it carries, and the bits
of that opcode are all that decides so. The operands are in range; opcode and operands
determine the word; and an assembled instruction is decoded again, field by field. -/
theorem decoding_exact :
    (∀ (word : Word) (op : Operation),
      Operation.decode word = some op ↔ word &&& op.opcode.mask = op.opcode.bits) ∧
    (∀ op : Operation, op.opcode.WellFormed) ∧
    (∀ (word : Word) (op other : Operation), word &&& op.opcode.mask = op.opcode.bits →
      word &&& other.opcode.mask = other.opcode.bits → op = other) ∧
    (∀ (word : Word) (op : Operation), Operation.decode word = some op → word.decisive = op.opcode.mask) ∧
    (∀ word other : Word, word &&& word.decisive = other &&& word.decisive →
      Operation.decode other = Operation.decode word) ∧
    (∀ word : Word, (Operands.decode word).InRange) ∧
    (∀ (word other : Word) (op : Operation), Operation.decode word = some op →
      Operation.decode other = some op → Operands.decode word = Operands.decode other → word = other) ∧
    ∀ (op : Operation) (operands : Operands), (.d ∈ op.fields → operands.Displaces) →
      Operation.decode (op.assemble operands) = some op ∧
        ∀ field ∈ op.fields, Operands.SameIn field (.decode (op.assemble operands)) operands := by
  refine ⟨Operation.decode_eq_some_iff, Operation.wellFormed_opcode, fun _ _ _ => Operation.eq_of_carries,
    fun _ _ => Word.decisive_of_decode, fun _ _ => Operation.decode_congr, Operands.decode_inRange, ?_, ?_⟩
  · intro word other op decoded decodedOther same
    apply Word.eq_of_fields ?_ same
    rw [Operation.primary_of_decode decoded, Operation.primary_of_decode decodedOther]
  · intro op operands displaces
    refine ⟨(Operation.decode_eq_some_iff _ op).mpr (op.assemble_carries operands), ?_⟩
    intro field member
    apply Operands.sameIn_of_value (op.value_assemble operands member)
    intro isDisplacement
    rw [isDisplacement] at member
    exact ⟨Operands.decode_displaces _, displaces member⟩

/-- A sum with bits set above its short opcode, where a long one would go on; a store with a
negative displacement; and a word that is none of these, whatever its operands. -/
theorem decoding_exact_of_short_opcode :
    Operation.decode 0xFC6117EA = some (.arithmetic (.binary .add .double)) ∧
      Operation.decode 0xFC61102A = Operation.decode 0xFC6117EA ∧
      Operation.decode 0xFC611002 = none ∧
      (let store := Operation.transfer (.store .single ⟨false, true⟩)
       let operands := { Operands.decode 0 with rd := 3, ra := 4, d := -8 }
       store.assemble operands = 0xD464FFF8 ∧ Operation.decode (store.assemble operands) = some store ∧
        (Operands.decode (store.assemble operands)).d = -8) := by
  obtain ⟨carries, -, -, -, congruent, -, -, assembled⟩ := decoding_exact
  have again := assembled (.transfer (.store .single ⟨false, true⟩))
    { Operands.decode 0 with rd := 3, ra := 4, d := -8 } (fun _ => by decide)
  refine ⟨(carries _ _).mpr (by decide), congruent _ _ (by decide), ?_, by decide, again.1, ?_⟩
  · decide
  · exact again.2 .d (by decide)

end PowerFpu
