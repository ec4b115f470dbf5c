import Mathlib.Data.List.Perm.Basic
import PowerFpu.Proofs.Fpscr.Accrual
import PowerFpu.Proofs.Fpscr.Window
import PowerFpu.Proofs.Instruction.Fields

/-! The three ways to write the FPSCR, as one.

Fields, an immediate or a single bit: each of them takes the bits under a mask from
a source and recomputes the summaries. What a list of writes leaves depends on the
bits that they cover together, as long as one source word accounts for all of them. -/

set_option autoImplicit false

namespace PowerFpu

namespace Field

def only (field : FieldIndex) : BitVec 8 :=
  0x80 >>> field.toNat

section Fold
variable {α : Type} (first second : α → Bool) (place : α → Word)

theorem foldl_or (items : List α) (mask other : Word) :
    items.foldl (fun mask item => if first item || second item then mask ||| place item else mask) (mask ||| other) =
      items.foldl (fun mask item => if first item then mask ||| place item else mask) mask |||
        items.foldl (fun mask item => if second item then mask ||| place item else mask) other := by
  induction items generalizing mask other with
  | nil => rfl
  | cons item items ih =>
    simp only [List.foldl_cons]
    rw [← ih]
    congr 1
    cases first item with
    | false =>
      cases second item with
      | false => rfl
      | true => exact BitVec.or_assoc _ _ _
    | true =>
      cases second item with
      | false =>
        change mask ||| other ||| place item = mask ||| place item ||| other
        ac_rfl
      | true =>
        calc
          mask ||| other ||| place item = mask ||| other ||| (place item ||| place item) := by rw [BitVec.or_self]
          _ = mask ||| place item ||| (other ||| place item) := by ac_rfl

end Fold

theorem select_or (selection other : BitVec 8) :
    select (selection ||| other) = select selection ||| select other := by
  simp only [select, BitVec.getLsbD_or]
  exact foldl_or selection.getLsbD other.getLsbD (fun i => 0xF <<< (4 * i)) (List.range 8) 0 0

theorem shift_add_four_le (field : FieldIndex) : shift field + 4 ≤ 32 := by
  unfold shift
  omega

theorem mask_eq_span (field : FieldIndex) : mask field = Word.span (shift field) 4 := rfl

theorem agree_of_get {word : Word} {field : FieldIndex} {value : BitVec 4} (same : get word field = value) :
    Fpscr.Agree (mask field) (Word.place (shift field) value) word := by
  rw [Fpscr.Agree, mask_eq_span, (Word.and_span_eq_iff value word (shift_add_four_le field)).mpr same,
    Word.place_and_span]

end Field

namespace Fpscr

/-- Takes the bits under a mask from a source and the others from a word. -/
def merge (mask source bits : Word) : Word :=
  (bits &&& ~~~mask) ||| (source &&& mask)

def writeMasked (mask source bits : Word) : Word :=
  summarize (merge mask source bits)

section Merge
variable {mask other source others bits : Word}

theorem getLsbD_merge (mask source bits : Word) {i : Nat} (bound : i < 32) :
    (merge mask source bits).getLsbD i = if mask.getLsbD i then source.getLsbD i else bits.getLsbD i := by
  rw [merge, BitVec.getLsbD_or, BitVec.getLsbD_and, BitVec.getLsbD_and, BitVec.getLsbD_not]
  cases mask.getLsbD i <;> simp [bound]

theorem merge_zero (mask bits : Word) : merge mask 0 bits = bits &&& ~~~mask :=
  (congrArg _ BitVec.zero_and).trans BitVec.or_zero

theorem merge_merge (mask other source bits : Word) :
    merge other source (merge mask source bits) = merge (mask ||| other) source bits := by
  apply BitVec.eq_of_getLsbD_eq
  intro i bound
  rw [getLsbD_merge _ _ _ bound, getLsbD_merge _ _ _ bound, getLsbD_merge _ _ _ bound, BitVec.getLsbD_or]
  cases mask.getLsbD i <;> cases other.getLsbD i <;> rfl

theorem agree_iff (mask bits other : Word) :
    Agree mask bits other ↔ ∀ i < 32, mask.getLsbD i = true → bits.getLsbD i = other.getLsbD i := by
  constructor
  · intro agree i _ inside
    have bit := congrArg (·.getLsbD i) agree
    simpa only [BitVec.getLsbD_and, inside, Bool.and_true] using bit
  · intro same
    apply BitVec.eq_of_getLsbD_eq
    intro i bound
    rw [BitVec.getLsbD_and, BitVec.getLsbD_and]
    cases inside : mask.getLsbD i with
    | false => rw [Bool.and_false, Bool.and_false]
    | true => rw [same i bound inside]

theorem agree_merge_merge {within last : Word} (agree : Agree within bits last)
    (sources : Agree mask source others) : Agree within (merge mask source bits) (merge mask others last) := by
  rw [agree_iff] at *
  intro i bound inside
  rw [getLsbD_merge _ _ _ bound, getLsbD_merge _ _ _ bound]
  cases masked : mask.getLsbD i with
  | false => exact agree i bound inside
  | true => exact sources i bound masked

/-- A part of the word that a whole write leaves as it was is left so by each part of the write. -/
theorem agree_merge_part {within : Word} (kept : Agree within (merge (mask ||| other) source bits) bits) :
    Agree within (merge mask source bits) bits := by
  rw [agree_iff] at *
  intro i bound inside
  have bit := kept i bound inside
  rw [getLsbD_merge _ _ _ bound, BitVec.getLsbD_or] at bit
  rw [getLsbD_merge _ _ _ bound]
  cases masked : mask.getLsbD i with
  | false => rfl
  | true => simpa only [masked, Bool.true_or, if_true] using bit

theorem agree_writeMasked (mask source bits : Word) :
    Agree (~~~summary) (writeMasked mask source bits) (merge mask source bits) :=
  agree_summarize _

theorem writeMasked_congr {last : Word} (agree : Agree (~~~summary) bits last) (sources : Agree mask source others) :
    writeMasked mask source bits = writeMasked mask others last := by
  have holds := summarize_summarized (merge mask source bits)
  have holdsOther := summarize_summarized (merge mask others last)
  apply holds.eq_of_agree holdsOther
  exact ((agree_writeMasked _ _ _).trans (agree_merge_merge agree sources)).trans (agree_writeMasked _ _ _).symm

theorem writeMasked_writeMasked (mask other source bits : Word) :
    writeMasked other source (writeMasked mask source bits) = writeMasked (mask ||| other) source bits := by
  calc
    writeMasked other source (writeMasked mask source bits) = writeMasked other source (merge mask source bits) :=
      writeMasked_congr (agree_writeMasked mask source bits) rfl
    _ = writeMasked (mask ||| other) source bits := by rw [writeMasked, merge_merge, writeMasked]

/-- A write that keeps RN keeps it throughout, when it is made in parts. -/
theorem agree_rn_writeMasked_part (kept : Agree rn (writeMasked (mask ||| other) source bits) bits) :
    Agree rn (writeMasked mask source bits) bits := by
  have apart : rn &&& ~~~summary = rn := by decide
  have merged : Agree rn (merge (mask ||| other) source bits) bits :=
    ((agree_writeMasked _ _ _).mono apart).symm.trans kept
  exact ((agree_writeMasked _ _ _).mono apart).trans (agree_merge_part merged)

end Merge

theorem toBits_ofBits (word : Word) : (RoundingMode.ofBits word).toBits = word &&& rn := by
  have all : ∀ low : BitVec 2, (RoundingMode.ofBits (Word.place 0 low)).toBits = Word.place 0 low := by decide
  have low : Word.place 0 (word.extractLsb' 0 2) = word &&& rn := Word.place_extractLsb' word
  have same : Agree rn word (word &&& rn) := by rw [Agree, BitVec.and_assoc, BitVec.and_self]
  rw [same.ofBits, ← low, all]

theorem agree_rn_iff (bits other : Word) :
    Agree rn bits other ↔ RoundingMode.ofBits bits = RoundingMode.ofBits other := by
  constructor
  · exact Agree.ofBits
  · intro same
    rw [Agree, ← toBits_ofBits, ← toBits_ofBits, same]

/-- An instruction that writes the FPSCR, with what it takes from its word. -/
inductive Write where
  | fields (selection : BitVec 8) (register : RegisterIndex)
  | immediate (field : FieldIndex) (value : BitVec 4)
  | bit (number : BitVec 5) (value : Bool)
  deriving DecidableEq, Repr

namespace Write

def mask : Write → Word
  | .fields selection _ => Field.select selection &&& ~~~summary
  | .immediate field _ => Field.mask field
  | .bit number _ => bitMask number

def source (fpr : Bank 64) : Write → Word
  | .fields _ register => (fpr.get register).setWidth 32
  | .immediate field value => Word.place (Field.shift field) value
  | .bit _ value => if value then BitVec.allOnes 32 else 0

/-- The writes that do nothing: an immediate into field 0, and those of the summaries. -/
inductive Ignored : Write → Prop where
  | immediate (value : BitVec 4) : Ignored (.immediate 0 value)
  | fex (value : Bool) : Ignored (.bit 1 value)
  | vx (value : Bool) : Ignored (.bit 2 value)

def apply (fpr : Bank 64) (write : Write) (bits : Word) : Word :=
  match write with
  | .fields selection register => writeFields selection ((fpr.get register).setWidth 32) bits
  | .immediate field value => writeImmediate field value bits
  | .bit number value => writeBit number value bits

section Apply
variable (fpr : Bank 64) {write : Write} (bits : Word)

theorem apply_of_ignored (ignored : write.Ignored) : write.apply fpr bits = bits := by
  cases ignored with
  | immediate value | fex value | vx value => rfl

theorem apply_of_effective (effective : ¬ write.Ignored) :
    write.apply fpr bits = writeMasked write.mask (write.source fpr) bits := by
  cases write with
  | fields selection register => rfl
  | immediate field value =>
    have writable : field ≠ 0 := by
      intro zero
      rw [zero] at effective
      exact effective (.immediate value)
    have placed : Word.place (Field.shift field) value &&& Field.mask field = Word.place (Field.shift field) value :=
      Word.place_and_span value
    rw [source, mask, writeMasked, merge, placed]
    exact if_neg writable
  | bit number value =>
    have notFex : number ≠ 1 := by
      intro fex
      rw [fex] at effective
      exact effective (.fex value)
    have notVx : number ≠ 2 := by
      intro vx
      rw [vx] at effective
      exact effective (.vx value)
    refine (if_pos (bitMask_apart notFex notVx)).trans (congrArg summarize ?_)
    cases value with
    | false => exact (merge_zero _ bits).symm
    | true =>
      apply BitVec.eq_of_getLsbD_eq
      intro i bound
      rw [getLsbD_merge _ _ _ bound]
      simp only [if_true, BitVec.getLsbD_or, mask, source, BitVec.getLsbD_allOnes, bound, decide_true]
      cases (bitMask number).getLsbD i <;> simp

end Apply

def covered (writes : List Write) : Word :=
  writes.foldr (fun write mask => write.mask ||| mask) 0

/-- Writes that do something and take all their bits from one word. -/
structure Uniform (fpr : Bank 64) (word : Word) (writes : List Write) : Prop where
  some : writes ≠ []
  effective : ∀ write ∈ writes, ¬ write.Ignored
  agreed : ∀ write ∈ writes, Agree write.mask (write.source fpr) word

section Uniform
variable {fpr : Bank 64} {word : Word} {writes others : List Write}

theorem covered_perm (perm : writes.Perm others) : covered writes = covered others := by
  induction perm with
  | nil => rfl
  | cons write _ ih => exact congrArg (write.mask ||| ·) ih
  | swap write other rest =>
    change other.mask ||| (write.mask ||| covered rest) = write.mask ||| (other.mask ||| covered rest)
    ac_rfl
  | trans _ _ ih ihOther => exact ih.trans ihOther

theorem Uniform.tail {write next : Write} (uniform : Uniform fpr word (write :: next :: writes)) :
    Uniform fpr word (next :: writes) where
  some := List.cons_ne_nil next writes
  effective := fun write member => uniform.effective write (List.mem_cons_of_mem _ member)
  agreed := fun write member => uniform.agreed write (List.mem_cons_of_mem _ member)

theorem Uniform.perm (uniform : Uniform fpr word writes) (perm : others.Perm writes) :
    Uniform fpr word others where
  some := by
    intro empty
    rw [empty] at perm
    exact uniform.some perm.symm.eq_nil
  effective := fun write member => uniform.effective write (perm.mem_iff.mp member)
  agreed := fun write member => uniform.agreed write (perm.mem_iff.mp member)

end Uniform

/-! Lists of writes that are uniform: fields of one register, one immediate, single bits. -/

def singles (selection : BitVec 8) (register : RegisterIndex) : List Write :=
  (([0, 1, 2, 3, 4, 5, 6, 7] : List FieldIndex).filter fun field => selection.getMsbD field.toNat).map
    fun field => .fields (Field.only field) register

def bits (field : FieldIndex) (value : BitVec 4) : List Write :=
  ([0, 1, 2, 3] : List (BitVec 2)).map fun place => .bit (field ++ place) (value.getMsbD place.toNat)

section Lists
variable {fpr : Bank 64} {field : FieldIndex} {value : BitVec 4} {register : RegisterIndex} {writes : List Write}

theorem uniform_fields (some : writes ≠ [])
    (all : ∀ write ∈ writes, ∃ selection, write = .fields selection register) :
    Uniform fpr ((fpr.get register).setWidth 32) writes where
  some := some
  effective := by
    intro write member ignored
    obtain ⟨selection, rfl⟩ := all write member
    cases ignored
  agreed := by
    intro write member
    obtain ⟨selection, rfl⟩ := all write member
    rfl

theorem uniform_whole (selection : BitVec 8) :
    Uniform fpr ((fpr.get register).setWidth 32) [.fields selection register] := by
  apply uniform_fields (List.cons_ne_nil _ _)
  intro write member
  exact ⟨selection, List.mem_singleton.mp member⟩

theorem singles_ne_nil {selection : BitVec 8} (selects : selection ≠ 0) : singles selection register ≠ [] := by
  have some : ∀ selection : BitVec 8, selection ≠ 0 →
      ([0, 1, 2, 3, 4, 5, 6, 7] : List FieldIndex).filter (fun field => selection.getMsbD field.toNat) ≠ [] := by
    decide +kernel
  intro empty
  exact some selection selects (List.map_eq_nil_iff.mp empty)

theorem uniform_singles {selection : BitVec 8} (selects : selection ≠ 0) :
    Uniform fpr ((fpr.get register).setWidth 32) (singles selection register) := by
  apply uniform_fields (singles_ne_nil selects)
  intro write member
  obtain ⟨field, -, rfl⟩ := List.mem_map.mp member
  exact ⟨_, rfl⟩

theorem covered_singles (selection : BitVec 8) :
    covered (singles selection register) = Field.select selection &&& ~~~summary := by
  have all : ∀ selection : BitVec 8,
      (([0, 1, 2, 3, 4, 5, 6, 7] : List FieldIndex).filter fun field => selection.getMsbD field.toNat).foldr
        (fun field mask => (Field.select (Field.only field) &&& ~~~summary) ||| mask) 0 =
          Field.select selection &&& ~~~summary := by
    decide +kernel
  rw [covered, singles, List.foldr_map]
  exact all selection

theorem uniform_immediate {word : Word} (writable : field ≠ 0) (same : Field.get word field = value) :
    Uniform fpr word [.immediate field value] where
  some := List.cons_ne_nil _ _
  effective := by
    intro write member ignored
    rw [List.mem_singleton.mp member] at ignored
    cases ignored
    exact writable rfl
  agreed := by
    intro write member
    rw [List.mem_singleton.mp member]
    exact Field.agree_of_get same

theorem covered_only (writable : field ≠ 0) : covered [.fields (Field.only field) register] = Field.mask field := by
  have all : ∀ field : FieldIndex, field ≠ 0 →
      (Field.select (Field.only field) &&& ~~~summary) ||| 0 = Field.mask field := by
    decide
  exact all field writable

theorem agree_bit (word : Word) (number : BitVec 5) :
    Agree (bitMask number) (if word.getMsbD number.toNat then BitVec.allOnes 32 else 0) word := by
  have only : ∀ number : BitVec 5, ∀ i < 32, (bitMask number).getLsbD i = true → i = 31 - number.toNat := by
    decide +kernel
  rw [agree_iff]
  intro i bound inside
  have place : word.getMsbD number.toNat = word.getLsbD i := by
    rw [only number i bound inside, BitVec.getMsbD_eq_getLsbD, decide_eq_true number.isLt, Bool.true_and]
  rw [place]
  cases word.getLsbD i with
  | false => exact BitVec.getLsbD_zero
  | true => exact BitVec.getLsbD_allOnes.trans (decide_eq_true bound)

/-- The bits of a field are numbered on from four times its own number. -/
theorem getMsbD_get (word : Word) (field : FieldIndex) (place : BitVec 2) :
    (Field.get word field).getMsbD place.toNat = word.getMsbD (field ++ place).toNat := by
  have number : ∀ field : FieldIndex, ∀ place : BitVec 2,
      (field ++ place).toNat = 4 * field.toNat + place.toNat := by
    decide
  have inside := place.isLt
  have low : 4 * field.toNat + place.toNat < 32 := by omega
  have high : 3 - place.toNat < 4 := by omega
  have same : Field.shift field + (3 - place.toNat) = 31 - (4 * field.toNat + place.toNat) := by
    unfold Field.shift
    omega
  rw [number, Field.get, BitVec.getMsbD_eq_getLsbD, BitVec.getMsbD_eq_getLsbD, BitVec.getLsbD_extractLsb',
    decide_eq_true low, decide_eq_true high, decide_eq_true inside]
  simp only [Bool.true_and]
  rw [same]

theorem Ignored.number {number : BitVec 5} {value : Bool} (ignored : Ignored (.bit number value)) :
    number = 1 ∨ number = 2 := by
  cases ignored with
  | fex => exact .inl rfl
  | vx => exact .inr rfl

theorem uniform_bits {word : Word} (writable : field ≠ 0) (same : Field.get word field = value) :
    Uniform fpr word (bits field value) where
  some := List.cons_ne_nil _ _
  effective := by
    have apart : ∀ field : FieldIndex, field ≠ 0 →
        ∀ place : BitVec 2, ¬ (field ++ place = 1#5 ∨ field ++ place = 2#5) := by
      decide
    intro write member ignored
    obtain ⟨place, -, rfl⟩ := List.mem_map.mp member
    exact apart field writable place ignored.number
  agreed := by
    intro write member
    obtain ⟨place, -, rfl⟩ := List.mem_map.mp member
    rw [← same, getMsbD_get]
    exact agree_bit word _

theorem covered_bits (field : FieldIndex) (value : BitVec 4) : covered (bits field value) = Field.mask field := by
  have all : ∀ field : FieldIndex,
      ([0, 1, 2, 3] : List (BitVec 2)).foldr (fun place mask => bitMask (field ++ place) ||| mask) 0 =
        Field.mask field := by
    decide
  exact all field

/-- What can be written of field 0. -/
def ends (word : Word) : List Write :=
  [.bit 0 (word.getMsbD 0), .bit 3 (word.getMsbD 3)]

theorem uniform_ends (word : Word) : Uniform fpr word (ends word) where
  some := List.cons_ne_nil _ _
  effective := by
    intro write member ignored
    simp only [ends, List.mem_cons, List.not_mem_nil, or_false] at member
    rcases member with rfl | rfl
    · exact absurd ignored.number (by decide)
    · exact absurd ignored.number (by decide)
  agreed := by
    intro write member
    simp only [ends, List.mem_cons, List.not_mem_nil, or_false] at member
    rcases member with rfl | rfl
    · exact agree_bit word 0
    · exact agree_bit word 3

theorem covered_ends (word : Word) : covered (ends word) = covered [.fields (Field.only 0) register] := by
  have same : bitMask 0 ||| (bitMask 3 ||| 0) = (Field.select (Field.only 0) &&& ~~~summary) ||| 0 := by decide
  exact same

end Lists

end Write

end Fpscr

end PowerFpu
