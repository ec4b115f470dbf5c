import Mathlib.Algebra.Group.Nat.Defs
import PowerFpu.Proofs.Bus.FlatMemory

/-! Flat memory refines a map from offsets to bytes.

The calls made so far determine the map: an offset holds the byte that was written there
last, or zero. A call whose range lies inside the memory answers from the map and replaces
the bytes that it writes; any other call fails at its address and changes nothing. -/

set_option autoImplicit false

namespace PowerFpu

/-! Numbers and their bytes. -/

def byteAt (count : Nat) {width : Nat} (value : BitVec width) (index : Nat) : Byte :=
  value.extractLsb' (8 * (count - 1 - index)) 8

def joinBytes : (count : Nat) → (Nat → Byte) → BitVec (8 * count)
  | 0, _ => 0
  | count + 1, byte => joinBytes count byte ++ byte count

theorem bigEndianBytes_eq (count : Nat) {width : Nat} (value : BitVec width) :
    bigEndianBytes count value.toNat = (List.range count).map (byteAt count value) := by
  induction count with
  | zero => rfl
  | succ count ih =>
    rw [bigEndianBytes, ih, List.range_succ_eq_map, List.map_cons, List.map_map]
    congr 1
    refine List.map_congr_left fun index _ => ?_
    have same : count + 1 - 1 - (index + 1) = count - 1 - index := by omega
    simp only [byteAt, Function.comp, same]

theorem ofBigEndian_append (high low : List Byte) :
    ofBigEndian (high ++ low) = ofBigEndian high * 2 ^ (8 * low.length) + ofBigEndian low := by
  rw [← Nat.shiftLeft_eq, ← foldl_eq_ofBigEndian, ofBigEndian, List.foldl_append]
  rfl

theorem ofBigEndian_lt (bytes : List Byte) : ofBigEndian bytes < 2 ^ (8 * bytes.length) := by
  induction bytes with
  | nil => decide
  | cons byte rest ih =>
    rw [ofBigEndian_cons, Nat.shiftLeft_eq, List.length_cons, Nat.mul_succ, Nat.pow_add]
    calc byte.toNat * 2 ^ (8 * rest.length) + ofBigEndian rest
        < byte.toNat * 2 ^ (8 * rest.length) + 2 ^ (8 * rest.length) := Nat.add_lt_add_left ih _
      _ = (byte.toNat + 1) * 2 ^ (8 * rest.length) := (Nat.succ_mul _ _).symm
      _ ≤ 2 ^ 8 * 2 ^ (8 * rest.length) := Nat.mul_le_mul_right _ byte.isLt
      _ = 2 ^ (8 * rest.length) * 2 ^ 8 := Nat.mul_comm _ _

theorem ofNat_ofBigEndian_append (width : Nat) (high low : List Byte) :
    BitVec.ofNat (width + 8 * low.length) (ofBigEndian (high ++ low)) =
      BitVec.ofNat width (ofBigEndian high) ++ BitVec.ofNat (8 * low.length) (ofBigEndian low) := by
  have bound := ofBigEndian_lt low
  have splits (above size below : Nat) (inside : below < 2 ^ (8 * low.length)) :
      (above * 2 ^ (8 * low.length) + below) % (2 ^ (8 * low.length) * size) =
        above % size * 2 ^ (8 * low.length) + below := by
    rw [Nat.mod_mul, Nat.mul_add_mod_of_lt inside, Nat.add_comm (_ * _), Nat.add_mul_div_right _ _ (by omega),
      Nat.div_eq_of_lt inside, Nat.zero_add, Nat.mul_comm (2 ^ _), Nat.add_comm]
  apply BitVec.eq_of_toNat_eq
  rw [BitVec.toNat_append, BitVec.toNat_ofNat, BitVec.toNat_ofNat, BitVec.toNat_ofNat, Nat.mod_eq_of_lt bound,
    ← Nat.shiftLeft_add_eq_or_of_lt bound, Nat.shiftLeft_eq, ofBigEndian_append, Nat.pow_add,
    Nat.mul_comm (2 ^ width)]
  exact splits _ _ _ bound

theorem ofNat_ofBigEndian_range (count : Nat) (byte : Nat → Byte) :
    BitVec.ofNat (8 * count) (ofBigEndian ((List.range count).map byte)) = joinBytes count byte := by
  induction count with
  | zero => rfl
  | succ count ih =>
    have last : BitVec.ofNat 8 (ofBigEndian [byte count]) = byte count := by
      rw [ofBigEndian, List.foldl_cons, List.foldl_nil, Nat.zero_mul, Nat.zero_add, BitVec.ofNat_toNat,
        BitVec.setWidth_eq]
    rw [List.range_succ, List.map_append, joinBytes, ← ih, ← last]
    exact ofNat_ofBigEndian_append (8 * count) _ [byte count]

theorem joinBytes_eight (byte : Nat → Byte) :
    (joinBytes 8 byte : Doubleword) =
      (joinBytes 4 byte : Word) ++ (joinBytes 4 fun index => byte (4 + index) : Word) := by
  rw [← ofNat_ofBigEndian_range, ← ofNat_ofBigEndian_range, ← ofNat_ofBigEndian_range]
  exact ofNat_ofBigEndian_append 32 ((List.range 4).map byte) ((List.range 4).map fun index => byte (4 + index))

/-! Calls and the map that they make. -/

/-- Whether a range lies in a memory of a base and a size. The addresses are compared as
numbers, so that no range wraps. -/
def Memory.Covers (base : Word) (size : Nat) (address : Word) (count : Nat) : Prop :=
  base.toNat ≤ address.toNat ∧ address.toNat - base.toNat + count ≤ size

instance (base : Word) (size : Nat) (address : Word) (count : Nat) :
    Decidable (Memory.Covers base size address count) :=
  inferInstanceAs (Decidable (_ ∧ _))

inductive MemoryCall where
  | load (address : Word) (bytes : List Byte)
  | look (address : Word) (count : Nat)
  | serve (access : Access)

namespace MemoryCall

abbrev Reply : MemoryCall → Type
  | .load .. => Unit
  | .look .. => List Byte
  | .serve access => access.Reply

def address : MemoryCall → Word
  | .load address _ | .look address _ => address
  | .serve access => access.address

def count : MemoryCall → Nat
  | .load _ bytes => bytes.length
  | .look _ count => count
  | .serve (.readWord _) | .serve (.writeWord ..) => 4
  | .serve (.readDoubleword _) | .serve (.writeDoubleword ..) => 8

def written : MemoryCall → List Byte
  | .load _ bytes => bytes
  | .serve (.writeWord _ value) => (List.range 4).map (byteAt 4 value)
  | .serve (.writeDoubleword _ value) => (List.range 8).map (byteAt 8 value)
  | .look .. | .serve (.readWord _) | .serve (.readDoubleword _) => []

def answer (byte : Nat → Byte) : (call : MemoryCall) → call.Reply
  | .look _ count => (List.range count).map byte
  | .serve (.readWord _) => joinBytes 4 byte
  | .serve (.readDoubleword _) => joinBytes 8 byte
  | .load .. | .serve (.writeWord ..) | .serve (.writeDoubleword ..) => ()

variable (base : Word) (size : Nat)

def start (call : MemoryCall) : Nat :=
  call.address.toNat - base.toNat

def Fits (call : MemoryCall) : Prop :=
  Memory.Covers base size call.address call.count

instance (call : MemoryCall) : Decidable (call.Fits base size) :=
  inferInstanceAs (Decidable (Memory.Covers ..))

theorem length_written_le (call : MemoryCall) : call.written.length ≤ call.count := by
  cases call with
  | load address bytes => exact Nat.le_refl _
  | look address count => exact Nat.zero_le _
  | serve access =>
    cases access with
    | readWord address | readDoubleword address => exact Nat.zero_le _
    | writeWord address value | writeDoubleword address value => exact Nat.le_of_eq (by simp [written, count])

def puts? (place : Nat) (call : MemoryCall) : Option Byte :=
  if call.Fits base size ∧ call.start base ≤ place then call.written[place - call.start base]? else none

/-- The byte that the calls of a history last put at an offset, or zero. -/
def latest (history : List MemoryCall) (place : Nat) : Byte :=
  (history.reverse.findSome? (puts? base size place)).getD 0

end MemoryCall

namespace Memory

def call (memory : Memory) : (call : MemoryCall) → Except Exception call.Reply × Memory
  | .load address bytes => memory.settle (memory.load address bytes)
  | .look address count => (memory.read address count, memory)
  | .serve access => bus.serve access memory

def callAll (memory : Memory) (calls : List MemoryCall) : Memory :=
  calls.foldl (fun memory call => (memory.call call).2) memory

/-- A memory of a base and a size with the bytes of a map at its offsets. -/
structure Holds (base : Word) (size : Nat) (byte : Nat → Byte) (memory : Memory) : Prop where
  sameBase : memory.base = base
  sameSize : memory.bytes.size = size
  bytes : ∀ place < size, memory.bytes[place]? = some (byte place)

section Ranges
variable {base : Word} {size : Nat} {byte : Nat → Byte} {memory : Memory} {address : Word}
  (holds : memory.Holds base size byte)
include holds

theorem Holds.offset {count : Nat} (inside : Covers base size address count) :
    memory.offset address count = .ok (address.toNat - base.toNat) := by
  obtain ⟨rfl, rfl, -⟩ := holds
  exact if_pos inside

theorem Holds.offset_outside {count : Nat} (outside : ¬ Covers base size address count) :
    memory.offset address count = .error (.dataStorage address) := by
  obtain ⟨rfl, rfl, -⟩ := holds
  exact if_neg outside

theorem Holds.read {count : Nat} (inside : Covers base size address count) :
    memory.read address count =
      .ok ((List.range count).map fun index => byte (address.toNat - base.toNat + index)) := by
  refine read_eq_ok (holds.offset inside) (by rw [List.length_map, List.length_range]) fun index below => ?_
  obtain ⟨rfl, rfl, bytes⟩ := holds
  obtain ⟨above, fits⟩ := inside
  have here : address.toNat + index - memory.base.toNat = address.toNat - memory.base.toNat + index := by omega
  rw [byte?, if_pos (by omega), here, bytes _ (by omega), List.getElem?_map, List.getElem?_range below]
  rfl

theorem Holds.read_outside {count : Nat} (outside : ¬ Covers base size address count) :
    memory.read address count = .error (.dataStorage address) := by
  simp only [Memory.read, holds.offset_outside outside]

theorem Holds.readWord (inside : Covers base size address 4) :
    memory.readWord address = .ok (joinBytes 4 fun index => byte (address.toNat - base.toNat + index)) := by
  rw [Memory.readWord, holds.read inside, ← ofNat_ofBigEndian_range]
  rfl

theorem Holds.readDoubleword (inside : Covers base size address 8) :
    memory.readDoubleword address = .ok (joinBytes 8 fun index => byte (address.toNat - base.toNat + index)) := by
  rw [Memory.readDoubleword, holds.read inside, ← ofNat_ofBigEndian_range]
  rfl

theorem Holds.readDoubleword_words {second : Word} {value : Doubleword} (next : second.toNat = address.toNat + 4)
    (reads : memory.readDoubleword address = .ok value) :
    ∃ high low, memory.readWord address = .ok high ∧ memory.readWord second = .ok low ∧ value = high ++ low := by
  by_cases inside : Covers base size address 8
  case neg =>
    rw [Memory.readDoubleword, holds.read_outside inside] at reads
    cases reads
  rw [holds.readDoubleword inside] at reads
  obtain ⟨above, fits⟩ := inside
  refine ⟨_, _, holds.readWord ⟨above, by omega⟩, holds.readWord ⟨by omega, by omega⟩, ?_⟩
  have start : second.toNat - base.toNat = address.toNat - base.toNat + 4 := by omega
  rw [← Except.ok.inj reads, joinBytes_eight, start]
  simp only [Nat.add_assoc]

theorem Holds.settle_load (bytes : List Byte) (inside : Covers base size address bytes.length) :
    memory.settle (memory.load address bytes) =
      (.ok (), { memory with bytes := overwrite memory.bytes (address.toNat - base.toNat) bytes }) := by
  simp only [load, holds.offset inside, settle]

theorem Holds.settle_load_outside (bytes : List Byte) (outside : ¬ Covers base size address bytes.length) :
    memory.settle (memory.load address bytes) = (.error (.dataStorage address), memory) := by
  simp only [load, holds.offset_outside outside, settle]

/-- A call inside the memory answers from the bytes that it covers, and writes. -/
theorem Holds.call {call : MemoryCall} (fits : call.Fits base size) :
    memory.call call =
      (.ok (call.answer fun index => byte (call.start base + index)),
        { memory with bytes := overwrite memory.bytes (call.start base) call.written }) := by
  cases call with
  | load address bytes => exact holds.settle_load bytes fits
  | look address count => exact congrArg (·, memory) (holds.read fits)
  | serve access =>
    cases access with
    | readWord address => exact congrArg (·, memory) (holds.readWord fits)
    | readDoubleword address => exact congrArg (·, memory) (holds.readDoubleword fits)
    | writeWord address value =>
      have written := holds.settle_load ((List.range 4).map (byteAt 4 value)) fits
      rwa [← bigEndianBytes_eq] at written
    | writeDoubleword address value =>
      have written := holds.settle_load ((List.range 8).map (byteAt 8 value)) fits
      rwa [← bigEndianBytes_eq] at written

theorem Holds.call_outside {call : MemoryCall} (outside : ¬ call.Fits base size) :
    memory.call call = (.error (.dataStorage call.address), memory) := by
  cases call with
  | load address bytes => exact holds.settle_load_outside bytes outside
  | look address count => exact congrArg (·, memory) (holds.read_outside outside)
  | serve access =>
    cases access with
    | readWord address | readDoubleword address =>
      exact congrArg (Except.map _ ·, memory) (holds.read_outside outside)
    | writeWord address value => exact holds.settle_load_outside (bigEndianBytes 4 value.toNat) outside
    | writeDoubleword address value =>
      exact holds.settle_load_outside (bigEndianBytes 8 value.toNat) outside

theorem Holds.call_ok_iff {call : MemoryCall} :
    (∃ reply, (memory.call call).1 = .ok reply) ↔ call.Fits base size := by
  constructor
  · intro ⟨reply, answers⟩
    by_cases fits : call.Fits base size
    · exact fits
    · rw [holds.call_outside fits] at answers
      cases answers
  · intro fits
    exact ⟨_, congrArg Prod.fst (holds.call fits)⟩

theorem Holds.getElem?_call {call : MemoryCall} (fits : call.Fits base size) (place : Nat) :
    (memory.call call).2.bytes[place]? =
      if call.start base ≤ place ∧ place < call.start base + call.written.length
        then call.written[place - call.start base]? else memory.bytes[place]? := by
  have room : call.start base + call.written.length ≤ memory.bytes.size := by
    rw [holds.sameSize]
    exact Nat.le_trans (Nat.add_le_add_left call.length_written_le _) fits.2
  rw [holds.call fits]
  exact getElem?_overwrite _ _ _ _ room

theorem Holds.step (call : MemoryCall) :
    (memory.call call).2.Holds base size fun place => (call.puts? base size place).getD (byte place) := by
  by_cases fits : call.Fits base size
  · refine ⟨?_, ?_, fun place inside => ?_⟩
    · rw [holds.call fits]
      exact holds.sameBase
    · rw [holds.call fits]
      exact (size_overwrite _ _ _).trans holds.sameSize
    · rw [holds.getElem?_call fits, MemoryCall.puts?]
      by_cases covered : call.start base ≤ place ∧ place < call.start base + call.written.length
      · have there : place - call.start base < call.written.length := by omega
        rw [if_pos covered, if_pos ⟨fits, covered.1⟩, List.getElem?_eq_getElem there]
        rfl
      · rw [if_neg covered, holds.bytes place inside]
        split
        next after =>
          rw [List.getElem?_eq_none (by omega)]
          rfl
        next => rfl
  · have silent : ∀ place, call.puts? base size place = none := fun place => if_neg fun both => fits both.1
    simp only [holds.call_outside fits, silent]
    exact holds

end Ranges

theorem zeroed_holds (base : Word) (size : Nat) : (zeroed base size).Holds base size fun _ => 0 :=
  ⟨rfl, Array.size_replicate, fun place inside => by simp [zeroed, inside]⟩

theorem Holds.callAll {base : Word} {size : Nat} {byte : Nat → Byte} {memory : Memory}
    (holds : memory.Holds base size byte) (history : List MemoryCall) :
    (memory.callAll history).Holds base size fun place =>
      (history.reverse.findSome? (MemoryCall.puts? base size place)).getD (byte place) := by
  induction history generalizing memory byte with
  | nil => exact holds
  | cons call history ih =>
    have rest := ih (holds.step call)
    -- What the later calls put comes before what this one put.
    have latest (later now : Option Byte) (before : Byte) :
        (later.or now).getD before = later.getD (now.getD before) := by
      cases later <;> rfl
    simp only [List.reverse_cons, List.findSome?_append, List.findSome?_singleton, latest]
    exact rest

theorem zeroed_callAll_holds (base : Word) (size : Nat) (history : List MemoryCall) :
    ((zeroed base size).callAll history).Holds base size (MemoryCall.latest base size history) :=
  (zeroed_holds base size).callAll history

/-- The first index of a range as it is computed with numbers of a fixed width: the difference
of the addresses wraps, and the end of the range saturates. -/
def boundedOffset (memory : Memory) (address : Word) (count : Nat) : Except Exception Nat :=
  let index := (address - memory.base).toNat
  if address < memory.base ∨ memory.bytes.size < min (index + count) (2 ^ 64 - 1) then
    .error (.dataStorage address)
  else
    .ok index

/-- An allocated memory takes up less than half of the numbers, and then nothing is lost. -/
theorem boundedOffset_eq {memory : Memory} (allocated : memory.bytes.size < 2 ^ 63) (address : Word) (count : Nat) :
    memory.boundedOffset address count = memory.offset address count := by
  unfold boundedOffset offset
  by_cases above : memory.base ≤ address
  · have index : (address - memory.base).toNat = address.toNat - memory.base.toNat := BitVec.toNat_sub_of_le above
    have ordered : memory.base.toNat ≤ address.toNat := above
    simp only [index]
    by_cases fits : address.toNat - memory.base.toNat + count ≤ memory.bytes.size
    · rw [if_neg (by rw [BitVec.lt_def]; omega), if_pos ⟨ordered, fits⟩]
    · rw [if_pos (by omega), if_neg fun both => fits both.2]
  · have below : address < memory.base := BitVec.not_le.mp above
    rw [if_pos (.inl below), if_neg fun both => above both.1]

/-- Flat memory refines a map from offsets to bytes. After any calls an offset holds the byte
that was written there last, or zero. A call answers from these bytes and replaces those
that it writes exactly if its range lies in the memory, in numbers that do not wrap; any
other call fails at its address and changes nothing. -/
theorem memory_refines_byte_map (base : Word) (size : Nat) (history : List MemoryCall) (call : MemoryCall) :
    let memory := (zeroed base size).callAll history
    let latest := MemoryCall.latest base size history
    let first := call.start base
    memory.Holds base size latest ∧
      ((∃ reply, (memory.call call).1 = .ok reply) ↔ call.Fits base size) ∧
      (call.Fits base size →
        (memory.call call).1 = .ok (call.answer fun index => latest (first + index)) ∧
          ∀ place, (memory.call call).2.bytes[place]? =
            if first ≤ place ∧ place < first + call.written.length then call.written[place - first]?
            else memory.bytes[place]?) ∧
      (¬ call.Fits base size → memory.call call = (.error (.dataStorage call.address), memory)) ∧
      (∀ (address second : Word) (value : Doubleword), second.toNat = address.toNat + 4 →
        memory.readDoubleword address = .ok value →
          ∃ high low, memory.readWord address = .ok high ∧ memory.readWord second = .ok low ∧
            value = high ++ low) ∧
      (size < 2 ^ 63 → ∀ address count, memory.boundedOffset address count = memory.offset address count) := by
  intro memory latest first
  have holds : memory.Holds base size latest := zeroed_callAll_holds base size history
  refine ⟨holds, holds.call_ok_iff, ?_, holds.call_outside, ?_, ?_⟩
  · intro fits
    exact ⟨congrArg Prod.fst (holds.call fits), holds.getElem?_call fits⟩
  · intro address second value next reads
    exact holds.readDoubleword_words next reads
  · intro allocated
    exact boundedOffset_eq (holds.sameSize ▸ allocated)

/-- A doubleword that a shorter load overlaps, and a word that would pass the end. -/
theorem memory_refines_byte_map_of_overlap :
    let history : List MemoryCall :=
      [.serve (.writeDoubleword 0x4002 0x0102030405060708), .load 0x4005 [0xAA, 0xBB], .serve (.writeWord 0x400A 5)]
    let memory := (zeroed 0x4000 12).callAll history
    MemoryCall.Fits 0x4000 12 (.serve (.readWord 0x4004)) ∧
      memory.readWord 0x4004 = .ok 0x03AABB06 ∧
      ¬ MemoryCall.Fits 0x4000 12 (.serve (.writeWord 0x400A 5)) ∧
      memory.call (.serve (.writeWord 0x400A 5)) = (.error (.dataStorage 0x400A), memory) ∧
      (∃ high low, memory.readWord 0x4002 = .ok high ∧ memory.readWord 0x4006 = .ok low ∧
        (0x010203AABB060708 : Doubleword) = high ++ low) ∧
      memory.boundedOffset 0x3FFC 8 = memory.offset 0x3FFC 8 := by
  intro history memory
  obtain ⟨holds, -, inside, -, words, bounded⟩ :=
    memory_refines_byte_map 0x4000 12 history (.serve (.readWord 0x4004))
  obtain ⟨-, -, -, outside, -⟩ := memory_refines_byte_map 0x4000 12 history (.serve (.writeWord 0x400A 5))
  have read : memory.readWord 0x4004 = _ := (inside (by decide)).1
  refine ⟨by decide, ?_, by decide, outside (by decide), ?_, bounded (by decide) 0x3FFC 8⟩
  · rw [read]
    exact congrArg Except.ok (by decide +kernel)
  · have whole : memory.readDoubleword 0x4002 = .ok 0x010203AABB060708 :=
      (holds.readDoubleword (by decide)).trans (congrArg Except.ok (by decide +kernel))
    exact words 0x4002 0x4006 _ (by decide) whole

end Memory

end PowerFpu
