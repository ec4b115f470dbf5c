import PowerFpu.Bus

/-! Flat memory as a map from addresses to bytes.

An address is a number here, so that no range wraps. A read depends on the bytes it
covers, a write replaces the bytes it covers, and neither moves the memory. -/

set_option autoImplicit false

namespace PowerFpu

theorem ofNat_ofBigEndian_bigEndianBytes {width : Nat} (count : Nat) (whole : width = 8 * count) (value : BitVec width) :
    BitVec.ofNat width (ofBigEndian (bigEndianBytes count value.toNat)) = value := by
  rw [ofBigEndian_bigEndianBytes, Nat.one_shiftLeft, ← whole, Nat.mod_eq_of_lt value.isLt, BitVec.ofNat_toNat,
    BitVec.setWidth_eq]

def Access.Writes (access : Access) (place : Nat) : Prop :=
  match access with
  | .readWord _ | .readDoubleword _ => False
  | .writeWord address _ => address.toNat ≤ place ∧ place < address.toNat + 4
  | .writeDoubleword address _ => address.toNat ≤ place ∧ place < address.toNat + 8

instance (access : Access) (place : Nat) : Decidable (access.Writes place) :=
  match access with
  | .readWord _ | .readDoubleword _ => inferInstanceAs (Decidable False)
  | .writeWord .. | .writeDoubleword .. => inferInstanceAs (Decidable (_ ∧ _))

namespace Memory

def byte? (memory : Memory) (place : Nat) : Option Byte :=
  if memory.base.toNat ≤ place then memory.bytes[place - memory.base.toNat]? else none

structure SameExtent (memory other : Memory) : Prop where
  base : other.base = memory.base
  size : other.bytes.size = memory.bytes.size

theorem getElem?_overwrite (bytes : Array Byte) (index : Nat) (written : List Byte) (place : Nat)
    (fits : index + written.length ≤ bytes.size) :
    (overwrite bytes index written)[place]? =
      if index ≤ place ∧ place < index + written.length then written[place - index]? else bytes[place]? := by
  induction written generalizing bytes index with
  | nil =>
    have empty : ¬ (index ≤ place ∧ place < index + ([] : List Byte).length) := by
      rw [List.length_nil]
      omega
    rw [overwrite, if_neg empty]
  | cons byte rest ih =>
    rw [List.length_cons] at fits ⊢
    rw [overwrite, ih _ _ (by rw [Array.size_setIfInBounds]; omega), Array.getElem?_setIfInBounds]
    rcases Nat.lt_trichotomy place index with before | same | after
    · rw [if_neg (by omega), if_neg (by omega), if_neg (by omega)]
    · subst same
      rw [if_neg (by omega), if_pos rfl, if_pos (by omega), if_pos (by omega), Nat.sub_self]
      rfl
    · have next : place - index = place - (index + 1) + 1 := by omega
      rw [if_neg (Nat.ne_of_lt after), next, List.getElem?_cons_succ]
      by_cases inside : place < index + (rest.length + 1)
      · rw [if_pos (by omega), if_pos (by omega)]
      · rw [if_neg (by omega), if_neg (by omega)]

section Load
variable {memory next : Memory} {address : Word} {written : List Byte}

theorem offset_eq_ok {count index : Nat} (within : memory.offset address count = .ok index) :
    memory.base.toNat + index = address.toNat ∧ index + count ≤ memory.bytes.size := by
  unfold offset at within
  split at within
  next inside =>
    cases within
    omega
  next => cases within

theorem SameExtent.offset {other : Memory} (same : SameExtent memory other) (address : Word) (count : Nat) :
    other.offset address count = memory.offset address count := by
  rw [Memory.offset, Memory.offset, same.base, same.size]

theorem load_eq_ok (loads : memory.load address written = .ok next) :
    ∃ index, memory.offset address written.length = .ok index ∧
      next = { memory with bytes := overwrite memory.bytes index written } := by
  unfold load at loads
  split at loads
  next index within =>
    cases loads
    exact ⟨index, within, rfl⟩
  next => cases loads

theorem load_sameExtent (loads : memory.load address written = .ok next) : SameExtent memory next := by
  obtain ⟨index, -, rfl⟩ := load_eq_ok loads
  exact ⟨rfl, size_overwrite _ _ _⟩

/-- A write replaces the bytes it covers and no others. -/
theorem byte?_load (loads : memory.load address written = .ok next) (place : Nat) :
    next.byte? place =
      if address.toNat ≤ place ∧ place < address.toNat + written.length
        then written[place - address.toNat]? else memory.byte? place := by
  obtain ⟨index, within, rfl⟩ := load_eq_ok loads
  obtain ⟨start, fits⟩ := offset_eq_ok within
  simp only [byte?, getElem?_overwrite _ _ _ _ fits]
  by_cases low : memory.base.toNat ≤ place
  · have same : place - memory.base.toNat - index = place - address.toNat := by omega
    rw [if_pos low, if_pos low, same]
    by_cases covered : address.toNat ≤ place ∧ place < address.toNat + written.length
    · rw [if_pos covered, if_pos (by omega)]
    · rw [if_neg covered, if_neg (by omega)]
  · rw [if_neg low, if_neg low, if_neg (by omega)]

end Load

section Read
variable {memory other : Memory} {address : Word} {count : Nat} {bytes : List Byte}

theorem read_eq_ok {index : Nat} (within : memory.offset address count = .ok index)
    (length : bytes.length = count) (covers : ∀ i < count, bytes[i]? = memory.byte? (address.toNat + i)) :
    memory.read address count = .ok bytes := by
  obtain ⟨start, fits⟩ := offset_eq_ok within
  simp only [read, within]
  refine congrArg Except.ok (List.ext_getElem? fun i => ?_)
  rw [Array.getElem?_toList]
  by_cases inside : i < count
  · have here : address.toNat + i - memory.base.toNat = index + i := by omega
    rw [covers i inside, byte?, if_pos (by omega), here, Array.getElem?_extract, if_pos (by omega)]
  · rw [List.getElem?_eq_none (by omega), Array.getElem?_eq_none (by rw [Array.size_extract]; omega)]

theorem read_congr (extent : SameExtent memory other)
    (same : ∀ i < count, other.byte? (address.toNat + i) = memory.byte? (address.toNat + i)) :
    other.read address count = memory.read address count := by
  cases within : memory.offset address count with
  | error exception => simp only [read, extent.offset, within]
  | ok index =>
    obtain ⟨start, fits⟩ := offset_eq_ok within
    have reads : memory.read address count = .ok (memory.bytes.extract index (index + count)).toList := by
      simp only [read, within]
    rw [reads]
    refine read_eq_ok ((extent.offset address count).trans within) ?_ fun i inside => ?_
    · rw [Array.length_toList, Array.size_extract]
      omega
    · have here : address.toNat + i - memory.base.toNat = index + i := by omega
      rw [same i inside, byte?, if_pos (by omega), here, Array.getElem?_toList, Array.getElem?_extract,
        if_pos (by omega)]

theorem read_load (loads : memory.load address bytes = .ok other) :
    other.read address bytes.length = .ok bytes := by
  obtain ⟨index, within, -⟩ := load_eq_ok loads
  refine read_eq_ok (((load_sameExtent loads).offset _ _).trans within) rfl fun i inside => ?_
  rw [byte?_load loads, if_pos (by omega), Nat.add_sub_cancel_left]

theorem readWord_writeWord {value : Word} (writes : memory.writeWord address value = .ok other) :
    other.readWord address = .ok value := by
  have reads := read_load writes
  rw [length_bigEndianBytes] at reads
  rw [readWord, reads]
  exact congrArg Except.ok (ofNat_ofBigEndian_bigEndianBytes 4 rfl value)

theorem readDoubleword_writeDoubleword {value : Doubleword}
    (writes : memory.writeDoubleword address value = .ok other) : other.readDoubleword address = .ok value := by
  have reads := read_load writes
  rw [length_bigEndianBytes] at reads
  rw [readDoubleword, reads]
  exact congrArg Except.ok (ofNat_ofBigEndian_bigEndianBytes 8 rfl value)

end Read

section Serve
variable {memory : Memory} {access : Access}

theorem settle_sameExtent (memory : Memory) (address : Word) (written : List Byte) :
    SameExtent memory (memory.settle (memory.load address written)).2 := by
  cases loads : memory.load address written with
  | ok next => exact load_sameExtent loads
  | error exception => exact ⟨rfl, rfl⟩

theorem byte?_settle {address : Word} {written : List Byte} {place : Nat}
    (outside : ¬ (address.toNat ≤ place ∧ place < address.toNat + written.length)) :
    (memory.settle (memory.load address written)).2.byte? place = memory.byte? place := by
  cases loads : memory.load address written with
  | ok next => exact (byte?_load loads place).trans (if_neg outside)
  | error exception => rfl

theorem serve_sameExtent (access : Access) (memory : Memory) : SameExtent memory (bus.serve access memory).2 := by
  cases access with
  | readWord address | readDoubleword address => exact ⟨rfl, rfl⟩
  | writeWord address value | writeDoubleword address value => exact settle_sameExtent ..

theorem byte?_serve {place : Nat} (spares : ¬ access.Writes place) :
    (bus.serve access memory).2.byte? place = memory.byte? place := by
  cases access with
  | readWord address | readDoubleword address => rfl
  | writeWord address value => exact byte?_settle (by rw [length_bigEndianBytes]; exact spares)
  | writeDoubleword address value => exact byte?_settle (by rw [length_bigEndianBytes]; exact spares)

theorem read_serve {address : Word} {count : Nat} (spares : ∀ i < count, ¬ access.Writes (address.toNat + i)) :
    (bus.serve access memory).2.read address count = memory.read address count :=
  read_congr (serve_sameExtent access memory) fun i inside => byte?_serve (spares i inside)

theorem read_foldl {address : Word} {count : Nat} (accesses : List Access) (memory : Memory)
    (spare : ∀ access ∈ accesses, ∀ i < count, ¬ access.Writes (address.toNat + i)) :
    (accesses.foldl (fun memory access => (bus.serve access memory).2) memory).read address count =
      memory.read address count := by
  induction accesses generalizing memory with
  | nil => rfl
  | cons access accesses ih =>
    obtain ⟨first, rest⟩ := List.forall_mem_cons.mp spare
    exact (ih _ rest).trans (read_serve first)

end Serve

end Memory

end PowerFpu
