import PowerFpu.Architecture

/-! The memory bus: sized accesses and their replies.

A bus is any behaviour on a state of its own. It may fail an access with any
exception, which the processor hands on unchanged. -/

set_option autoImplicit false

namespace PowerFpu

inductive Access where
  | readWord (address : Word)
  | readDoubleword (address : Word)
  | writeWord (address : Word) (value : Word)
  | writeDoubleword (address : Word) (value : Doubleword)
  deriving DecidableEq, Repr

def Access.address : Access → Word
  | .readWord address | .readDoubleword address
  | .writeWord address _ | .writeDoubleword address _ => address

abbrev Access.Reply : Access → Type
  | .readWord _ => Word
  | .readDoubleword _ => Doubleword
  | .writeWord .. | .writeDoubleword .. => Unit

structure Bus (σ : Type) where
  serve : (access : Access) → σ → Except Exception access.Reply × σ

namespace Bus

variable {σ : Type}

/-- Keeps a list of every access made, failing ones too, in order. -/
def recorded (bus : Bus σ) : Bus (σ × List Access) where
  serve access state :=
    let (reply, next) := bus.serve access state.1
    (reply, next, state.2 ++ [access])

/-- Fails the next access when a fault is pending. The fault is used up and the
bus behind it does not see the access. -/
def faulting (bus : Bus σ) : Bus (σ × Option (Word → Exception)) where
  serve access state :=
    match state.2 with
    | some fault => (.error (fault access.address), state.1, none)
    | none =>
      let (reply, next) := bus.serve access state.1
      (reply, next, none)

end Bus

/-! Numbers as bytes, the most significant byte first. -/

abbrev Byte := BitVec 8

def bigEndianBytes : Nat → Nat → List Byte
  | 0, _ => []
  | count + 1, value => .ofNat 8 (value >>> (8 * count)) :: bigEndianBytes count value

def ofBigEndian (bytes : List Byte) : Nat :=
  bytes.foldl (fun value byte => value * 256 + byte.toNat) 0

@[simp] theorem length_bigEndianBytes (count value : Nat) : (bigEndianBytes count value).length = count := by
  induction count with
  | zero => rfl
  | succ count ih => simp [bigEndianBytes, ih]

theorem foldl_eq_ofBigEndian (bytes : List Byte) (start : Nat) :
    bytes.foldl (fun value byte => value * 256 + byte.toNat) start =
      start <<< (8 * bytes.length) + ofBigEndian bytes := by
  induction bytes generalizing start with
  | nil => simp [ofBigEndian]
  | cons byte rest ih =>
    rw [ofBigEndian, List.foldl_cons, List.foldl_cons, ih, ih (0 * 256 + byte.toNat), List.length_cons]
    simp only [Nat.shiftLeft_eq, Nat.zero_mul, Nat.zero_add, Nat.mul_add, Nat.pow_add]
    rw [Nat.add_mul, Nat.mul_assoc, Nat.mul_comm 256, Nat.add_assoc]

theorem ofBigEndian_cons (byte : Byte) (bytes : List Byte) :
    ofBigEndian (byte :: bytes) = byte.toNat <<< (8 * bytes.length) + ofBigEndian bytes := by
  simpa [ofBigEndian] using foldl_eq_ofBigEndian bytes byte.toNat

theorem ofBigEndian_bigEndianBytes (count value : Nat) :
    ofBigEndian (bigEndianBytes count value) = value % (1 <<< (8 * count)) := by
  induction count with
  | zero => simp [bigEndianBytes, ofBigEndian, Nat.mod_one]
  | succ count ih =>
    rw [bigEndianBytes, ofBigEndian_cons, ih, length_bigEndianBytes, BitVec.toNat_ofNat, Nat.mul_succ,
      Nat.shiftLeft_eq, Nat.shiftRight_eq_div_pow, Nat.one_shiftLeft, Nat.one_shiftLeft, Nat.pow_add,
      Nat.mod_mul, Nat.mul_comm, Nat.add_comm]

/-! Flat guest memory: a run of bytes at a base address.

An access outside the run is a data storage exception and changes nothing. -/

structure Memory where
  base : Word
  bytes : Array Byte
  deriving DecidableEq

namespace Memory

def zeroed (base : Word) (size : Nat) : Memory :=
  ⟨base, Array.replicate size 0⟩

/-- The index of the first byte of a range that lies inside the memory. -/
def offset (memory : Memory) (address : Word) (count : Nat) : Except Exception Nat :=
  -- Compared as numbers, so that no range wraps around the end of the addresses.
  if memory.base.toNat ≤ address.toNat ∧
      address.toNat - memory.base.toNat + count ≤ memory.bytes.size then
    .ok (address.toNat - memory.base.toNat)
  else
    .error (.dataStorage address)

def overwrite (bytes : Array Byte) (index : Nat) : List Byte → Array Byte
  | [] => bytes
  | byte :: rest => overwrite (bytes.setIfInBounds index byte) (index + 1) rest

def load (memory : Memory) (address : Word) (bytes : List Byte) : Except Exception Memory :=
  match memory.offset address bytes.length with
  | .ok index => .ok { memory with bytes := overwrite memory.bytes index bytes }
  | .error exception => .error exception

def read (memory : Memory) (address : Word) (count : Nat) : Except Exception (List Byte) :=
  match memory.offset address count with
  | .ok index => .ok (memory.bytes.extract index (index + count)).toList
  | .error exception => .error exception

def readWord (memory : Memory) (address : Word) : Except Exception Word :=
  (memory.read address 4).map fun bytes => .ofNat 32 (ofBigEndian bytes)

def readDoubleword (memory : Memory) (address : Word) : Except Exception Doubleword :=
  (memory.read address 8).map fun bytes => .ofNat 64 (ofBigEndian bytes)

def writeWord (memory : Memory) (address value : Word) : Except Exception Memory :=
  memory.load address (bigEndianBytes 4 value.toNat)

def writeDoubleword (memory : Memory) (address : Word) (value : Doubleword) : Except Exception Memory :=
  memory.load address (bigEndianBytes 8 value.toNat)

/-- The outcome of a write on the bus: a failed one leaves the memory as it was. -/
def settle (memory : Memory) : Except Exception Memory → Except Exception Unit × Memory
  | .ok written => (.ok (), written)
  | .error exception => (.error exception, memory)

def bus : Bus Memory where
  serve
    | .readWord address, memory => (memory.readWord address, memory)
    | .readDoubleword address, memory => (memory.readDoubleword address, memory)
    | .writeWord address value, memory => memory.settle (memory.writeWord address value)
    | .writeDoubleword address value, memory => memory.settle (memory.writeDoubleword address value)

@[simp] theorem size_overwrite (bytes : Array Byte) (index : Nat) (written : List Byte) :
    (overwrite bytes index written).size = bytes.size := by
  induction written generalizing bytes index with
  | nil => rfl
  | cons byte rest ih => simp [overwrite, ih]

end Memory

end PowerFpu
