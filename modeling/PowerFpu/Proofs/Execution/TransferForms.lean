import Mathlib.Algebra.Group.Int.Defs
import PowerFpu.Proofs.Core.Request

/-! What the forms of a load or a store have in common.

The access has the direction and the width of the transfer, whatever the form; the form
says where the offset comes from, and with it the address. -/

set_option autoImplicit false

namespace PowerFpu

def Access.isStore : Access → Bool
  | .readWord _ | .readDoubleword _ => false
  | .writeWord .. | .writeDoubleword .. => true

def Access.width : Access → Nat
  | .readWord _ | .writeWord .. => 32
  | .readDoubleword _ | .writeDoubleword .. => 64

def Precision.width : Precision → Nat
  | .single => 32
  | .double => 64

namespace Transfer

def isStore : Transfer → Bool
  | .load .. => false
  | .store .. | .storeInteger => true

def width : Transfer → Nat
  | .load precision _ | .store precision _ => precision.width
  | .storeInteger => 32

def floating (stores : Bool) (precision : Precision) (form : AddressForm) : Transfer :=
  if stores then .store precision form else .load precision form

section Access
variable (op : Transfer) (mode : RoundingMode) (address : Word) (source : Doubleword)

@[simp] theorem access_address : (op.access mode address source).address = address := by
  rcases op with ⟨_ | _, _⟩ | ⟨_ | _, _⟩ | _ <;> rfl

@[simp] theorem access_isStore : (op.access mode address source).isStore = op.isStore := by
  rcases op with ⟨_ | _, _⟩ | ⟨_ | _, _⟩ | _ <;> rfl

@[simp] theorem access_width : (op.access mode address source).width = op.width := by
  rcases op with ⟨_ | _, _⟩ | ⟨_ | _, _⟩ | _ <;> rfl

variable {σ : Type} (bus : Bus σ) (state : σ)

theorem perform_reply :
    (op.perform bus mode address source state).1.map (fun _ => ()) =
      (bus.serve (op.access mode address source) state).1.map fun _ => () := by
  have twice {α β : Type} (change : α → β) (reply : Except Exception α) :
      (reply.map change).map (fun _ => ()) = reply.map fun _ => () := by
    cases reply <;> rfl
  rcases op with ⟨_ | _, _⟩ | ⟨_ | _, _⟩ | _ <;> exact twice _ _

theorem isStore_of_loaded {value : Doubleword} {next : σ}
    (served : op.perform bus mode address source state = (.ok (some value), next)) : op.isStore = false := by
  have nothing {α : Type} (reply : Except Exception α) : reply.map (fun _ => none) ≠ .ok (some value) := by
    cases reply with
    | error exception => exact nofun
    | ok value => exact nofun
  have brought := congrArg Prod.fst served
  rcases op with ⟨_ | _, _⟩ | ⟨_ | _, _⟩ | _
  · rfl
  · rfl
  · exact absurd brought (nothing _)
  · exact absurd brought (nothing _)
  · exact absurd brought (nothing _)

end Access

section Form
variable (stores : Bool) (precision : Precision) (form other : AddressForm)

@[simp] theorem form_floating : (floating stores precision form).form = form := by
  cases stores <;> rfl

theorem access_floating : (floating stores precision form).access = (floating stores precision other).access := by
  cases stores <;> cases precision <;> rfl

theorem perform_floating {σ : Type} (bus : Bus σ) :
    (floating stores precision form).perform bus = (floating stores precision other).perform bus := by
  cases stores <;> cases precision <;> rfl

end Form

end Transfer

/-- What is added to the base: a register, number 0 like any other, or the displacement. -/
def Operands.offset (operands : Operands) (gpr : Bank 32) (indexed : Bool) : Word :=
  if indexed then gpr.get operands.rb else operands.d

namespace AddressForm

variable {form : AddressForm} {operands : Operands} {gpr : Bank 32}

/-- The address before it wraps. Register 0 is a zero as a base, and the displacement is signed. -/
def sum (form : AddressForm) (operands : Operands) (gpr : Bank 32) : Int :=
  (if operands.ra = 0 then 0 else ((gpr.get operands.ra).toNat : Int)) +
    if form.indexed then ((gpr.get operands.rb).toNat : Int) else operands.d.toInt

theorem effective_of_based (based : operands.ra ≠ 0) :
    form.effective operands gpr = .ok (gpr.get operands.ra + operands.offset gpr form.indexed) := by
  have noBase : (operands.ra == 0) = false := beq_false_of_ne based
  simp only [effective, noBase, Bool.and_false, Bool.false_eq_true, if_false, if_neg based]
  rfl

theorem effective_addressed {address : Word} (addressed : form.effective operands gpr = .ok address) :
    ¬(form.update = true ∧ operands.ra = 0) ∧ (address.toNat : Int) = form.sum operands gpr % 2 ^ 32 := by
  unfold effective at addressed
  split at addressed
  next => cases addressed
  next legal =>
    cases addressed
    refine ⟨by simpa using legal, ?_⟩
    have base : ((if operands.ra = 0 then 0 else gpr.get operands.ra : Word).toNat : Int) =
        if operands.ra = 0 then 0 else ((gpr.get operands.ra).toNat : Int) := by
      split <;> rfl
    rw [sum, BitVec.toNat_add, Int.natCast_emod, Int.natCast_add, base]
    -- The displacement is a signed number, which wraps to the word that is added.
    cases form.indexed with
    | true => rfl
    | false =>
      have wraps : operands.d.toInt % 2 ^ 32 = (operands.d.toNat : Int) % 2 ^ 32 := by
        rw [BitVec.toInt_eq_toNat_bmod]
        exact Int.bmod_emod
      simp only [Bool.false_eq_true, if_false]
      rw [Int.add_emod _ operands.d.toInt, wraps, ← Int.add_emod]
      rfl

theorem effective_congr {other : AddressForm} {operandsOther : Operands} (update : form.update = other.update)
    (ra : operands.ra = operandsOther.ra)
    (offset : operands.offset gpr form.indexed = operandsOther.offset gpr other.indexed) :
    form.effective operands gpr = other.effective operandsOther gpr := by
  unfold Operands.offset at offset
  simp only [effective, update, ra, offset]

end AddressForm

theorem Operands.toInt_decode_d (inst : Word) : (Operands.decode inst).d.toInt = (inst.extractLsb' 0 16).toInt :=
  BitVec.toInt_signExtend_of_le (by decide)

end PowerFpu
