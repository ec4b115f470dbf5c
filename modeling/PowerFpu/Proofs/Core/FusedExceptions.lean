import PowerFpu.Proofs.Core.Request
import PowerFpu.Proofs.Core.StickyExceptions
import PowerFpu.Proofs.Float.Negation

/-! The flags of the fused operations.

Their checks notice NaNs and nothing else. The second check, for the addend, sees an
infinite pair in no case: it is made for a NaN addend only, and then the sum is a NaN. -/

set_option autoImplicit false

namespace PowerFpu

open Fpscr (Has Agree recheckedBits)

namespace Fpscr

def unfused : Word :=
  ~~~(derived ||| recheckedBits ||| vxisi)

variable {mask bits other : Word}

theorem Agree.and_right (agree : Agree mask bits other) (kept : Word) :
    Agree mask (bits &&& kept) (other &&& kept) := by
  rw [Agree, BitVec.and_assoc, BitVec.and_assoc, BitVec.and_comm kept, ← BitVec.and_assoc, ← BitVec.and_assoc,
    agree]

theorem Agree.or_right (agree : Agree mask bits other) (set : Word) : Agree mask (bits ||| set) (other ||| set) := by
  rw [Agree, BitVec.and_or_distrib_right, BitVec.and_or_distrib_right, agree]

theorem not_has_clear {cleared : Word} (inside : mask &&& cleared = mask) : ¬ Has (bits &&& ~~~cleared) mask := by
  rw [Has, ← inside, BitVec.and_comm mask, ← BitVec.and_assoc, BitVec.and_assoc bits, BitVec.and_comm (~~~cleared),
    BitVec.and_not_self]
  simp

theorem agree_classifyOperands (check : OperandCheck) (a b : Doubleword) (bits : Word) :
    Agree (~~~summary) (classifyOperands check a b bits) ((bits &&& ~~~recheckedBits) ||| check.invalidBits a b) :=
  agree_summarize _

/-- Of two checks the second one decides, when the first can only set what each check clears. -/
theorem agree_classifyOperands_twice (first second : OperandCheck) (a b c d : Doubleword) (bits : Word)
    (cleared : first.invalidBits a b &&& ~~~recheckedBits = 0) :
    Agree (~~~summary) (classifyOperands second c d (classifyOperands first a b bits))
      ((bits &&& ~~~recheckedBits) ||| second.invalidBits c d) := by
  have checked := (agree_classifyOperands first a b bits).and_right (~~~recheckedBits)
  rw [BitVec.and_or_distrib_right, BitVec.and_assoc, BitVec.and_self, cleared, BitVec.ofNat_eq_ofNat,
    BitVec.or_zero] at checked
  exact (agree_classifyOperands second c d _).trans (checked.or_right _)

end Fpscr

theorem Number.add_nan (mode : RoundingMode) (x : Number) : x.add mode .nan = .nan := by
  cases x <;> rfl

namespace Double

variable {bits : Doubleword} (isNan : value bits = .nan)
include isNan

theorem value_fusedMultiplyAdd_of_nan (mode : RoundingMode) (a c : Doubleword) :
    value (fusedMultiplyAdd mode a c bits) = .nan := by
  rw [fusedMultiplyAdd, isNan, Number.add_nan]
  exact (value_ofNumber_eq_nan_iff mode).mpr rfl

theorem value_negate_of_nan : value (negate bits) = .nan := by
  rw [value_negate, isNan]
  rfl

end Double

namespace Fpscr

/-- What a fused operation sets for a NaN addend, and for two NaN factors beside a number. -/
def nanFlags (addend factors : Bool) : Word :=
  if addend then fx ||| vxisi else if factors then fx else 0

theorem has_nanFlags_vxisi : ∀ addend factors, Has (nanFlags addend factors) vxisi ↔ addend = true := by
  decide

theorem has_nanFlags_fx :
    ∀ addend factors, Has (nanFlags addend factors) fx ↔ addend = true ∨ factors = true := by
  decide

theorem nanFlags_apart (addend factors : Bool) {mask : Word} (apart : (fx ||| vxisi) &&& mask = 0) :
    nanFlags addend factors &&& mask = 0 := by
  have inside : nanFlags addend factors &&& (fx ||| vxisi) = nanFlags addend factors := by
    revert addend factors
    decide
  rw [← inside, BitVec.and_assoc, apart]
  exact BitVec.and_zero

end Fpscr

def Sources.fusedFlags (sources : Sources) : Word :=
  Fpscr.nanFlags (Double.isNan sources.b) (Double.isNan sources.a && Double.isNan sources.c)

namespace FusedKind

variable (kind : FusedKind) (precision : Precision) (mode : RoundingMode) {sources : Sources}

theorem value_apply_of_nan (isNan : Double.value sources.b = .nan) :
    Double.value (kind.apply precision mode sources) = .nan := by
  cases kind with
  | add | negatedSub => exact Double.value_fusedMultiplyAdd_of_nan isNan mode _ _
  | sub => exact Double.value_fusedMultiplyAdd_of_nan (Double.value_negate_of_nan isNan) mode _ _
  | negatedAdd =>
    apply Double.value_negate_of_nan
    rw [precision.value_deliver_eq_nan_iff]
    exact Double.value_fusedMultiplyAdd_of_nan isNan mode _ _

/-- The sum with a NaN is a NaN, so the check of the addend always comes to the same. -/
theorem check_invalidBits {a b : Doubleword} (isNan : Double.value a = .nan) (isNanSum : Double.value b = .nan) :
    kind.check.invalidBits a b = Fpscr.fx ||| Fpscr.vxisi := by
  cases kind <;> simp [check, OperandCheck.invalidBits, OperandCheck.bothAre, isNan, isNanSum, Number.isNan]

end FusedKind

namespace Arithmetic

variable (kind : FusedKind) (precision : Precision) (mode : RoundingMode) (sources : Sources) (bits : Word)

theorem agree_exceptionBits_fused :
    Agree (~~~Fpscr.summary) ((fused kind precision).exceptionBits mode sources bits)
      ((bits &&& ~~~recheckedBits) ||| sources.fusedFlags) := by
  have product : OperandCheck.mul.invalidBits sources.a sources.c =
      if Double.isNan sources.a && Double.isNan sources.c then Fpscr.fx else 0 := rfl
  change Agree _ (if Double.isNan sources.b then _ else _) _
  rw [Sources.fusedFlags, Fpscr.nanFlags]
  by_cases isNan : Double.isNan sources.b = true
  · have isNanValue := Number.isNan_iff.mp isNan
    have isNanSum := kind.value_apply_of_nan precision mode isNanValue
    have cleared : OperandCheck.mul.invalidBits sources.a sources.c &&& ~~~recheckedBits = 0 := by
      rw [product]
      split <;> decide
    rw [if_pos isNan, if_pos isNan, ← kind.check_invalidBits isNanValue isNanSum]
    exact Fpscr.agree_classifyOperands_twice _ _ _ _ _ _ bits cleared
  · rw [if_neg isNan, if_neg isNan, ← product]
    exact Fpscr.agree_classifyOperands _ _ _ bits

theorem agree_fpscrAfter_fused :
    Agree (~~~Fpscr.derived) ((fused kind precision).fpscrAfter mode sources bits)
      ((bits &&& ~~~recheckedBits) ||| sources.fusedFlags) := by
  have described : Agree (~~~Fpscr.derived) ((fused kind precision).fpscrAfter mode sources bits)
      ((fused kind precision).exceptionBits mode sources bits) := Fpscr.agree_classifyResult _ _ (by decide)
  exact described.trans ((agree_exceptionBits_fused kind precision mode sources bits).mono (by decide))

end Arithmetic

namespace Machine

variable {σ : Type}

/-- A fused operation completes, whatever its operands are. It sets VXISI for a NaN addend,
and FX for one and for two NaN factors; FX does not outlive the check, nor does VXIDI. All
else that it does not compute stays, so without these NaNs no flag is new. -/
theorem fused_exceptions (bus : Bus σ) (machine : Machine σ) {request : Request} {kind : FusedKind}
    {precision : Precision} {operands : Operands}
    (decoded : request.operation? = some (.arithmetic (.fused kind precision), operands)) :
    let step := machine.perform bus request
    let before := machine.core.fpscr.bits
    let after := step.machine.core.fpscr.bits
    let first := Double.isNan (machine.core.fpr.get operands.ra) = true
    let addend := Double.isNan (machine.core.fpr.get operands.rb) = true
    let second := Double.isNan (machine.core.fpr.get operands.rc) = true
    step.result = .ok () ∧
      (Has after Fpscr.vxisi ↔ Has before Fpscr.vxisi ∨ addend) ∧
      (Has after Fpscr.fx ↔ addend ∨ (first ∧ second)) ∧
      ¬ Has after Fpscr.vxidi ∧
      (∀ field ∈ [Fpscr.ox, Fpscr.ux, Fpscr.zx, Fpscr.xx, Fpscr.vxsnan, Fpscr.vxzdz, Fpscr.vximz, Fpscr.vxvc,
          Fpscr.vxsoft, Fpscr.vxsqrt, Fpscr.vxcvi, Fpscr.ve, Fpscr.oe, Fpscr.ue, Fpscr.ze, Fpscr.xe, Fpscr.ni,
          Fpscr.rn, Fpscr.fr, Fpscr.fi], after &&& field = before &&& field) ∧
      (¬ addend → ¬ (first ∧ second) →
        ∀ flag ∈ [Fpscr.fx, Fpscr.ox, Fpscr.ux, Fpscr.zx, Fpscr.xx, Fpscr.vxsnan, Fpscr.vxisi, Fpscr.vxidi,
          Fpscr.vxzdz, Fpscr.vximz, Fpscr.vxvc, Fpscr.vxsoft, Fpscr.vxsqrt, Fpscr.vxcvi],
          Has after flag → Has before flag) := by
  intro step before after first addend second
  let sources := machine.sources operands
  let mode := machine.core.fpscr.host.working machine.thread
  have yields : machine.outcome? (.arithmetic (.fused kind precision))
      (operands.seenBy (.arithmetic (.fused kind precision))) =
        some (.completed ((Arithmetic.fused kind precision).effect mode sources before)) := rfl
  obtain ⟨result, bits, -⟩ := perform_completed bus decoded yields
  have agree : Agree (~~~Fpscr.derived) after ((before &&& ~~~recheckedBits) ||| sources.fusedFlags) := by
    rw [show after = _ from bits]
    exact Arithmetic.agree_fpscrAfter_fused kind precision mode sources before
  have has {flag : Word} (inside : flag &&& ~~~Fpscr.derived = flag) :
      Has after flag ↔ Has (before &&& ~~~recheckedBits) flag ∨ Has sources.fusedFlags flag :=
    (agree.mono inside).has.trans Fpscr.has_or
  refine ⟨result, ?_, ?_, ?_, ?_, ?_⟩
  · rw [has (by decide), (Fpscr.agree_clear recheckedBits (by decide)).has, Sources.fusedFlags,
      Fpscr.has_nanFlags_vxisi]
    exact Iff.rfl
  · rw [has (by decide), Sources.fusedFlags, Fpscr.has_nanFlags_fx, Bool.and_eq_true]
    exact or_iff_right (Fpscr.not_has_clear (by decide))
  · rw [has (by decide)]
    exact not_or.mpr ⟨Fpscr.not_has_clear (by decide), fun set => set (Fpscr.nanFlags_apart _ _ (by decide))⟩
  · intro field member
    have inside : field &&& Fpscr.unfused = field := Fpscr.inside_of_all (by decide) member
    have spared : Agree Fpscr.unfused ((before &&& ~~~recheckedBits) ||| sources.fusedFlags) before :=
      (Fpscr.agree_set _ (Fpscr.nanFlags_apart _ _ (by decide))).trans (Fpscr.agree_clear recheckedBits (by decide))
    exact ((agree.mono (by decide)).trans spared).mono inside
  · intro isNumber factors flag member
    have inside : flag &&& ~~~Fpscr.derived = flag := Fpscr.inside_of_all (by decide) member
    have none : sources.fusedFlags = 0 := by
      rw [← Bool.and_eq_true] at factors
      exact (if_neg isNumber).trans (if_neg factors)
    rw [has inside, none]
    rintro (kept | set)
    · exact Fpscr.has_of_clear kept
    · exact absurd (by simp) set

/-- The difference of two infinities, from a word with FX and VXIDI, and a NaN subtrahend. -/
theorem fused_exceptions_of_infinities_and_nan :
    let fpr : Bank 64 := ((Bank.zero.set 1 0x7FF0000000000000).set 2 0x7FF0000000000000).set 3 0x3FF0000000000000
    let machine := resting 0xE0400080 (.native .nearest none) (fpr.set 5 0xFFF0000000000001)
    let infinite := (machine.perform Memory.bus (.word 0xFC8110F8)).machine.core.fpscr.bits
    let unordered := (machine.perform Memory.bus (.word 0xFC8128F8)).machine.core.fpscr.bits
    ¬ Has infinite Fpscr.fx ∧ ¬ Has infinite Fpscr.vxisi ∧ ¬ Has infinite Fpscr.vxidi ∧
      Has unordered Fpscr.fx ∧ Has unordered Fpscr.vxisi := by
  intro fpr machine infinite unordered
  have decoded : (Request.word 0xFC8110F8).operation? =
      some (.arithmetic (.fused .sub .double), .decode 0xFC8110F8) := by decide
  have decodedNan : (Request.word 0xFC8128F8).operation? =
      some (.arithmetic (.fused .sub .double), .decode 0xFC8128F8) := by decide
  obtain ⟨-, isi, fx, idi, -⟩ := fused_exceptions Memory.bus machine decoded
  obtain ⟨-, isiNan, fxNan, -⟩ := fused_exceptions Memory.bus machine decodedNan
  exact ⟨fx.not.mpr (by decide), isi.not.mpr (by decide), idi, fxNan.mpr (by decide), isiNan.mpr (by decide)⟩

end Machine

end PowerFpu
