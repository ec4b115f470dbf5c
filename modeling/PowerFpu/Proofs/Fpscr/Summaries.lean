import PowerFpu.Execution

/-! When the summary bits of an FPSCR word agree with its causes and enables.

`Summarized` spells the two summaries out bit by bit. Recomputing establishes it
for every word; the changes that recompute nothing keep it, because they touch no
bit that it reads. -/

set_option autoImplicit false

namespace PowerFpu

namespace Fpscr

/-- Whether some bit of the mask is set. -/
def Has (bits mask : Word) : Prop :=
  bits &&& mask ≠ 0

/-- Whether two words agree in every bit of the mask. -/
def Agree (mask bits other : Word) : Prop :=
  bits &&& mask = other &&& mask

instance (bits mask : Word) : Decidable (Has bits mask) :=
  inferInstanceAs (Decidable (_ ≠ _))

instance (mask bits other : Word) : Decidable (Agree mask bits other) :=
  inferInstanceAs (Decidable (_ = _))

section Masks
variable {bits other mask within : Word}

theorem has_or_mask (first second : Word) : Has bits (first ||| second) ↔ Has bits first ∨ Has bits second := by
  simp only [Has, BitVec.and_or_distrib_left, BitVec.ofNat_eq_ofNat, ne_eq, BitVec.or_eq_zero_iff]
  exact Decidable.not_and_iff_not_or_not

theorem has_or : Has (bits ||| other) mask ↔ Has bits mask ∨ Has other mask := by
  simp only [Has, BitVec.and_or_distrib_right, BitVec.ofNat_eq_ofNat, ne_eq, BitVec.or_eq_zero_iff]
  exact Decidable.not_and_iff_not_or_not

theorem Agree.mono (agree : Agree within bits other) (inside : mask &&& within = mask) : Agree mask bits other := by
  unfold Agree at *
  rw [← inside, BitVec.and_comm mask, ← BitVec.and_assoc, ← BitVec.and_assoc, agree]

theorem Agree.has (agree : Agree mask bits other) : Has bits mask ↔ Has other mask := by
  rw [Has, Has, agree]

theorem Agree.symm (agree : Agree mask bits other) : Agree mask other bits :=
  Eq.symm agree

theorem Agree.trans {last : Word} (first : Agree mask bits other) (second : Agree mask other last) :
    Agree mask bits last :=
  Eq.trans first second

theorem agree_clear (cleared : Word) (apart : cleared &&& mask = 0) : Agree mask (bits &&& ~~~cleared) bits := by
  have kept : ~~~cleared &&& mask = mask := by
    ext i bound
    have bit : (cleared &&& mask)[i] = (0#32)[i] := congrArg (·[i]) apart
    rw [BitVec.getElem_and, BitVec.getElem_zero] at bit
    rw [BitVec.getElem_and, BitVec.getElem_not]
    cases clearedBit : cleared[i] <;> cases maskBit : mask[i] <;> simp_all
  rw [Agree, BitVec.and_assoc, kept]

theorem agree_set (set : Word) (apart : set &&& mask = 0) : Agree mask (bits ||| set) bits := by
  rw [Agree, BitVec.and_or_distrib_right, apart, BitVec.ofNat_eq_ofNat, BitVec.or_zero]

end Masks

structure Summarized (bits : Word) : Prop where
  vx_iff : Has bits vx ↔
    Has bits vxsnan ∨ Has bits vxisi ∨ Has bits vxidi ∨ Has bits vxzdz ∨ Has bits vximz ∨
      Has bits vxvc ∨ Has bits vxsoft ∨ Has bits vxsqrt ∨ Has bits vxcvi
  fex_iff : Has bits fex ↔
    (Has bits vx ∧ Has bits ve) ∨ (Has bits ox ∧ Has bits oe) ∨ (Has bits ux ∧ Has bits ue) ∨
      (Has bits zx ∧ Has bits ze) ∨ (Has bits xx ∧ Has bits xe)

def summarized : Word :=
  summary ||| enabledCauses ||| invalidCauses ||| (ve ||| oe ||| ue ||| ze ||| xe)

theorem has_invalidCauses (bits : Word) :
    Has bits invalidCauses ↔
      Has bits vxsnan ∨ Has bits vxisi ∨ Has bits vxidi ∨ Has bits vxzdz ∨ Has bits vximz ∨
        Has bits vxvc ∨ Has bits vxsoft ∨ Has bits vxsqrt ∨ Has bits vxcvi := by
  simp only [invalidCauses, has_or_mask, or_assoc]

theorem has_twoPow (bits : Word) {i : Nat} (bound : i < 32) :
    Has bits (BitVec.twoPow 32 i) ↔ bits.getLsbD i = true := by
  have nonzero : BitVec.twoPow 32 i ≠ 0#32 := by
    intro zero
    have bit := congrArg (·.getLsbD i) zero
    simp [bound] at bit
  rw [Has, BitVec.and_twoPow]
  cases bits.getLsbD i <;> simp [nonzero]

/-- The shift brings an enable to the place of its cause. -/
theorem has_enabled (bits : Word) {i : Nat} (low : i < 10) :
    Has (bits &&& (bits <<< 22)) (BitVec.twoPow 32 (i + 22)) ↔
      Has bits (BitVec.twoPow 32 (i + 22)) ∧ Has bits (BitVec.twoPow 32 i) := by
  rw [has_twoPow _ (by omega), has_twoPow _ (by omega), has_twoPow _ (by omega), BitVec.getLsbD_and,
    BitVec.getLsbD_shiftLeft, Bool.and_eq_true]
  simp [show i + 22 < 32 by omega]

theorem has_enabledCauses (bits : Word) :
    Has (bits &&& (bits <<< 22)) enabledCauses ↔
      (Has bits vx ∧ Has bits ve) ∨ (Has bits ox ∧ Has bits oe) ∨ (Has bits ux ∧ Has bits ue) ∨
        (Has bits zx ∧ Has bits ze) ∨ (Has bits xx ∧ Has bits xe) := by
  simp only [enabledCauses, has_or_mask, or_assoc]
  exact or_congr (has_enabled bits (i := 7) (by decide)) <| or_congr (has_enabled bits (i := 6) (by decide)) <|
    or_congr (has_enabled bits (i := 5) (by decide)) <| or_congr (has_enabled bits (i := 4) (by decide)) <|
      has_enabled bits (i := 3) (by decide)

theorem Summarized.of_agree {bits other : Word} (agree : Agree summarized bits other)
    (holds : Summarized bits) : Summarized other := by
  have same (mask : Word) (inside : mask &&& summarized = mask) : Has bits mask ↔ Has other mask :=
    (agree.mono inside).has
  obtain ⟨vxHolds, fexHolds⟩ := holds
  constructor
  · rw [← has_invalidCauses] at vxHolds ⊢
    rwa [← same vx (by decide), ← same invalidCauses (by decide)]
  · rw [← same fex (by decide), ← same vx (by decide), ← same ve (by decide),
      ← same ox (by decide), ← same oe (by decide), ← same ux (by decide),
      ← same ue (by decide), ← same zx (by decide), ← same ze (by decide),
      ← same xx (by decide), ← same xe (by decide)]
    exact fexHolds

/-! Recomputing. -/

theorem agree_summarizeVx {mask : Word} (bits : Word) (apart : vx &&& mask = 0) :
    Agree mask (summarizeVx bits) bits := by
  unfold summarizeVx
  split
  · exact agree_clear vx apart
  · exact agree_set vx apart

theorem agree_summarizeFex {mask : Word} (bits : Word) (apart : fex &&& mask = 0) :
    Agree mask (summarizeFex bits) bits := by
  unfold summarizeFex
  split
  · exact agree_clear fex apart
  · exact agree_set fex apart

theorem has_summarizeVx (bits : Word) : Has (summarizeVx bits) vx ↔ Has bits invalidCauses := by
  unfold summarizeVx
  split
  next none => exact iff_of_false (fun set => set (by rw [BitVec.and_assoc]; simp)) (fun some => some none)
  next some => exact iff_of_true (has_or.mpr (.inr (by decide))) some

theorem has_summarizeFex (bits : Word) :
    Has (summarizeFex bits) fex ↔ Has (bits &&& (bits <<< 22)) enabledCauses := by
  unfold summarizeFex
  split
  next none => exact iff_of_false (fun set => set (by rw [BitVec.and_assoc]; simp)) (fun some => some none)
  next some => exact iff_of_true (has_or.mpr (.inr (by decide))) some

theorem summarizeFex_summarized {bits : Word} (right : Has bits vx ↔ Has bits invalidCauses) :
    Summarized (summarizeFex bits) := by
  have same (mask : Word) (apart : fex &&& mask = 0) : Has (summarizeFex bits) mask ↔ Has bits mask :=
    (agree_summarizeFex bits apart).has
  constructor
  · rw [← has_invalidCauses, same vx (by decide), same invalidCauses (by decide)]
    exact right
  · rw [has_summarizeFex, has_enabledCauses, same vx (by decide), same ve (by decide),
      same ox (by decide), same oe (by decide), same ux (by decide),
      same ue (by decide), same zx (by decide), same ze (by decide),
      same xx (by decide), same xe (by decide)]

theorem summarize_summarized (bits : Word) : Summarized (summarize bits) := by
  apply summarizeFex_summarized
  rw [has_summarizeVx]
  exact ((agree_summarizeVx bits (by decide)).has).symm

/-! The writes that recompute. -/

theorem classifyOperands_summarized (check : OperandCheck) (a b : Doubleword) (bits : Word) :
    Summarized (classifyOperands check a b bits) :=
  summarize_summarized _

theorem writeFields_summarized (selection : BitVec 8) (source bits : Word) :
    Summarized (writeFields selection source bits) :=
  summarize_summarized _

theorem drainField_summarized (field : FieldIndex) (bits : Word) : Summarized (drainField field bits) :=
  summarize_summarized _

theorem writeImmediate_summarized {field : FieldIndex} (writable : field ≠ 0) (value : BitVec 4) (bits : Word) :
    Summarized (writeImmediate field value bits) := by
  rw [writeImmediate, if_neg writable]
  exact summarize_summarized _

theorem bitMask_apart {number : BitVec 5} (notFex : number ≠ 1) (notVx : number ≠ 2) :
    bitMask number &&& summary = 0 := by
  revert number
  decide

theorem writeBit_summarized {number : BitVec 5} (notFex : number ≠ 1) (notVx : number ≠ 2) (value : Bool)
    (bits : Word) : Summarized (writeBit number value bits) := by
  rw [writeBit, if_pos (bitMask_apart notFex notVx)]
  exact summarize_summarized _

/-! The writes that do not. -/

theorem resultBits_within (result : Number) : resultBits result &&& fprf = resultBits result := by
  cases result with
  | nan => decide
  | infinity negative => cases negative <;> decide
  | finite negative significand exponent =>
    simp only [resultBits]
    split
    · decide
    · cases negative <;> decide

theorem resultBits_apart (result : Number) {mask : Word} (apart : fprf &&& mask = 0) :
    resultBits result &&& mask = 0 := by
  rw [← resultBits_within, BitVec.and_assoc, apart]
  exact BitVec.and_zero

theorem agree_classifyResult (result : Doubleword) (bits : Word) {mask : Word} (apart : fprf &&& mask = 0) :
    Agree mask (classifyResult result bits) bits :=
  (agree_set _ (resultBits_apart _ apart)).trans (agree_clear fprf apart)

theorem classifyResult_summarized {bits : Word} (result : Doubleword) (holds : Summarized bits) :
    Summarized (classifyResult result bits) :=
  holds.of_agree (agree_classifyResult result bits (by decide)).symm

theorem code_within (code : BitVec 4) : (code.setWidth 32 <<< 12) &&& fpcc = code.setWidth 32 <<< 12 := by
  revert code
  decide

theorem code_apart (code : BitVec 4) {mask : Word} (apart : fpcc &&& mask = 0) :
    (code.setWidth 32 <<< 12) &&& mask = 0 := by
  rw [← code_within, BitVec.and_assoc, apart]
  exact BitVec.and_zero

theorem agree_compareEffect (target : FieldIndex) (sources : Sources) (bits : Word) {mask : Word}
    (apart : fpcc &&& mask = 0) : Agree mask (compareEffect target sources bits).fpscr bits :=
  (agree_set _ (code_apart _ apart)).trans (agree_clear fpcc apart)

theorem compareEffect_summarized {bits : Word} (target : FieldIndex) (sources : Sources)
    (holds : Summarized bits) : Summarized (compareEffect target sources bits).fpscr :=
  holds.of_agree (agree_compareEffect target sources bits (by decide)).symm

end Fpscr

/-! Conversions of inputs that have no 32-bit integer.

Such a conversion clears FR and FI and sets VX with its causes. It traps exactly
when VE is on; only then FEX is recomputed, and with VE off it need not be. -/

namespace Conversion

open Fpscr

theorem agree_invalidBits {mask : Word} (x : Doubleword) (bits : Word)
    (apart : (fr ||| fi ||| vx ||| vxcvi ||| vxsnan) &&& mask = 0) : Agree mask (invalidBits x bits) bits := by
  simp only [BitVec.and_or_distrib_right, BitVec.ofNat_eq_ofNat, BitVec.or_eq_zero_iff] at apart
  obtain ⟨⟨⟨⟨frApart, fiApart⟩, vxApart⟩, vxcviApart⟩, vxsnanApart⟩ := apart
  refine (agree_set _ ?_).trans ((agree_set _ ?_).trans (agree_clear _ ?_))
  · split
    · exact vxsnanApart
    · exact BitVec.zero_and
  · rw [BitVec.and_or_distrib_right, vxApart, vxcviApart]
    rfl
  · rw [BitVec.and_or_distrib_right, frApart, fiApart]
    rfl

theorem invalidBits_has (x : Doubleword) (bits : Word) {mask : Word} (set : Has (vx ||| vxcvi) mask) :
    Has (invalidBits x bits) mask :=
  has_or.mpr (.inl (has_or.mpr (.inr set)))

theorem invalidBits_vx (x : Doubleword) (bits : Word) :
    Has (invalidBits x bits) vx ↔ Has (invalidBits x bits) invalidCauses :=
  iff_of_true (invalidBits_has x bits (by decide)) (invalidBits_has x bits (by decide))

/-- With VE off VX is not enabled, so FEX need not be recomputed. -/
theorem invalidBits_summarized {bits : Word} (x : Doubleword) (disabled : ¬ Has (invalidBits x bits) ve)
    (holds : Summarized bits) : Summarized (invalidBits x bits) := by
  have same (mask : Word) (apart : (fr ||| fi ||| vx ||| vxcvi ||| vxsnan) &&& mask = 0) :
      Has (invalidBits x bits) mask ↔ Has bits mask :=
    (agree_invalidBits x bits apart).has
  have disabledBefore : ¬ Has bits ve := by rwa [← same ve (by decide)]
  constructor
  · rw [← has_invalidCauses]
    exact invalidBits_vx x bits
  · rw [same fex (by decide), holds.fex_iff, same ve (by decide),
      same ox (by decide), same oe (by decide), same ux (by decide),
      same ue (by decide), same zx (by decide), same ze (by decide),
      same xx (by decide), same xe (by decide)]
    simp only [disabledBefore, and_false]

theorem invalid_completed {x limit : Doubleword} {bits : Word} {effect : Effect}
    (completes : invalid x limit bits = .completed effect) :
    ¬ Has (invalidBits x bits) ve ∧ effect = ⟨invalidBits x bits, some limit, none⟩ := by
  unfold invalid at completes
  simp only at completes
  split at completes
  next disabled =>
    cases completes
    exact ⟨fun enabled => enabled disabled, rfl⟩
  next => cases completes

theorem invalid_trapped {x limit : Doubleword} {bits trap : Word} (traps : invalid x limit bits = .trapped trap) :
    Has (invalidBits x bits) ve ∧ trap = summarizeFex (invalidBits x bits) := by
  unfold invalid at traps
  simp only at traps
  split at traps
  next => cases traps
  next enabled =>
    cases traps
    exact ⟨enabled, rfl⟩

theorem has_ve_invalidBits {x : Doubleword} {bits : Word} : Has (invalidBits x bits) ve ↔ Has bits ve :=
  (agree_invalidBits x bits (by decide)).has

/-- With VE on the trap adds FEX, since VX is set. -/
theorem summarizeFex_invalidBits {x : Doubleword} {bits : Word} (enabled : Has bits ve) :
    summarizeFex (invalidBits x bits) = invalidBits x bits ||| fex := by
  have some : Has (invalidBits x bits &&& (invalidBits x bits <<< 22)) enabledCauses :=
    (has_enabledCauses _).mpr (.inl ⟨invalidBits_has _ _ (by decide), has_ve_invalidBits.mpr enabled⟩)
  rw [summarizeFex, if_neg some]

theorem invalid_of_enabled {x : Doubleword} (limit : Doubleword) {bits : Word} (enabled : Has bits ve) :
    invalid x limit bits = .trapped (invalidBits x bits ||| fex) := by
  rw [← summarizeFex_invalidBits enabled]
  exact if_neg (has_ve_invalidBits.mpr enabled)

theorem invalid_of_disabled {x : Doubleword} (limit : Doubleword) {bits : Word} (disabled : ¬ Has bits ve) :
    invalid x limit bits = .completed ⟨invalidBits x bits, some limit, none⟩ :=
  if_pos (Decidable.not_not.mp fun enabled => disabled (has_ve_invalidBits.mp enabled))

theorem toIntegerOutcome_cases (mode host : RoundingMode) (x : Doubleword) (bits : Word) :
    (∃ limit, toIntegerOutcome mode host x bits = invalid x limit bits) ∨
      ∃ result, toIntegerOutcome mode host x bits = .completed ⟨bits, some result, none⟩ := by
  simp only [toIntegerOutcome]
  split
  · exact .inl ⟨_, rfl⟩
  · split
    · exact .inl ⟨_, rfl⟩
    · exact .inr ⟨_, rfl⟩

/-- Only a conversion to an integer traps, and VE was set before it. The trap adds
FEX to the flags of the conversion. -/
theorem trapped_cases {op : Conversion} {host : RoundingMode} {sources : Sources} {bits trap : Word}
    (traps : op.outcome host sources bits = .trapped trap) :
    (∃ truncating, op = .toInteger truncating) ∧ Has bits ve ∧ trap = invalidBits sources.b bits ||| fex := by
  cases op with
  | toSingle => cases traps
  | toInteger truncating =>
    obtain ⟨limit, ends⟩ | ⟨result, ends⟩ := toIntegerOutcome_cases
      (if truncating then .towardZero else .ofBits bits) host sources.b bits
    · obtain ⟨enabled, same⟩ := invalid_trapped (ends.symm.trans traps)
      have enabledBefore := has_ve_invalidBits.mp enabled
      exact ⟨⟨truncating, rfl⟩, enabledBefore, same.trans (summarizeFex_invalidBits enabledBefore)⟩
    · cases ends.symm.trans traps

end Conversion

end PowerFpu
