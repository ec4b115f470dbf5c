import PowerFpu.Proofs.Fpscr.Summaries

/-! What a write of FPSCR fields brings back.

The two summaries of the written word are dropped and recomputed, so a write of all
fields restores a word exactly when the summaries of that word were right. -/

set_option autoImplicit false

namespace PowerFpu

namespace Fpscr

section Masks
variable {bits other mask within : Word}

theorem Agree.or (first : Agree mask bits other) (second : Agree within bits other) :
    Agree (mask ||| within) bits other := by
  rw [Agree, BitVec.and_or_distrib_left, BitVec.and_or_distrib_left, first, second]

theorem Agree.eq (agree : Agree (BitVec.allOnes 32) bits other) : bits = other := by
  rwa [Agree, BitVec.and_allOnes, BitVec.and_allOnes] at agree

theorem agree_twoPow {i : Nat} (bound : i < 32)
    (same : Has bits (BitVec.twoPow 32 i) ↔ Has other (BitVec.twoPow 32 i)) :
    Agree (BitVec.twoPow 32 i) bits other := by
  rw [has_twoPow bits bound, has_twoPow other bound] at same
  rw [Agree, BitVec.and_twoPow, BitVec.and_twoPow, Bool.eq_iff_iff.mpr same]

theorem agree_merge : Agree mask ((bits &&& ~~~mask) ||| (other &&& mask)) other := by
  have cleared : bits &&& ~~~mask &&& mask = 0#32 := by
    rw [BitVec.and_assoc, BitVec.and_comm _ mask, BitVec.and_not_self]
    exact BitVec.and_zero
  rw [Agree, BitVec.and_or_distrib_right, cleared, BitVec.zero_or, BitVec.and_assoc, BitVec.and_self]

end Masks

theorem agree_summarize (bits : Word) : Agree (~~~summary) (summarize bits) bits :=
  (agree_summarizeFex _ (by decide)).trans (agree_summarizeVx _ (by decide))

theorem agree_drainField {mask : Word} (field : FieldIndex) (bits : Word) (apart : clearable &&& mask = 0)
    (inside : mask &&& ~~~summary = mask) : Agree mask (drainField field bits) bits := by
  have cleared : Field.mask field &&& clearable &&& mask = 0 := by
    rw [BitVec.and_assoc, apart]
    exact BitVec.and_zero
  exact ((agree_summarize _).mono inside).trans (agree_clear _ cleared)

/-- Two words with right summaries differ elsewhere or nowhere. -/
theorem Summarized.eq_of_agree {bits other : Word} (holds : Summarized bits) (holdsOther : Summarized other)
    (agree : Agree (~~~summary) bits other) : bits = other := by
  have same (mask : Word) (inside : mask &&& ~~~summary = mask) : Has bits mask ↔ Has other mask :=
    (agree.mono inside).has
  have sameVx : Has bits vx ↔ Has other vx := by
    rw [holds.vx_iff, holdsOther.vx_iff, ← has_invalidCauses, ← has_invalidCauses]
    exact same invalidCauses (by decide)
  -- FEX reads VX, so its causes agree only now.
  have sameFex : Has bits fex ↔ Has other fex := by
    rw [holds.fex_iff, holdsOther.fex_iff, sameVx, same ve (by decide), same ox (by decide), same oe (by decide),
      same ux (by decide), same ue (by decide), same zx (by decide), same ze (by decide), same xx (by decide),
      same xe (by decide)]
  have agreeVx : Agree vx bits other := agree_twoPow (i := 29) (by decide) sameVx
  have agreeFex : Agree fex bits other := agree_twoPow (i := 30) (by decide) sameFex
  exact ((agree.or agreeVx).or agreeFex).eq

theorem agree_writeFields (selection : BitVec 8) (source bits : Word) :
    Agree (Field.select selection &&& ~~~summary) (writeFields selection source bits) source := by
  have inside : Field.select selection &&& ~~~summary &&& ~~~summary = Field.select selection &&& ~~~summary := by
    rw [BitVec.and_assoc, BitVec.and_self]
  exact ((agree_summarize _).mono inside).trans agree_merge

/-- A write of all fields leaves nothing of the word that was there before. -/
theorem writeFields_all {source : Word} (holds : Summarized source) (bits : Word) :
    writeFields 0xFF source bits = source := by
  have all : Field.select 0xFF = BitVec.allOnes 32 := by decide
  have agree := agree_writeFields 0xFF source bits
  rw [all, BitVec.allOnes_and] at agree
  exact (writeFields_summarized 0xFF source bits).eq_of_agree holds agree

end Fpscr

@[simp] theorem ProcessorModel.setWidth_boxFpscr (model : ProcessorModel) (bits : Word) :
    (model.boxFpscr bits).setWidth 32 = bits := by
  rw [boxFpscr, BitVec.setWidth_append, dif_pos (Nat.le_refl 32), BitVec.setWidth_eq]

/-! How the FPSCR fills up while no instruction writes its fields.

Enables and controls stand still, causes are only ever added, and the bits about
rounding are only ever dropped. `Accrues` says so of two words; it holds of each edit
that an operation makes, and from there of a whole run. -/

namespace Fpscr

/-- The controls, and the causes that no operation notices. -/
def untouched : Word :=
  ve ||| oe ||| ue ||| ze ||| xe ||| ni ||| rn ||| reserved ||| ox ||| ux ||| xx ||| vximz ||| vxvc ||| vxsoft

/-- The causes that an operation adds and none takes back. -/
def stickyCauses : Word :=
  zx ||| vxsnan ||| vxisi ||| vxzdz ||| vxsqrt ||| vxcvi

/-- What a check of operands clears before it looks. -/
def recheckedBits : Word :=
  fx ||| vxidi

def roundingBits : Word :=
  fr ||| fi

/-- The bits that are computed anew from others or from a result. -/
def derived : Word :=
  summary ||| fprf

/-- Each part of a mask that is set in the first word is set in the second. -/
def Stays (mask before after : Word) : Prop :=
  ∀ part, part &&& mask = part → Has before part → Has after part

section Masks
variable {bits other last mask within : Word}

theorem Agree.stays (agree : Agree mask bits other) : Stays mask bits other :=
  fun _ inside => (agree.mono inside).has.mp

theorem Stays.trans (first : Stays mask bits other) (second : Stays mask other last) : Stays mask bits last :=
  fun part inside has => second part inside (first part inside has)

theorem Stays.mono (stays : Stays within bits other) (inside : mask &&& within = mask) : Stays mask bits other := by
  intro part partInside
  apply stays part
  rw [← partInside, BitVec.and_assoc, inside]

theorem has_of_clear {cleared : Word} (has : Has (bits &&& ~~~cleared) mask) : Has bits mask := by
  intro none
  apply has
  rw [BitVec.and_assoc, BitVec.and_comm _ mask, ← BitVec.and_assoc, none]
  exact BitVec.zero_and

theorem apart_of_inside (apart : bits &&& within = 0) (inside : mask &&& within = mask) : bits &&& mask = 0 := by
  rw [← inside, BitVec.and_comm mask, ← BitVec.and_assoc, apart]
  exact BitVec.zero_and

theorem inside_of_all {parts : List Word} (all : (parts.all fun part => part &&& mask == part) = true)
    {part : Word} (member : part ∈ parts) : part &&& mask = part :=
  beq_iff_eq.mp (List.all_eq_true.mp all part member)

theorem stays_clear {cleared : Word} (apart : cleared &&& mask = 0) : Stays mask bits (bits &&& ~~~cleared) :=
  (agree_clear cleared apart).symm.stays

theorem stays_set (set : Word) : Stays mask bits (bits ||| set) :=
  fun _ _ has => has_or.mpr (.inl has)

theorem stays_of_clear (cleared : Word) : Stays mask (bits &&& ~~~cleared) bits :=
  fun _ _ => has_of_clear

theorem stays_of_set {set : Word} (apart : set &&& mask = 0) : Stays mask (bits ||| set) bits :=
  (agree_set set apart).stays

end Masks

/-- How a word may change: with the sticky bits that stay, it keeps what is untouched
and does not set the bits about rounding. -/
structure Accrues (sticky before after : Word) : Prop where
  keeps : Agree untouched after before
  gains : Stays sticky before after
  fades : Stays roundingBits after before

section Accrues
variable {sticky bits other last : Word}

theorem Accrues.refl (sticky bits : Word) : Accrues sticky bits bits :=
  ⟨rfl, fun _ _ => id, fun _ _ => id⟩

theorem Accrues.trans (first : Accrues sticky bits other) (second : Accrues sticky other last) :
    Accrues sticky bits last :=
  ⟨second.keeps.trans first.keeps, first.gains.trans second.gains, second.fades.trans first.fades⟩

theorem Accrues.mono {fewer : Word} (accrues : Accrues sticky bits other) (inside : fewer &&& sticky = fewer) :
    Accrues fewer bits other :=
  ⟨accrues.keeps, accrues.gains.mono inside, accrues.fades⟩

theorem accrues_of_agree (inside : sticky &&& ~~~derived = sticky) (agree : Agree (~~~derived) other bits) :
    Accrues sticky bits other :=
  ⟨agree.mono (by decide), (agree.mono inside).symm.stays, (agree.mono (by decide)).stays⟩

theorem accrues_clear {cleared : Word} (apart : cleared &&& untouched = 0) (apartSticky : cleared &&& sticky = 0) :
    Accrues sticky bits (bits &&& ~~~cleared) :=
  ⟨agree_clear cleared apart, stays_clear apartSticky, stays_of_clear cleared⟩

theorem accrues_set {set : Word} (apart : set &&& (untouched ||| roundingBits) = 0) :
    Accrues sticky bits (bits ||| set) :=
  ⟨agree_set set (apart_of_inside apart (by decide)), stays_set set, stays_of_set (apart_of_inside apart (by decide))⟩

theorem accrues_summarize (inside : sticky &&& ~~~derived = sticky) (bits : Word) :
    Accrues sticky bits (summarize bits) :=
  accrues_of_agree inside ((agree_summarize bits).mono (by decide))

theorem accrues_classifyResult (inside : sticky &&& ~~~derived = sticky) (result : Doubleword) (bits : Word) :
    Accrues sticky bits (classifyResult result bits) :=
  accrues_of_agree inside (agree_classifyResult result bits (by decide))

theorem invalidBits_apart (check : OperandCheck) (a b : Doubleword) :
    check.invalidBits a b &&& (untouched ||| roundingBits) = 0 := by
  cases check with
  | add | sub | mul | root =>
    simp only [OperandCheck.invalidBits]
    split
    · decide
    · decide
  | div =>
    simp only [OperandCheck.invalidBits]
    split
    · decide
    · split
      · decide
      · decide

theorem accrues_classifyOperands (check : OperandCheck) (a b : Doubleword) (bits : Word) :
    Accrues stickyCauses bits (classifyOperands check a b bits) := by
  have cleared : Accrues stickyCauses bits (bits &&& ~~~recheckedBits) := accrues_clear (by decide) (by decide)
  exact (cleared.trans (accrues_set (invalidBits_apart check a b))).trans (accrues_summarize (by decide) _)

end Accrues

/-- The bits that an operation cannot clear: FX and VXIDI among them if it checks no operands. -/
def stickyBits (checksOperands : Bool) : Word :=
  if checksOperands then stickyCauses else stickyCauses ||| recheckedBits

theorem stickyBits_underived (checksOperands : Bool) :
    stickyBits checksOperands &&& ~~~derived = stickyBits checksOperands := by
  cases checksOperands <;> decide

theorem stickyCauses_inside (checksOperands : Bool) :
    stickyCauses &&& stickyBits checksOperands = stickyCauses := by
  cases checksOperands <;> decide

end Fpscr

end PowerFpu
