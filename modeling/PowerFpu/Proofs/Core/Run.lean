import PowerFpu.Proofs.Core.Ambient
import PowerFpu.Proofs.Fpscr.Accrual

/-! The summary bits agree with their causes and enables in every reachable state.

Each operation keeps the agreement, whether it completes or traps. Most operations
that write the FPSCR even establish it from a word that lacks it. -/

set_option autoImplicit false

namespace PowerFpu

section

open Fpscr (Has Summarized)

namespace Operation

def resummarizes (op : Operation) (operands : Operands) : Bool :=
  match op with
  | .arithmetic (.binary ..) | .arithmetic (.fused ..) | .arithmetic (.squareRoot _)
  | .arithmetic .rootEstimate | .arithmetic .reciprocalEstimate => true
  | .control .writeFields | .control .drainField => true
  | .control .writeImmediate => operands.crfd != 0
  | .control (.writeBit _) => operands.rd != 1 && operands.rd != 2
  | _ => false

end Operation

namespace Arithmetic

theorem exceptionBits_summarized {op : Arithmetic} (describes : op.describesResult = true) (mode : RoundingMode)
    (sources : Sources) (bits : Word) : Summarized (op.exceptionBits mode sources bits) := by
  cases op with
  | binary kind precision => exact Fpscr.classifyOperands_summarized ..
  | fused kind precision =>
    simp only [exceptionBits]
    split
    · exact Fpscr.classifyOperands_summarized ..
    · exact Fpscr.classifyOperands_summarized ..
  | squareRoot precision => exact Fpscr.classifyOperands_summarized ..
  | rootEstimate | reciprocalEstimate => exact Fpscr.summarize_summarized _
  | move change | select => cases describes

theorem fpscrAfter_summarized {op : Arithmetic} (describes : op.describesResult = true) (mode : RoundingMode)
    (sources : Sources) (bits : Word) : Summarized (op.fpscrAfter mode sources bits) := by
  simp only [fpscrAfter, describes, if_true]
  exact Fpscr.classifyResult_summarized _ (exceptionBits_summarized describes mode sources bits)

theorem fpscrAfter_of_copies {op : Arithmetic} (copies : op.describesResult = false) (mode : RoundingMode)
    (sources : Sources) (bits : Word) : op.fpscrAfter mode sources bits = bits := by
  cases op with
  | move change | select => rfl
  | binary kind precision | fused kind precision | squareRoot precision => cases copies
  | rootEstimate | reciprocalEstimate => cases copies

end Arithmetic

namespace Control

theorem effect_summarized (op : Control) (model : ProcessorModel) (operands : Operands) (sources : Sources)
    {bits : Word} (holds : Summarized bits) : Summarized (op.effect model operands sources bits).fpscr := by
  cases op with
  | readFpscr => exact holds
  | writeFields => exact Fpscr.writeFields_summarized ..
  | writeImmediate =>
    by_cases first : operands.crfd = 0
    · simpa only [effect, Fpscr.writeImmediate, first, if_true] using holds
    · exact Fpscr.writeImmediate_summarized first _ _
  | writeBit value =>
    simp only [effect, Fpscr.writeBit]
    split
    · exact Fpscr.summarize_summarized _
    · exact holds
  | drainField => exact Fpscr.drainField_summarized ..

end Control

namespace Conversion

theorem outcome_completed_summarized {op : Conversion} {host : RoundingMode} {sources : Sources} {bits : Word}
    {effect : Effect} (completes : op.outcome host sources bits = .completed effect) (holds : Summarized bits) :
    Summarized effect.fpscr := by
  cases op with
  | toSingle =>
    cases completes
    exact Fpscr.classifyResult_summarized _ holds
  | toInteger truncating =>
    obtain ⟨limit, ends⟩ | ⟨result, ends⟩ := toIntegerOutcome_cases
      (if truncating then .towardZero else .ofBits bits) host sources.b bits
    · -- VX is set by hand, and FEX is left: with VE off it does not depend on VX.
      obtain ⟨disabled, same⟩ := invalid_completed (ends.symm.trans completes)
      rw [same]
      exact invalidBits_summarized _ disabled holds
    · cases ends.symm.trans completes
      exact holds

/-- A trapped conversion establishes the agreement: VX is set with its cause and FEX is recomputed. -/
theorem outcome_trapped_summarized {op : Conversion} {host : RoundingMode} {sources : Sources} {bits trap : Word}
    (traps : op.outcome host sources bits = .trapped trap) : Summarized trap := by
  cases op with
  | toSingle => cases traps
  | toInteger truncating =>
    obtain ⟨limit, ends⟩ | ⟨result, ends⟩ := toIntegerOutcome_cases
      (if truncating then .towardZero else .ofBits bits) host sources.b bits
    · rw [(invalid_trapped (ends.symm.trans traps)).2]
      exact Fpscr.summarizeFex_summarized (invalidBits_vx _ _)
    · cases ends.symm.trans traps

end Conversion

namespace Operation

variable {op : Operation} {mode : RoundingMode} {model : ProcessorModel} {operands : Operands}
  {sources : Sources} {bits : Word}

theorem outcome_summarized {effect : Effect}
    (completes : op.outcome? mode model operands sources bits = some (.completed effect))
    (holds : Summarized bits) : Summarized effect.fpscr := by
  cases op with
  | arithmetic op =>
    cases completes
    cases describes : op.describesResult with
    | true => exact Arithmetic.fpscrAfter_summarized describes mode sources bits
    | false => simpa only [Arithmetic.effect, Arithmetic.fpscrAfter_of_copies describes] using holds
  | conversion op => exact Conversion.outcome_completed_summarized (Option.some.inj completes) holds
  | compare ordered =>
    cases completes
    exact Fpscr.compareEffect_summarized _ _ holds
  | control op =>
    cases completes
    exact op.effect_summarized model operands sources holds
  | transfer op => cases completes

theorem trap_summarized {trap : Word}
    (traps : op.outcome? mode model operands sources bits = some (.trapped trap)) : Summarized trap := by
  cases op with
  | conversion op => exact Conversion.outcome_trapped_summarized (Option.some.inj traps)
  | arithmetic op | compare ordered | control op | transfer op => cases traps

theorem outcome_of_resummarizes (recomputes : op.resummarizes operands = true) :
    ∃ effect, op.outcome? mode model operands sources bits = some (.completed effect) ∧
      Summarized effect.fpscr := by
  cases op with
  | arithmetic op =>
    refine ⟨_, rfl, Arithmetic.fpscrAfter_summarized ?_ mode sources bits⟩
    cases op with
    | move change | select => cases recomputes
    | binary kind precision | fused kind precision | squareRoot precision => rfl
    | rootEstimate | reciprocalEstimate => rfl
  | control op =>
    refine ⟨_, rfl, ?_⟩
    cases op with
    | readFpscr => cases recomputes
    | writeFields => exact Fpscr.writeFields_summarized ..
    | writeImmediate => exact Fpscr.writeImmediate_summarized (bne_iff_ne.mp recomputes) _ _
    | writeBit value =>
      obtain ⟨notFex, notVx⟩ := Bool.and_eq_true_iff.mp recomputes
      exact Fpscr.writeBit_summarized (bne_iff_ne.mp notFex) (bne_iff_ne.mp notVx) _ _
    | drainField => exact Fpscr.drainField_summarized ..
  | conversion op | compare ordered | transfer op => cases recomputes

end Operation

namespace Machine

variable {σ : Type} (bus : Bus σ) (machine : Machine σ)

def Consistent (machine : Machine σ) : Prop :=
  Summarized machine.core.fpscr.bits

theorem perform_consistent (request : Request) (holds : machine.Consistent) :
    (machine.perform bus request).machine.Consistent := by
  refine machine.perform_bits bus request holds ?_
  intro op operands outcome decoded yields
  cases outcome with
  | completed effect => exact Operation.outcome_summarized yields holds
  | trapped bits => exact Operation.trap_summarized yields

theorem perform_resummarizes {request : Request} {op : Operation} {operands : Operands}
    (decoded : request.operation? = some (op, operands)) (recomputes : op.resummarizes operands = true) :
    (machine.perform bus request).result = .ok () ∧ (machine.perform bus request).machine.Consistent := by
  obtain ⟨result, change, same⟩ := machine.perform_decoded bus decoded
  obtain ⟨effect, yields, holds⟩ :
      ∃ effect, machine.outcome? op (operands.seenBy op) = some (.completed effect) ∧ Summarized effect.fpscr :=
    Operation.outcome_of_resummarizes recomputes
  rw [machine.dispatch_completed bus op operands yields] at result same
  refine ⟨result, ?_⟩
  rw [same]
  change Summarized (machine.rewrite effect.fpscr).core.fpscr.bits
  rwa [rewrite_bits]

theorem perform_trapped_consistent {request : Request} {truncating : Bool} {operands : Operands}
    (decoded : request.operation? = some (.conversion (.toInteger truncating), operands))
    (traps : (machine.perform bus request).result = .error .floatingPointEnabled) :
    (machine.perform bus request).machine.Consistent := by
  obtain ⟨result, change, same⟩ := machine.perform_decoded bus decoded
  rw [result] at traps
  rw [same]
  have step := machine.dispatched bus (.conversion (.toInteger truncating)) operands
  generalize machine.dispatch bus _ operands = ended at step traps
  cases step with
  | completed effect yields => cases traps
  | trapped bits yields =>
    change Summarized (machine.rewrite bits).core.fpscr.bits
    rw [rewrite_bits]
    exact Operation.trap_summarized yields
  | refused _ _ isTransfer | faulted _ _ _ _ isTransfer | transferred _ _ _ _ isTransfer => cases isTransfer

theorem create_consistent {configuration : Configuration} {thread after : RoundingMode} {core : Core}
    (created : Core.create configuration thread = .ok (core, after)) : Summarized core.fpscr.bits := by
  unfold Core.create at created
  split at created
  next => cases created
  next =>
    cases created
    exact Fpscr.summarize_summarized _

/-- The summaries are right after construction and after every step of every run.
The operations that recompute them, and a trapped conversion, make them right in
any word. -/
theorem summaries_agree :
    (∀ (configuration : Configuration) (thread after : RoundingMode) (core : Core) (memory : σ)
        (requests : List Request),
      Core.create configuration thread = .ok (core, after) →
        Summarized (performAll bus requests ⟨core, memory, after⟩).core.fpscr.bits) ∧
    (∀ (machine : Machine σ) (request : Request) (op : Operation) (operands : Operands),
      request.operation? = some (op, operands) → op.resummarizes operands = true →
        (machine.perform bus request).result = .ok () ∧
          Summarized (machine.perform bus request).machine.core.fpscr.bits) ∧
    ∀ (machine : Machine σ) (request : Request) (truncating : Bool) (operands : Operands),
      request.operation? = some (.conversion (.toInteger truncating), operands) →
        (machine.perform bus request).result = .error .floatingPointEnabled →
          Summarized (machine.perform bus request).machine.core.fpscr.bits := by
  refine ⟨?_, ?_, ?_⟩
  · intro configuration thread after core memory requests created
    exact performAll_induction bus ⟨core, memory, after⟩
      (fun machine request => machine.perform_consistent bus request) requests (create_consistent created)
  · intro machine request op operands decoded recomputes
    exact machine.perform_resummarizes bus decoded recomputes
  · intro machine request truncating operands decoded traps
    exact machine.perform_trapped_consistent bus decoded traps

/-- A start with VE and a cause of VX set, then a drained field and a conversion of a
signalling NaN; and both of these from a word whose FEX is stale. -/
theorem summaries_agree_of_stale :
    (∃ core after,
      Core.create ⟨false, .mpc603e, 0x01000080, .native⟩ .towardZero = .ok (core, after) ∧
        Summarized (performAll Memory.bus [.word 0xFC040080, .word 0xFC20101C]
          ⟨core, .zeroed 0 0, after⟩).core.fpscr.bits) ∧
    (let machine := resting 0x40000080 (.native .nearest none) (Bank.zero.set 2 0x7FF0000000000001)
     (Summarized (machine.perform Memory.bus (.word 0xFC040080)).machine.core.fpscr.bits ∧
        (machine.perform Memory.bus (.word 0xFC20101C)).result = .error .floatingPointEnabled ∧
        Summarized (machine.perform Memory.bus (.word 0xFC20101C)).machine.core.fpscr.bits)) := by
  have created : Core.create ⟨false, .mpc603e, 0x01000080, .native⟩ .towardZero = .ok (_, _) := rfl
  have traps : ((resting 0x40000080 (.native .nearest none)
      (Bank.zero.set 2 0x7FF0000000000001)).perform Memory.bus (.word 0xFC20101C)).result =
        .error .floatingPointEnabled := by rfl
  refine ⟨⟨_, _, created, (summaries_agree Memory.bus).1 _ _ _ _ _ _ created⟩, ?_, traps, ?_⟩
  · exact ((summaries_agree Memory.bus).2.1 _ _ (.control .drainField) (.decode 0xFC040080) (by decide) rfl).2
  · exact (summaries_agree Memory.bus).2.2 _ _ false (.decode 0xFC20101C) (by decide) traps

end Machine

end

/-! Runs, and what holds between the instructions of a core of either host kind.

The environment holds the mode of RN with its window closed, and the summary bits are
right. Both are true of a new core and kept by every step. -/

open Fpscr (Summarized)

def HostEnvironment.closed (kind : HostKind) (mode : RoundingMode) : HostEnvironment :=
  match kind with
  | .native => .native mode none
  | .detached => .detached mode

@[simp] theorem HostEnvironment.rounding_closed (kind : HostKind) (mode : RoundingMode) :
    (closed kind mode).rounding = mode := by
  cases kind <;> rfl

/-- A register whose environment, of either kind, follows RN. -/
def Fpscr.Follows (kind : HostKind) (register : Fpscr) : Prop :=
  register.host = .closed kind register.rounding

namespace Fpscr

variable {kind : HostKind} {register : Fpscr}

theorem Follows.eq_of_bits {other : Fpscr} (follows : register.Follows kind) (followsOther : other.Follows kind)
    (same : register.bits = other.bits) : register = other := by
  obtain ⟨bits, host⟩ := register
  obtain ⟨otherBits, otherHost⟩ := other
  cases same
  change host = _ at follows
  change otherHost = _ at followsOther
  rw [follows, followsOther]
  rfl

theorem Follows.rounding_host (follows : register.Follows kind) :
    register.host.rounding = .ofBits register.bits := by
  rw [follows, HostEnvironment.rounding_closed]
  rfl

theorem Follows.leave (follows : register.Follows kind) (thread : RoundingMode) :
    (register.leave thread).1.Follows kind := by
  obtain ⟨bits, host⟩ := register
  change host = _ at follows
  rw [follows]
  cases kind <;> rfl

/-- A detached register has no window, so a write is all that can change its mode. -/
theorem follows_write_detached (follows : register.Follows .detached) (value : Word) (thread : RoundingMode) :
    (register.write value thread).1.Follows .detached := by
  obtain ⟨bits, host⟩ := register
  change host = _ at follows
  rw [follows]
  unfold write
  split
  -- A write that keeps RN skips the environment, which holds that mode already.
  next same => exact congrArg HostEnvironment.detached same.symm
  next => rfl

theorem Follows.write_within (follows : register.Follows kind) (value : Word) (thread : RoundingMode) :
    let opened := register.enter thread
    let written := opened.1.write value opened.2
    (written.1.leave written.2).1.Follows kind := by
  cases kind with
  | native => exact ((((show register.AtRest from follows).linked thread).enter).write value).leave.atRest
  | detached =>
    have opened : (register.enter thread).1.Follows .detached := by
      obtain ⟨bits, host⟩ := register
      change host = _ at follows
      rw [follows]
      rfl
    exact (follows_write_detached opened value _).leave _

end Fpscr

namespace Machine

variable {σ : Type} (bus : Bus σ) {kind : HostKind} {machine : Machine σ}

/-- What holds of a machine between two instructions. -/
structure Sound (kind : HostKind) (machine : Machine σ) : Prop where
  summarized : Summarized machine.core.fpscr.bits
  follows : machine.core.fpscr.Follows kind

theorem dispatch_follows (follows : machine.core.fpscr.Follows kind) (op : Operation) (operands : Operands) :
    (machine.dispatch bus op operands).machine.core.fpscr.Follows kind := by
  have step := machine.dispatched bus op operands
  generalize machine.dispatch bus op operands = ended at step
  cases step with
  | completed effect yields => exact follows.write_within effect.fpscr machine.thread
  | trapped bits yields => exact follows.write_within bits machine.thread
  | refused | faulted | transferred => exact follows.leave machine.thread

theorem perform_follows (follows : machine.core.fpscr.Follows kind) (request : Request) :
    (machine.perform bus request).machine.core.fpscr.Follows kind :=
  machine.perform_of_dispatch bus (motive := fun after => after.core.fpscr.Follows kind) request
    (fun _ _ kept => kept) (fun _ => follows) fun op operands _ => dispatch_follows bus follows op operands

theorem Sound.perform (sound : machine.Sound kind) (request : Request) :
    (machine.perform bus request).machine.Sound kind :=
  ⟨machine.perform_consistent bus request sound.summarized, perform_follows bus sound.follows request⟩

theorem Sound.performAll (sound : machine.Sound kind) (requests : List Request) :
    (machine.performAll bus requests).Sound kind :=
  performAll_induction bus machine (fun _ request sound => sound.perform bus request) requests sound

theorem create_sound {configuration : Configuration} {thread after : RoundingMode} {core : Core}
    (created : Core.create configuration thread = .ok (core, after)) (state : σ) :
    Sound configuration.host ⟨core, state, after⟩ := by
  refine ⟨create_consistent created, ?_⟩
  unfold Core.create at created
  split at created
  next => cases created
  next valid validated =>
    rw [eq_of_validate validated] at created
    cases created
    have sameMode : RoundingMode.ofBits (Fpscr.summarize configuration.initialFpscr) =
        .ofBits configuration.initialFpscr :=
      ((Fpscr.agree_summarize configuration.initialFpscr).mono (by decide)).ofBits
    cases host : configuration.host with
    | native => exact congrArg (HostEnvironment.native · none) sameMode.symm
    | detached => exact congrArg HostEnvironment.detached sameMode.symm

/-- Whether every step of a run is of a kind, given the machine it starts on. -/
def Along (allows : Machine σ → Request → Prop) : List Request → Machine σ → Prop
  | [], _ => True
  | request :: requests, machine =>
    allows machine request ∧ Along allows requests (machine.perform bus request).machine

theorem Along.keeps {allows : Machine σ → Request → Prop} {motive : Machine σ → Prop}
    (kept : ∀ machine request, allows machine request → motive machine →
      motive (machine.perform bus request).machine)
    {requests : List Request} (along : Along bus allows requests machine) (start : motive machine) :
    motive (machine.performAll bus requests) := by
  induction requests generalizing machine with
  | nil => exact start
  | cons request requests ih => exact ih along.2 (kept machine request along.1 start)

theorem Along.take {allows : Machine σ → Request → Prop} {requests : List Request}
    (along : Along bus allows requests machine) (count : Nat) : Along bus allows (requests.take count) machine := by
  induction requests generalizing machine count with
  | nil =>
    rw [List.take_nil]
    trivial
  | cons request requests ih =>
    cases count with
    | zero => trivial
    | succ count => exact ⟨along.1, ih along.2 count⟩

end Machine

end PowerFpu
