import PowerFpu.Proofs.Core.Run
import PowerFpu.Proofs.Core.SharedThread
import PowerFpu.Proofs.Core.TransferProtocol

/-! A detached core on a thread that rounds to nearest does what a native core does.

A detached environment leaves the thread in its own mode, so the two kinds compute in
different modes as soon as RN is not nearest. Only the operations that round notice. All
others, the conversions to an integer among them, may run under any RN. -/

set_option autoImplicit false

namespace PowerFpu

/-- The operations that round in the mode of the thread: arithmetic but the moves and the
select, and the conversions to single, in a register or on the way to memory. -/
def Operation.rounds : Operation → Bool
  | .arithmetic (.binary ..) | .arithmetic (.fused ..) | .arithmetic (.squareRoot _)
  | .arithmetic .rootEstimate | .arithmetic .reciprocalEstimate => true
  | .conversion .toSingle | .transfer (.store .single _) => true
  | .arithmetic (.move _) | .arithmetic .select | .conversion (.toInteger _) => false
  | .compare _ | .control _ | .transfer (.load ..) | .transfer (.store .double _) | .transfer .storeInteger => false

/-- An operation that does not round reads the mode of the thread for nothing but the sum in
a conversion to the nearest integer. -/
theorem Operation.outcome?_congr {op : Operation} (exact : op.rounds = false) {bits : Word}
    (directed : RoundingMode.ofBits bits ≠ .nearest) (mode other : RoundingMode) (model : ProcessorModel)
    (operands : Operands) (sources : Sources) :
    op.outcome? mode model operands sources bits = op.outcome? other model operands sources bits := by
  cases op with
  | arithmetic op =>
    cases op with
    | move change | select => rfl
    | binary kind precision | fused kind precision | squareRoot precision => cases exact
    | rootEstimate | reciprocalEstimate => cases exact
  | conversion op =>
    cases op with
    | toSingle => cases exact
    | toInteger truncating =>
      have same : RoundingMode.toInteger (if truncating then .towardZero else .ofBits bits) mode sources.b =
          RoundingMode.toInteger (if truncating then .towardZero else .ofBits bits) other sources.b := by
        cases truncating with
        | true => rfl
        | false =>
          simp only [Bool.false_eq_true, if_false]
          cases chosen : RoundingMode.ofBits bits with
          | nearest => exact absurd chosen directed
          | towardZero | towardPosInf | towardNegInf => rfl
      simp only [outcome?, Conversion.outcome, Conversion.toIntegerOutcome, same]
  | compare ordered | control op | transfer op => rfl

section Transfer
variable {op : Transfer} (exact : (Operation.transfer op).rounds = false) (mode other : RoundingMode)
include exact

theorem Transfer.access_congr : op.access mode = op.access other := by
  cases op with
  | load precision form => cases precision <;> rfl
  | store precision form =>
    cases precision with
    | single => cases exact
    | double => rfl
  | storeInteger => rfl

theorem Transfer.perform_congr {σ : Type} (bus : Bus σ) : op.perform bus mode = op.perform bus other := by
  cases op with
  | load precision form => cases precision <;> rfl
  | store precision form =>
    cases precision with
    | single => cases exact
    | double => rfl
  | storeInteger => rfl

end Transfer

theorem Configuration.validate_host (configuration : Configuration) (kind : HostKind) :
    validate { configuration with host := kind } =
      configuration.validate.map fun valid => { valid with host := kind } := by
  simp only [validate]
  split
  · rfl
  · split
    · rfl
    · rfl

variable {σ : Type}

/-- A native environment that follows RN, with its window open or closed. -/
def Fpscr.IsNative (register : Fpscr) : Prop :=
  ∃ saved, register.host = .native register.rounding saved

def Fpscr.detach (register : Fpscr) : Fpscr :=
  { register with host := .detached register.host.rounding }

theorem Fpscr.AtRest.detach_follows {register : Fpscr} (atRest : register.AtRest) :
    register.detach.Follows .detached := by
  unfold AtRest at atRest
  unfold Follows detach
  rw [atRest]
  rfl

def Core.detach (core : Core) : Core :=
  { core with fpscr := core.fpscr.detach }

def Machine.detach (machine : Machine σ) : Machine σ :=
  { machine with core := machine.core.detach }

def Step.detach (step : Step σ) : Step σ :=
  { step with machine := step.machine.detach }

/-- The machine with its window closed, on a thread that rounds to nearest. -/
def Machine.settled (machine : Machine σ) : Machine σ :=
  machine.leave.onThread .nearest

def Step.settled (step : Step σ) : Step σ :=
  { step with machine := step.machine.settled }

namespace Machine

def RoundsToNearest (machine : Machine σ) (request : Request) : Prop :=
  request.isOf Operation.rounds = true → machine.core.fpscr.rounding = .nearest

theorem RoundsToNearest.of_decoded {machine : Machine σ} {request : Request}
    (rounding : machine.RoundsToNearest request) {op : Operation} {operands : Operands}
    (decoded : request.operation? = some (op, operands)) (rounds : op.rounds = true) :
    machine.core.fpscr.rounding = .nearest := by
  apply rounding
  rw [Request.isOf, decoded]
  exact rounds

variable (bus : Bus σ) {machine : Machine σ} (atRest : machine.core.fpscr.AtRest)

section Window
include atRest

theorem leave_detach : machine.detach.leave = machine.leave.detach := by
  rw [leave_of_atRest atRest]
  rfl

theorem rewrite_detach (bits : Word) : machine.detach.rewrite bits = (machine.rewrite bits).detach := by
  have registers : (machine.detach.rewrite bits).core.fpscr = (machine.rewrite bits).core.fpscr.detach := by
    have follows : (machine.detach.rewrite bits).core.fpscr.Follows .detached :=
      atRest.detach_follows.write_within bits machine.thread
    refine follows.eq_of_bits (rewrite_atRest atRest bits).detach_follows ?_
    rw [rewrite_bits]
    exact (machine.rewrite_bits bits).symm
  have threads : (machine.detach.rewrite bits).thread = (machine.rewrite bits).thread := by
    rw [rewrite_mode, rewrite_mode, atRest]
    rfl
  -- Nothing else is touched by a write.
  change { machine with
    core := { machine.core with fpscr := (machine.detach.rewrite bits).core.fpscr }
    thread := (machine.detach.rewrite bits).thread } = _
  rw [registers, threads]
  rfl

theorem conclude_detach (op : Transfer) (operands : Operands) (address : Word)
    (served : Except Exception (Option Doubleword) × σ) :
    machine.detach.conclude op operands address served = (machine.conclude op operands address served).detach := by
  obtain ⟨exception | loaded, next⟩ := served
  · simp only [conclude, leave_detach atRest]
    rfl
  · simp only [conclude, leave_detach atRest]
    rfl

variable (nearest : machine.thread = .nearest) {op : Operation} (operands : Operands)
  (rounding : op.rounds = true → machine.core.fpscr.rounding = .nearest)
include nearest rounding

/-- Both kinds compute in one mode, unless it does not matter in which. -/
theorem working_detach {α : Type} (evaluate : RoundingMode → α)
    (constant : op.rounds = false → machine.core.fpscr.rounding ≠ .nearest →
      ∀ mode other, evaluate mode = evaluate other) :
    evaluate (machine.detach.core.fpscr.host.working machine.thread) =
      evaluate (machine.core.fpscr.host.working machine.thread) := by
  by_cases directed : machine.core.fpscr.rounding = .nearest
  · rw [working_of_atRest atRest, directed]
    exact congrArg evaluate nearest
  · exact constant (Bool.eq_false_iff.mpr fun rounds => directed (rounding rounds)) directed _ _

theorem outcome?_detach : machine.detach.outcome? op operands = machine.outcome? op operands :=
  working_detach atRest nearest rounding
    (op.outcome? · machine.core.model operands (machine.sources operands) machine.core.fpscr.bits)
    fun exact directed mode other => Operation.outcome?_congr exact directed mode other _ _ _

theorem accessesOf_detach : machine.detach.accessesOf op operands = machine.accessesOf op operands := by
  cases op with
  | arithmetic op | conversion op | compare ordered | control op => rfl
  | transfer op =>
    have same := working_detach atRest nearest rounding op.access fun exact _ => Transfer.access_congr exact
    cases addressed : op.form.effective operands machine.core.gpr with
    | error exception =>
      rw [machine.accessesOf_refused op operands addressed]
      exact machine.detach.accessesOf_refused op operands addressed
    | ok address =>
      rw [machine.accessesOf_addressed op operands addressed, ← same]
      exact machine.detach.accessesOf_addressed op operands addressed

theorem dispatch_detach : machine.detach.dispatch bus op operands = (machine.dispatch bus op operands).detach := by
  cases yields : machine.outcome? op (operands.seenBy op) with
  | some outcome =>
    have yieldsDetached := (outcome?_detach atRest nearest (operands.seenBy op) rounding).trans yields
    cases outcome with
    | completed effect =>
      rw [machine.dispatch_completed bus op operands yields,
        machine.detach.dispatch_completed bus op operands yieldsDetached, rewrite_detach atRest]
      rfl
    | trapped bits =>
      rw [machine.dispatch_trapped bus op operands yields,
        machine.detach.dispatch_trapped bus op operands yieldsDetached, rewrite_detach atRest]
      rfl
  | none =>
    cases op with
    | arithmetic op | conversion op | compare ordered | control op => cases yields
    | transfer op =>
      have same := working_detach atRest nearest rounding (op.perform bus) fun exact _ mode other =>
        Transfer.perform_congr exact mode other bus
      cases addressed : op.form.effective operands machine.core.gpr with
      | error exception =>
        rw [machine.dispatch_refused bus addressed, machine.detach.dispatch_refused bus addressed,
          leave_detach atRest]
        rfl
      | ok address =>
        rw [machine.dispatch_addressed bus addressed, machine.detach.dispatch_addressed bus addressed,
          conclude_detach atRest, ← same]
        rfl

end Window

section Request
variable (nearest : machine.thread = .nearest) {request : Request} (rounding : machine.RoundsToNearest request)
include atRest nearest rounding

/-- Detaching the host commutes with every step that rounds to nearest, if it rounds. -/
theorem perform_detach : machine.detach.perform bus request = (machine.perform bus request).detach := by
  cases request with
  | decoded op operands => exact dispatch_detach bus atRest nearest operands rounding
  | word inst =>
    simp only [perform, execute]
    cases decoded : Operation.decode inst with
    | none => rfl
    | some op =>
      have rounds := rounding.of_decoded (Request.operation?_word decoded)
      simp only [dispatch_detach bus atRest nearest _ rounds]
      generalize machine.dispatch bus op (.decode inst) = ended
      obtain ⟨exception | done, events, after⟩ := ended
      · rfl
      · rfl

theorem observe_detach : machine.detach.observe bus request = machine.observe bus request := by
  have accesses : machine.detach.accessesBy request = machine.accessesBy request := by
    unfold accessesBy
    cases decoded : request.operation? with
    | none => rfl
    | some decoding =>
      obtain ⟨op, operands⟩ := decoding
      exact accessesOf_detach atRest nearest operands (rounding.of_decoded decoded)
  simp only [observe, seen_eq, accesses, perform_detach bus atRest nearest rounding]
  rfl

end Request

section Run
variable (nearest : machine.thread = .nearest) {requests : List Request}
  (along : Along bus RoundsToNearest requests machine)
include atRest nearest along

theorem observeAll_detach : machine.detach.observeAll bus requests = machine.observeAll bus requests := by
  induction requests generalizing machine with
  | nil => rfl
  | cons request requests ih =>
    obtain ⟨rounding, later⟩ := along
    -- The step leaves the native core at rest, on a thread that still rounds to nearest.
    have rest := ih (perform_atRest bus atRest request) ((perform_thread bus atRest request).trans nearest) later
    simp only [observeAll]
    rw [observe_detach bus atRest nearest rounding, perform_detach bus atRest nearest rounding]
    exact congrArg _ rest

theorem performAll_detach : machine.detach.performAll bus requests = (machine.performAll bus requests).detach := by
  induction requests generalizing machine with
  | nil => rfl
  | cons request requests ih =>
    obtain ⟨rounding, later⟩ := along
    have rest := ih (perform_atRest bus atRest request) ((perform_thread bus atRest request).trans nearest) later
    simp only [performAll, List.foldl_cons]
    rw [perform_detach bus atRest nearest rounding]
    exact rest

end Run

section Settled
variable (isNative : machine.core.fpscr.IsNative)
include isNative

theorem settled_atRest : machine.settled.core.fpscr.AtRest := by
  obtain ⟨saved, host⟩ := isNative
  change (machine.core.fpscr.host.leave machine.thread).1 = .native machine.core.fpscr.rounding none
  rw [host]
  cases saved <;> rfl

omit isNative in
theorem settled_dispatch (op : Operation) (operands : Operands) :
    (machine.dispatch bus op operands).settled = (machine.dispatch bus op operands).onThread .nearest := by
  unfold Step.settled Machine.settled
  rw [leave_of_closed (machine.dispatch_closes bus op operands).2]
  rfl

theorem dispatch_settled (op : Operation) (operands : Operands) :
    machine.settled.dispatch bus op operands = (machine.dispatch bus op operands).settled := by
  have atRest : machine.leave.core.fpscr.AtRest := settled_atRest isNative
  have window : machine.leave.dispatch bus op operands = machine.dispatch bus op operands := by
    rw [dispatch_eq, dispatch_eq, leave_enter]
  rw [settled, dispatch_onThread bus atRest, window, settled_dispatch]

/-- A step neither sees whether the window was open before, nor what was the thread's mode. -/
theorem perform_settled (request : Request) :
    machine.settled.perform bus request = (machine.perform bus request).settled := by
  cases request with
  | decoded op operands => exact dispatch_settled bus isNative op operands
  | word inst =>
    simp only [perform, execute]
    cases decoded : Operation.decode inst with
    | none => rfl
    | some op =>
      simp only [dispatch_settled bus isNative]
      generalize machine.dispatch bus op (.decode inst) = ended
      obtain ⟨exception | done, events, after⟩ := ended
      · rfl
      · rfl

theorem observe_settled (request : Request) : machine.settled.observe bus request = machine.observe bus request := by
  have working : machine.settled.core.fpscr.host.working machine.settled.thread =
      machine.core.fpscr.host.working machine.thread := by
    rw [working_of_atRest (settled_atRest isNative)]
    obtain ⟨saved, host⟩ := isNative
    rw [host]
    rfl
  have accesses : machine.settled.accessesBy request = machine.accessesBy request := by
    unfold accessesBy accessesOf
    rw [working]
    rfl
  simp only [observe, seen_eq, accesses, perform_settled bus isNative]
  rfl

theorem perform_isNative (request : Request) : (machine.perform bus request).machine.core.fpscr.IsNative := by
  refine machine.perform_of_dispatch bus (motive := fun after => after.core.fpscr.IsNative) request
    (fun _ _ kept => kept) (fun _ => isNative) fun op operands _ => ?_
  have ended : (machine.dispatch bus op operands).settled.machine.core.fpscr.AtRest := by
    rw [← dispatch_settled bus isNative]
    exact dispatch_atRest bus (settled_atRest isNative) op operands
  rw [settled_dispatch] at ended
  exact ⟨none, ended⟩

variable {requests : List Request}

theorem observeAll_settled : machine.settled.observeAll bus requests = machine.observeAll bus requests := by
  induction requests generalizing machine with
  | nil => rfl
  | cons request requests ih =>
    have rest := ih (perform_isNative bus isNative request)
    simp only [observeAll]
    rw [observe_settled bus isNative, perform_settled bus isNative]
    exact congrArg _ rest

theorem performAll_settled : machine.settled.performAll bus requests = (machine.performAll bus requests).settled := by
  induction requests generalizing machine with
  | nil => rfl
  | cons request requests ih =>
    have rest := ih (perform_isNative bus isNative request)
    simp only [performAll, List.foldl_cons]
    rw [perform_settled bus isNative]
    exact rest

theorem along_settled (along : Along bus RoundsToNearest requests machine) :
    Along bus RoundsToNearest requests machine.settled := by
  induction requests generalizing machine with
  | nil => trivial
  | cons request requests ih =>
    refine ⟨along.1, ?_⟩
    rw [perform_settled bus isNative]
    exact ih (perform_isNative bus isNative request) along.2

omit isNative in
theorem detach_settled : machine.settled.detach = machine.detach.onThread .nearest := by
  have same := machine.leave_rounding
  simp only [settled, detach, Core.detach, Fpscr.detach, onThread, same]
  rfl

end Settled

theorem create_detach {configuration : Configuration} {core : Core} {thread after : RoundingMode}
    (created : Core.create { configuration with host := .native } thread = .ok (core, after)) :
    Core.create { configuration with host := .detached } thread = .ok (core.detach, after) := by
  unfold Core.create at created ⊢
  rw [Configuration.validate_host] at created ⊢
  cases validated : configuration.validate with
  | error exception =>
    rw [validated] at created
    cases created
  | ok valid =>
    rw [validated] at created
    cases created
    rfl

/-- On a thread that rounds to nearest the two kinds of host agree. New cores of the two kinds
differ in nothing else, and a native one is at rest after every run. From any state whose
environment follows RN, in a window or outside, as long as RN is nearest whenever an operation
rounds, under whatever RN all others run, the two give the same results, reports and accesses,
and are after every step the same machine again, with the same mode recorded. Only a window
that was open at the start leaves the native core's thread in another mode. -/
theorem detached_agrees (bus : Bus σ) :
    (∀ (configuration : Configuration) (core : Core) (thread after : RoundingMode),
      Core.create { configuration with host := .native } thread = .ok (core, after) →
        Core.create { configuration with host := .detached } thread = .ok (core.detach, after) ∧
          ∀ (state : σ) (earlier : List Request),
            let reached := performAll bus earlier ⟨core, state, after⟩
            reached.core.fpscr.AtRest ∧ reached.thread = thread) ∧
    ∀ (machine : Machine σ) (requests : List Request), machine.core.fpscr.IsNative → machine.thread = .nearest →
      Along bus RoundsToNearest requests machine →
        machine.detach.observeAll bus requests = machine.observeAll bus requests ∧
          ∀ count,
            let after := machine.performAll bus (requests.take count)
            machine.detach.performAll bus (requests.take count) = after.detach.onThread .nearest ∧
              (machine.core.fpscr.AtRest → machine.detach.performAll bus (requests.take count) = after.detach) := by
  refine ⟨?_, ?_⟩
  · intro configuration core thread after created
    refine ⟨create_detach created, ?_⟩
    intro state earlier
    exact performAll_atRest bus created rfl state earlier
  · intro machine requests isNative nearest along
    have atRest := settled_atRest isNative
    have alongSettled := along_settled bus isNative along
    have start : machine.detach = machine.settled.detach := by
      rw [detach_settled, ← nearest]
      rfl
    refine ⟨?_, ?_⟩
    · rw [start, observeAll_detach bus atRest rfl alongSettled, observeAll_settled bus isNative]
    · intro count after
      refine ⟨?_, fun closed => performAll_detach bus closed nearest (along.take bus count)⟩
      rw [start, performAll_detach bus atRest rfl (alongSettled.take bus count), performAll_settled bus isNative,
        detach_settled]

/-- In a window that was open before, a conversion to an integer while RN is upwards, and a sum
after RN is nearest again. The native core gives its thread back the mode from before the window. -/
theorem detached_agrees_of_changing_mode :
    let machine := resting 0 (.native .nearest (some .towardNegInf)) (Bank.zero.set 2 0x4004000000000000)
    let requests : List Request := [.word 0xFF80210C, .word 0xFC20101C, .word 0xFF80010C, .word 0xFC62102A]
    machine.core.fpscr.IsNative ∧ machine.thread = .nearest ∧ Along Memory.bus RoundsToNearest requests machine ∧
      machine.detach.observeAll Memory.bus requests = machine.observeAll Memory.bus requests ∧
      (machine.performAll Memory.bus (requests.take 2)).thread = .towardNegInf ∧
      (machine.detach.performAll Memory.bus (requests.take 2)).core.fpscr.host = .detached .towardPosInf ∧
      (machine.detach.performAll Memory.bus (requests.take 2)).core.fpr.get 1 = 0xFFF8000000000003 ∧
      (machine.detach.performAll Memory.bus (requests.take 4)).core.fpr.get 3 = 0x4014000000000000 ∧
      (machine.detach.performAll Memory.bus (requests.take 4)).thread = .nearest ∧
      Core.create ⟨false, .mpc603e, 2, .detached⟩ .nearest =
        .ok (⟨.zero, .zero, ⟨2, .detached .towardPosInf⟩, 0, .mpc603e, false, .zero⟩, .nearest) := by
  intro machine requests
  have isNative : machine.core.fpscr.IsNative := ⟨some .towardNegInf, by decide⟩
  have along : Along Memory.bus RoundsToNearest requests machine :=
    ⟨fun _ => by decide, nofun, nofun, fun _ => by decide, trivial⟩
  obtain ⟨created, agrees⟩ := detached_agrees Memory.bus
  obtain ⟨observed, after⟩ := agrees machine requests isNative rfl along
  refine ⟨isNative, rfl, along, observed, ?_, ?_, ?_, ?_, ?_, (created ⟨false, .mpc603e, 2, .native⟩ _ _ _ rfl).1⟩
  · decide +kernel
  · rw [(after 2).1]
    decide +kernel
  · rw [(after 2).1]
    decide +kernel
  · rw [(after 4).1]
    decide +kernel
  · rw [(after 4).1]
    rfl

end Machine

end PowerFpu
