import PowerFpu.Proofs.Fpscr.Summaries

/-! The FPSCR, its native environment and the thread, over any order of calls.

Three things hold a rounding mode: the RN field, the environment and the thread.
`Linked` says how they hang together inside and outside a window, and every call
keeps it, a repeated `enter` and a stray `leave` included. -/

set_option autoImplicit false

namespace PowerFpu

namespace Fpscr

inductive Action where
  | write (value : Word)
  | set (mask : Word)
  | clear (mask : Word)
  | updateFex
  | updateVx
  | updateSummaries
  | enter
  | leave
  deriving DecidableEq, Repr

def act (register : Fpscr) (thread : RoundingMode) : Action → Fpscr × RoundingMode
  | .write value => register.write value thread
  | .set mask => register.set mask thread
  | .clear mask => register.clear mask thread
  | .updateFex => (register.mapBits summarizeFex, thread)
  | .updateVx => (register.mapBits summarizeVx, thread)
  | .updateSummaries => (register.mapBits summarize, thread)
  | .enter => register.enter thread
  | .leave => register.leave thread

def actAll (actions : List Action) (start : Fpscr × RoundingMode) : Fpscr × RoundingMode :=
  actions.foldl (fun state action => state.1.act state.2 action) start

def Action.opens (isOpen : Bool) : Action → Bool
  | .enter => true
  | .leave => false
  | .write _ | .set _ | .clear _ | .updateFex | .updateVx | .updateSummaries => isOpen

def windowOpen (actions : List Action) : Bool :=
  actions.foldl Action.opens false

/-- The modes of RN, environment and thread. Inside a window the environment holds
the ambient mode and the thread has the guest's. -/
structure Linked (ambient : RoundingMode) (isOpen : Bool) (state : Fpscr × RoundingMode) : Prop where
  host : state.1.host = .native state.1.rounding (if isOpen then some ambient else none)
  thread : state.2 = if isOpen then state.1.rounding else ambient

/-- RN is all that a rounding mode depends on. -/
theorem Agree.ofBits {bits other : Word} (agree : Agree rn bits other) :
    RoundingMode.ofBits bits = RoundingMode.ofBits other := by
  have same (i : Nat) (inside : BitVec.twoPow 32 i &&& rn = BitVec.twoPow 32 i) (bound : i < 32) :
      bits.getLsbD i = other.getLsbD i := by
    have has := (agree.mono inside).has
    rw [has_twoPow bits bound, has_twoPow other bound] at has
    exact Bool.eq_iff_iff.mpr has
  rw [RoundingMode.ofBits, RoundingMode.ofBits, same 1 (by decide) (by decide),
    same 0 (by decide) (by decide)]

namespace Linked

variable {ambient : RoundingMode} {isOpen : Bool} {register : Fpscr} {thread : RoundingMode}

theorem create (initial : Word) (guest : RoundingMode) (ambient : RoundingMode) :
    Linked ambient false (Fpscr.create initial (.native guest none) ambient) :=
  ⟨rfl, rfl⟩

/-- A write that keeps RN tells the environment nothing, and need not. -/
theorem write (linked : Linked ambient isOpen (register, thread)) (value : Word) :
    Linked ambient isOpen (register.write value thread) := by
  obtain ⟨hostMode, threadMode⟩ := linked
  unfold Fpscr.write
  split
  next same =>
    have kept : ({ register with bits := value } : Fpscr).rounding = register.rounding := same
    constructor
    · rw [kept]
      exact hostMode
    · rw [kept]
      exact threadMode
  next changed =>
    -- The environment takes the new mode, and hands it to the thread in a window.
    simp only at hostMode threadMode
    rw [hostMode]
    cases isOpen with
    | false => exact ⟨rfl, threadMode⟩
    | true => exact ⟨rfl, rfl⟩

theorem mapBits (linked : Linked ambient isOpen (register, thread)) {change : Word → Word}
    (keeps : Agree rn (change register.bits) register.bits) :
    Linked ambient isOpen (register.mapBits change, thread) := by
  obtain ⟨hostMode, threadMode⟩ := linked
  have kept : (register.mapBits change).rounding = register.rounding := keeps.ofBits
  constructor
  · rw [kept]
    exact hostMode
  · rw [kept]
    exact threadMode

theorem enter (linked : Linked ambient isOpen (register, thread)) :
    Linked ambient true (register.enter thread) := by
  obtain ⟨hostMode, threadMode⟩ := linked
  simp only at hostMode threadMode
  unfold Fpscr.enter
  rw [hostMode]
  cases isOpen with
  | false =>
    subst threadMode
    exact ⟨rfl, rfl⟩
  | true => exact ⟨rfl, rfl⟩

theorem leave (linked : Linked ambient isOpen (register, thread)) :
    Linked ambient false (register.leave thread) := by
  obtain ⟨hostMode, threadMode⟩ := linked
  simp only at hostMode threadMode
  unfold Fpscr.leave
  rw [hostMode]
  cases isOpen with
  | false => exact ⟨rfl, threadMode⟩
  | true => exact ⟨rfl, rfl⟩

theorem act (linked : Linked ambient isOpen (register, thread)) (action : Action) :
    Linked ambient (action.opens isOpen) (register.act thread action) := by
  cases action with
  | write value => exact linked.write value
  | set mask => exact linked.write _
  | clear mask => exact linked.write _
  | updateFex => exact linked.mapBits (agree_summarizeFex _ (by decide))
  | updateVx => exact linked.mapBits (agree_summarizeVx _ (by decide))
  | updateSummaries =>
    exact linked.mapBits ((agree_summarizeFex _ (by decide)).trans (agree_summarizeVx _ (by decide)))
  | enter => exact linked.enter
  | leave => exact linked.leave

theorem actAll {state : Fpscr × RoundingMode} (linked : Linked ambient isOpen state) (actions : List Action) :
    Linked ambient (actions.foldl Action.opens isOpen) (Fpscr.actAll actions state) := by
  induction actions generalizing isOpen state with
  | nil => exact linked
  | cons action actions ih => exact ih (linked.act action)

theorem drop (linked : Linked ambient isOpen (register, thread)) : register.host.drop thread = ambient :=
  linked.leave.thread

theorem thread_of_open (linked : Linked ambient true (register, thread)) : thread = register.rounding :=
  linked.thread

theorem thread_of_closed (linked : Linked ambient false (register, thread)) : thread = ambient :=
  linked.thread

end Linked

theorem actAll_linked (initial : Word) (guest ambient : RoundingMode) (actions : List Action) :
    Linked ambient (windowOpen actions)
      (actAll actions (create initial (.native guest none) ambient)) :=
  (Linked.create initial guest ambient).actAll actions

end Fpscr

end PowerFpu
