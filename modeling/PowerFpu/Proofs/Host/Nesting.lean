import Mathlib.Data.List.Induction
import PowerFpu.Proofs.Core.Step

/-! Nested windows on one thread.

Every window keeps the mode that the thread had when it opened, and gives it back when it
closes. The environments inside and outside of it may set modes at any time, so what the
windows in between keep can be stale; the outermost one keeps the mode the thread had when
no window was open. If windows close in the order opposite to that of their opening, this is
the mode that the thread ends in. -/

set_option autoImplicit false

namespace PowerFpu

namespace HostEnvironment

variable (host : HostEnvironment) (mode thread : RoundingMode)

@[simp] theorem kind_setRounding : (host.setRounding mode thread).1.kind = host.kind := by
  rcases host with ⟨guest, _ | saved⟩ | guest <;> rfl

@[simp] theorem kind_enter : (host.enter thread).1.kind = host.kind := by
  rcases host with ⟨guest, _ | saved⟩ | guest <;> rfl

@[simp] theorem kind_leave : (host.leave thread).1.kind = host.kind := by
  rcases host with ⟨guest, _ | saved⟩ | guest <;> rfl

@[simp] theorem kind_create (kind : HostKind) : (create kind thread).kind = kind := by
  cases kind <;> rfl

@[simp] theorem isOpen_create (kind : HostKind) : (create kind thread).isOpen = false := by
  cases kind <;> rfl

@[simp] theorem isOpen_setRounding : (host.setRounding mode thread).1.isOpen = host.isOpen := by
  rcases host with ⟨guest, _ | saved⟩ | guest <;> rfl

theorem setRounding_of_closed {host : HostEnvironment} (closed : host.isOpen = false) (mode thread : RoundingMode) :
    (host.setRounding mode thread).2 = thread := by
  rcases host with ⟨guest, _ | saved⟩ | guest
  · rfl
  · cases closed
  · rfl

end HostEnvironment

namespace HostThread

variable {ι : Type} [DecidableEq ι] (thread : HostThread ι)

section Find
variable (name other : ι)

theorem find?_mk_map (mode : RoundingMode) (entries : List (ι × HostEnvironment)) (host : HostEnvironment) :
    find? ⟨mode, entries.map fun entry => if entry.1 = name then (name, host) else entry⟩ other =
      if other = name then (find? ⟨mode, entries⟩ name).map fun _ => host else find? ⟨mode, entries⟩ other := by
  induction entries with
  | nil => simp [find?]
  | cons entry entries ih =>
    simp only [find?] at ih ⊢
    grind

theorem find?_mk_filter (mode : RoundingMode) (entries : List (ι × HostEnvironment)) :
    find? ⟨mode, entries.filter fun entry => entry.1 ≠ name⟩ other =
      if other = name then none else find? ⟨mode, entries⟩ other := by
  induction entries with
  | nil => simp [find?]
  | cons entry entries ih =>
    simp only [find?] at ih ⊢
    grind

theorem find?_update (operation : HostEnvironment → RoundingMode → HostEnvironment × RoundingMode) :
    (thread.update name operation).find? other =
      if other = name then (thread.find? name).map fun host => (operation host thread.mode).1
      else thread.find? other := by
  unfold update
  split
  next absent => grind
  next host found =>
    rw [find?_mk_map]
    change (if other = name then (thread.find? name).map _ else thread.find? other) = _
    rw [found]
    rfl

theorem find?_update_eq_some {operation : HostEnvironment → RoundingMode → HostEnvironment × RoundingMode}
    {other : ι} {host : HostEnvironment} (found : (thread.update name operation).find? other = some host) :
    ∃ earlier, thread.find? other = some earlier ∧
      host = if other = name then (operation earlier thread.mode).1 else earlier := by
  rw [find?_update] at found
  split at found
  next same =>
    subst same
    obtain ⟨earlier, present, rfl⟩ := Option.map_eq_some_iff.mp found
    exact ⟨earlier, present, (if_pos rfl).symm⟩
  next different => exact ⟨host, found, (if_neg different).symm⟩

theorem find?_drop : (thread.drop name).find? other = if other = name then none else thread.find? other := by
  unfold drop
  split
  next absent => grind
  next host found => exact find?_mk_filter ..

theorem find?_create (kind : HostKind) :
    (thread.create name kind).find? other =
      if other = name then some (.create kind thread.mode) else thread.find? other := by
  have dropped := thread.find?_drop name other
  unfold find? at dropped
  simp only [create, find?, List.find?_append]
  grind

end Find

def hasWindow (name : ι) : Bool :=
  (thread.find? name).any HostEnvironment.isOpen

def hasNative (name : ι) : Bool :=
  (thread.find? name).any fun host => host.kind = .native

/-- The thread's mode once a name has no window. -/
def modeWithout (name : ι) : RoundingMode :=
  (thread.find? name).elim thread.mode fun host => host.drop thread.mode

section Test
variable (name other : ι)

theorem any_find?_update {operation : HostEnvironment → RoundingMode → HostEnvironment × RoundingMode}
    {test : HostEnvironment → Bool} (kept : ∀ host mode, test (operation host mode).1 = test host) :
    ((thread.update name operation).find? other).any test = (thread.find? other).any test := by
  rw [find?_update]
  split
  next same =>
    subst same
    simp [Option.any_map, kept]
  next => rfl

theorem any_find?_drop (test : HostEnvironment → Bool) :
    ((thread.drop name).find? other).any test = (decide (other ≠ name) && (thread.find? other).any test) := by
  rw [find?_drop]
  by_cases same : other = name <;> simp [same]

theorem any_find?_create (test : HostEnvironment → Bool) (kind : HostKind) :
    ((thread.create name kind).find? other).any test =
      if other = name then test (.create kind thread.mode) else (thread.find? other).any test := by
  rw [find?_create]
  by_cases same : other = name <;> simp [same]

@[simp] theorem hasNative_setRounding (mode : RoundingMode) :
    (thread.step (.setRounding name mode)).hasNative other = thread.hasNative other :=
  thread.any_find?_update name other fun host now => by rw [HostEnvironment.kind_setRounding]

@[simp] theorem hasNative_enter : (thread.step (.enter name)).hasNative other = thread.hasNative other :=
  thread.any_find?_update name other fun host now => by rw [HostEnvironment.kind_enter]

@[simp] theorem hasNative_leave : (thread.step (.leave name)).hasNative other = thread.hasNative other :=
  thread.any_find?_update name other fun host now => by rw [HostEnvironment.kind_leave]

@[simp] theorem hasNative_drop : (thread.step (.drop name)).hasNative other =
    (decide (other ≠ name) && thread.hasNative other) :=
  thread.any_find?_drop name other _

@[simp] theorem hasNative_create (kind : HostKind) : (thread.step (.create name kind)).hasNative other =
    if other = name then decide (kind = .native) else thread.hasNative other := by
  have tested := thread.any_find?_create name other (fun host => host.kind = .native) kind
  rwa [HostEnvironment.kind_create] at tested

@[simp] theorem hasWindow_setRounding (mode : RoundingMode) :
    (thread.step (.setRounding name mode)).hasWindow other = thread.hasWindow other :=
  thread.any_find?_update name other fun host now => HostEnvironment.isOpen_setRounding host mode now

@[simp] theorem hasWindow_enter : (thread.step (.enter name)).hasWindow other =
    (thread.hasWindow other || (decide (other = name) && thread.hasNative other)) := by
  rw [step, hasWindow, hasWindow, hasNative, find?_update]
  by_cases same : other = name
  · subst same
    cases thread.find? other with
    | none => simp
    | some host =>
      rcases host with ⟨guest, _ | saved⟩ | guest <;>
        simp [HostEnvironment.enter, HostEnvironment.isOpen, HostEnvironment.kind]
  · simp [same]

@[simp] theorem hasWindow_leave : (thread.step (.leave name)).hasWindow other =
    (decide (other ≠ name) && thread.hasWindow other) := by
  rw [step, hasWindow, hasWindow, find?_update]
  by_cases same : other = name
  · simp [same, Option.any_map, HostEnvironment.isOpen_leave]
  · simp [same]

@[simp] theorem hasWindow_drop : (thread.step (.drop name)).hasWindow other =
    (decide (other ≠ name) && thread.hasWindow other) :=
  thread.any_find?_drop name other _

@[simp] theorem hasWindow_create (kind : HostKind) : (thread.step (.create name kind)).hasWindow other =
    (decide (other ≠ name) && thread.hasWindow other) := by
  rw [step, hasWindow, any_find?_create, HostEnvironment.isOpen_create]
  by_cases same : other = name <;> simp [same, hasWindow]

end Test

section Mode
variable (name : ι)

theorem mode_update (operation : HostEnvironment → RoundingMode → HostEnvironment × RoundingMode) :
    (thread.update name operation).mode =
      (thread.find? name).elim thread.mode fun host => (operation host thread.mode).2 := by
  unfold update
  split
  next absent => rw [absent, Option.elim_none]
  next host found => rw [found, Option.elim_some]

theorem mode_drop : (thread.drop name).mode = thread.modeWithout name := by
  unfold drop modeWithout
  split
  next absent => rw [absent, Option.elim_none]
  next host found => rw [found, Option.elim_some]

theorem mode_leave : (thread.update name HostEnvironment.leave).mode = thread.modeWithout name :=
  thread.mode_update name HostEnvironment.leave

theorem mode_create (kind : HostKind) : (thread.create name kind).mode = thread.modeWithout name :=
  thread.mode_drop name

end Mode

end HostThread

/-- What the actions so far say of the native environments, whichever modes were set: which
of them exist, and which have an open window, the last opened first. -/
structure Nesting (ι : Type) where
  natives : List ι
  windows : List ι

namespace Nesting

variable {ι : Type} [DecidableEq ι]

def empty : Nesting ι :=
  ⟨[], []⟩

theorem filter_ne_of_not_mem {name : ι} {names : List ι} (absent : name ∉ names) :
    names.filter (· ≠ name) = names := by
  rw [List.filter_eq_self]
  intro other mem
  exact decide_eq_true fun same => absent (same ▸ mem)

def without (nesting : Nesting ι) (name : ι) : Nesting ι :=
  ⟨nesting.natives.filter (· ≠ name), nesting.windows.filter (· ≠ name)⟩

def note (nesting : Nesting ι) : HostAction ι → Nesting ι
  | .create name .native => ⟨name :: (nesting.without name).natives, (nesting.without name).windows⟩
  | .create name .detached | .drop name => nesting.without name
  | .setRounding .. => nesting
  | .enter name =>
    if name ∈ nesting.natives ∧ name ∉ nesting.windows then { nesting with windows := name :: nesting.windows }
    else nesting
  | .leave name => { nesting with windows := (nesting.without name).windows }

/-- A window may close only if no other was opened after it. A new environment takes the
place of one of the same name, which is dropped. -/
def Permits (nesting : Nesting ι) : HostAction ι → Prop
  | .create name _ | .leave name | .drop name => name ∈ nesting.windows → nesting.windows.head? = some name
  | .setRounding .. | .enter _ => True

def PermitsAll : List (HostAction ι) → Nesting ι → Prop
  | [], _ => True
  | action :: actions, nesting => nesting.Permits action ∧ PermitsAll actions (nesting.note action)

instance (nesting : Nesting ι) : (action : HostAction ι) → Decidable (nesting.Permits action)
  | .create name _ | .leave name | .drop name =>
    inferInstanceAs (Decidable (name ∈ nesting.windows → nesting.windows.head? = some name))
  | .setRounding .. | .enter _ => inferInstanceAs (Decidable True)

instance decidablePermitsAll : (actions : List (HostAction ι)) → (nesting : Nesting ι) →
    Decidable (PermitsAll actions nesting)
  | [], _ => inferInstanceAs (Decidable True)
  | action :: actions, nesting =>
    have := decidablePermitsAll actions (nesting.note action)
    inferInstanceAs (Decidable (nesting.Permits action ∧ PermitsAll actions (nesting.note action)))

def noteAll (actions : List (HostAction ι)) (nesting : Nesting ι) : Nesting ι :=
  actions.foldl note nesting

/-- How a thread hangs together with the nesting of its windows. The outermost window, the
last one in the list, keeps the mode that the thread has outside of all windows. -/
structure Describes (nesting : Nesting ι) (ambient : RoundingMode) (thread : HostThread ι) : Prop where
  natives : ∀ name, name ∈ nesting.natives ↔ thread.hasNative name = true
  windows : ∀ name, name ∈ nesting.windows ↔ thread.hasWindow name = true
  once : nesting.windows.Nodup
  outside : nesting.windows = [] → thread.mode = ambient
  outermost : ∀ name, nesting.windows.getLast? = some name →
    ∃ guest, thread.find? name = some (.native guest (some ambient))

namespace Describes

variable {nesting : Nesting ι} {ambient : RoundingMode} {thread : HostThread ι}
  (describes : nesting.Describes ambient thread)
include describes

theorem closed_of_not_mem {name : ι} (absent : name ∉ nesting.windows) {host : HostEnvironment}
    (found : thread.find? name = some host) : host.isOpen = false := by
  rw [describes.windows, HostThread.hasWindow, found] at absent
  exact Bool.eq_false_iff.mpr absent

theorem find?_of_closed {name : ι} (isNative : name ∈ nesting.natives) (closed : name ∉ nesting.windows) :
    ∃ guest, thread.find? name = some (.native guest none) := by
  rw [describes.natives, HostThread.hasNative] at isNative
  cases found : thread.find? name with
  | none => simp [found] at isNative
  | some host =>
    have isClosed := describes.closed_of_not_mem closed found
    rcases host with ⟨guest, _ | saved⟩ | guest
    · exact ⟨guest, rfl⟩
    · cases isClosed
    · simp [found, HostEnvironment.kind] at isNative

/-- Closing the innermost window leaves the other windows as they are, or the thread in its
own mode if there are none. -/
theorem close {name : ι} (permitted : name ∈ nesting.windows → nesting.windows.head? = some name) :
    let remaining := (nesting.without name).windows
    (remaining = [] → thread.modeWithout name = ambient) ∧
      ∀ last, remaining.getLast? = some last →
        last ≠ name ∧ ∃ guest, thread.find? last = some (.native guest (some ambient)) := by
  by_cases inside : name ∈ nesting.windows
  · obtain ⟨rest, isHead⟩ := List.head?_eq_some_iff.mp (permitted inside)
    have once := describes.once
    have outermost := describes.outermost
    rw [isHead] at once outermost
    obtain ⟨fresh, -⟩ := List.nodup_cons.mp once
    have remaining : (nesting.without name).windows = rest := by
      have others := filter_ne_of_not_mem fresh
      simpa [without, isHead] using others
    rw [remaining]
    refine ⟨?_, ?_⟩
    · rintro rfl
      obtain ⟨guest, found⟩ := outermost name rfl
      simp [HostThread.modeWithout, found, HostEnvironment.drop, HostEnvironment.leave]
    · intro last isLast
      have other : last ≠ name := fun same => fresh (same ▸ List.mem_of_getLast? isLast)
      exact ⟨other, outermost last (by rw [List.getLast?_cons, isLast, Option.getD_some])⟩
  · have remaining : (nesting.without name).windows = nesting.windows := filter_ne_of_not_mem inside
    rw [remaining]
    refine ⟨?_, ?_⟩
    · intro none
      rw [← describes.outside none]
      unfold HostThread.modeWithout
      cases found : thread.find? name with
      | none => rfl
      | some host => exact HostEnvironment.drop_of_closed (describes.closed_of_not_mem inside found) thread.mode
    · intro last isLast
      exact ⟨fun same => inside (same ▸ List.mem_of_getLast? isLast), describes.outermost last isLast⟩

theorem setRounding (name : ι) (mode : RoundingMode) :
    nesting.Describes ambient (thread.step (.setRounding name mode)) := by
  refine ⟨?_, ?_, describes.once, ?_, ?_⟩
  · simpa using describes.natives
  · simpa using describes.windows
  · intro none
    rw [HostThread.step, HostThread.mode_update, ← describes.outside none]
    cases found : thread.find? name with
    | none => rfl
    | some host =>
      have absent : name ∉ nesting.windows := by simp [none]
      exact HostEnvironment.setRounding_of_closed (describes.closed_of_not_mem absent found) mode thread.mode
  · intro last isLast
    obtain ⟨guest, found⟩ := describes.outermost last isLast
    rw [HostThread.step, HostThread.find?_update]
    split
    next same =>
      subst same
      exact ⟨mode, by rw [found]; rfl⟩
    next => exact ⟨guest, found⟩

theorem enter (name : ι) : (nesting.note (.enter name)).Describes ambient (thread.step (.enter name)) := by
  have natives : ∀ other, other ∈ nesting.natives ↔ (thread.step (.enter name)).hasNative other = true := by
    simpa using describes.natives
  have windows (other : ι) : (thread.step (.enter name)).hasWindow other = true ↔
      other ∈ nesting.windows ∨ other = name ∧ other ∈ nesting.natives := by
    simp [describes.windows, describes.natives]
  by_cases opens : name ∈ nesting.natives ∧ name ∉ nesting.windows
  · obtain ⟨isNative, closed⟩ := opens
    obtain ⟨guest, found⟩ := describes.find?_of_closed isNative closed
    have noted : nesting.note (.enter name) = ⟨nesting.natives, name :: nesting.windows⟩ :=
      if_pos ⟨isNative, closed⟩
    rw [noted]
    refine ⟨natives, ?_, List.nodup_cons.mpr ⟨closed, describes.once⟩, nofun, ?_⟩
    · intro other
      rw [windows, List.mem_cons]
      grind
    · intro last isLast
      rw [HostThread.step, HostThread.find?_update]
      cases none : nesting.windows with
      | nil =>
        -- The first window is the outermost, and keeps the mode of the thread as it is now.
        obtain rfl : name = last := by simpa [none] using isLast
        exact ⟨guest, by rw [if_pos rfl, found, ← describes.outside none]; rfl⟩
      | cons inner rest =>
        have kept : nesting.windows.getLast? = some last := by
          simpa [none, List.getLast?_cons_cons] using isLast
        have other : last ≠ name := fun same => closed (same ▸ List.mem_of_getLast? kept)
        rw [if_neg other]
        exact describes.outermost last kept
  · -- A native environment outside of its window would open it, so there is nothing to open.
    have noted : nesting.note (.enter name) = nesting := if_neg opens
    rw [noted]
    refine ⟨natives, ?_, describes.once, ?_, ?_⟩
    · intro other
      rw [windows]
      grind
    · intro none
      rw [HostThread.step, HostThread.mode_update, ← describes.outside none]
      cases found : thread.find? name with
      | none => rfl
      | some host =>
        have absent : ¬ thread.hasNative name = true := by
          rw [← describes.natives]
          exact fun isNative => opens ⟨isNative, by simp [none]⟩
        rcases host with ⟨guest, saved⟩ | guest
        · simp [HostThread.hasNative, found, HostEnvironment.kind] at absent
        · rfl
    · intro last isLast
      obtain ⟨guest, found⟩ := describes.outermost last isLast
      rw [HostThread.step, HostThread.find?_update]
      split
      next same =>
        subst same
        exact ⟨guest, by rw [found]; rfl⟩
      next => exact ⟨guest, found⟩

theorem leave {name : ι} (permitted : nesting.Permits (.leave name)) :
    (nesting.note (.leave name)).Describes ambient (thread.step (.leave name)) := by
  obtain ⟨closes, outermost⟩ := describes.close permitted
  refine ⟨?_, ?_, describes.once.filter _, ?_, ?_⟩
  · simpa [note] using describes.natives
  · simp [note, without, describes.windows, and_comm]
  · intro none
    exact (thread.mode_leave name).trans (closes none)
  · intro last isLast
    obtain ⟨other, kept⟩ := outermost last isLast
    rwa [HostThread.step, HostThread.find?_update, if_neg other]

theorem drop {name : ι} (permitted : nesting.Permits (.drop name)) :
    (nesting.note (.drop name)).Describes ambient (thread.step (.drop name)) := by
  obtain ⟨closes, outermost⟩ := describes.close permitted
  refine ⟨?_, ?_, describes.once.filter _, ?_, ?_⟩
  · simp [note, without, describes.natives, and_comm]
  · simp [note, without, describes.windows, and_comm]
  · intro none
    exact (thread.mode_drop name).trans (closes none)
  · intro last isLast
    obtain ⟨other, kept⟩ := outermost last isLast
    rwa [HostThread.step, HostThread.find?_drop, if_neg other]

theorem create {name : ι} (kind : HostKind) (permitted : nesting.Permits (.create name kind)) :
    (nesting.note (.create name kind)).Describes ambient (thread.step (.create name kind)) := by
  obtain ⟨closes, outermost⟩ := describes.close permitted
  have windows : (nesting.note (.create name kind)).windows = (nesting.without name).windows := by
    cases kind <;> rfl
  refine ⟨?_, ?_, windows ▸ describes.once.filter _, ?_, ?_⟩
  · intro other
    by_cases same : other = name <;> cases kind <;> simp [note, without, describes.natives, same]
  · simp [windows, without, describes.windows, and_comm]
  · intro none
    exact (thread.mode_create name kind).trans (closes (windows ▸ none))
  · intro last isLast
    obtain ⟨other, kept⟩ := outermost last (windows ▸ isLast)
    rwa [HostThread.step, HostThread.find?_create, if_neg other]

theorem step {action : HostAction ι} (permitted : nesting.Permits action) :
    (nesting.note action).Describes ambient (thread.step action) := by
  cases action with
  | create name kind => exact describes.create kind permitted
  | setRounding name mode => exact describes.setRounding name mode
  | enter name => exact describes.enter name
  | leave name => exact describes.leave permitted
  | drop name => exact describes.drop permitted

theorem run {actions : List (HostAction ι)} (permitted : PermitsAll actions nesting) :
    (noteAll actions nesting).Describes ambient (thread.run actions) := by
  induction actions generalizing nesting thread with
  | nil => exact describes
  | cons action actions ih => exact ih (describes.step permitted.1) permitted.2

theorem mode_of_closed (closed : ∀ name, thread.hasWindow name = false) : thread.mode = ambient := by
  refine describes.outside (List.eq_nil_iff_forall_not_mem.mpr fun name inside => ?_)
  have isOpen := (describes.windows name).mp inside
  rw [closed name] at isOpen
  cases isOpen

end Describes

theorem empty_describes (ambient : RoundingMode) : (empty : Nesting ι).Describes ambient ⟨ambient, []⟩ where
  natives name := by simp [empty, HostThread.hasNative, HostThread.find?]
  windows name := by simp [empty, HostThread.hasWindow, HostThread.find?]
  once := List.nodup_nil
  outside _ := rfl
  outermost _ isLast := by cases isLast

end Nesting

namespace HostAction

variable {ι : Type}

def name : HostAction ι → ι
  | .create name _ | .setRounding name _ | .enter name | .leave name | .drop name => name

/-- Whether the environment of a name is another one after an action, or none. -/
def replaces [DecidableEq ι] (name : ι) : HostAction ι → Bool
  | .create other _ | .drop other => other = name
  | .setRounding .. | .enter _ | .leave _ => false

def modeSet? [DecidableEq ι] (name : ι) : HostAction ι → Option RoundingMode
  | .setRounding other mode => if other = name then some mode else none
  | .create .. | .enter _ | .leave _ | .drop _ => none

end HostAction

namespace HostThread

variable {ι : Type} [DecidableEq ι] (thread : HostThread ι)

/-- An environment that an action does not replace keeps its kind, and its mode unless the
action sets it. -/
theorem find?_step {name : ι} {action : HostAction ι} (kept : action.replaces name = false)
    {host : HostEnvironment} (found : (thread.step action).find? name = some host) :
    ∃ earlier, thread.find? name = some earlier ∧ host.kind = earlier.kind ∧
      host.rounding = (action.modeSet? name).getD earlier.rounding := by
  cases action with
  | create other kind =>
    have different : name ≠ other := fun same => by simp [HostAction.replaces, same] at kept
    rw [step, find?_create, if_neg different] at found
    exact ⟨host, found, rfl, rfl⟩
  | drop other =>
    have different : name ≠ other := fun same => by simp [HostAction.replaces, same] at kept
    rw [step, find?_drop, if_neg different] at found
    exact ⟨host, found, rfl, rfl⟩
  | setRounding other mode =>
    obtain ⟨earlier, present, rfl⟩ := thread.find?_update_eq_some other found
    exact ⟨earlier, present, by split <;> simp, by grind [HostAction.modeSet?, HostEnvironment.rounding_setRounding]⟩
  | enter other =>
    obtain ⟨earlier, present, rfl⟩ := thread.find?_update_eq_some other found
    exact ⟨earlier, present, by split <;> simp, by split <;> simp [HostAction.modeSet?]⟩
  | leave other =>
    obtain ⟨earlier, present, rfl⟩ := thread.find?_update_eq_some other found
    exact ⟨earlier, present, by split <;> simp, by split <;> simp [HostAction.modeSet?]⟩

/-- Every environment was created by some action, has not been replaced since, and is in the
mode set last, or in the one it was created with. -/
theorem find?_run (ambient : RoundingMode) {actions : List (HostAction ι)} {name : ι} {host : HostEnvironment}
    (found : (run ⟨ambient, []⟩ actions).find? name = some host) :
    ∃ before after, actions = before ++ .create name host.kind :: after ∧
      (∀ action ∈ after, action.replaces name = false) ∧
      host.rounding = (after.filterMap (HostAction.modeSet? name)).getLast?.getD
        (HostEnvironment.create host.kind (run ⟨ambient, []⟩ before).mode).rounding := by
  -- From the last action backwards, as the environment is the one that was created last.
  induction actions using List.reverseRecOn generalizing host with
  | nil => cases found
  | append_singleton actions action ih =>
    have last : run ⟨ambient, []⟩ (actions ++ [action]) = (run ⟨ambient, []⟩ actions).step action := by
      simp [run]
    rw [last] at found
    cases replaced : action.replaces name with
    | true =>
      cases action with
      | create other kind =>
        obtain rfl : other = name := by simpa [HostAction.replaces] using replaced
        rw [step, find?_create, if_pos rfl, Option.some.injEq] at found
        subst found
        exact ⟨actions, [], by simp, nofun, by simp⟩
      | drop other =>
        obtain rfl : other = name := by simpa [HostAction.replaces] using replaced
        simp [step, find?_drop] at found
      | setRounding | enter | leave => cases replaced
    | false =>
      -- What was created before keeps its place; only the mode set last can change.
      obtain ⟨earlier, present, kind, rounding⟩ := find?_step _ replaced found
      obtain ⟨before, after, rfl, kept, origin⟩ := ih present
      refine ⟨before, after ++ [action], by simp [kind], ?_, ?_⟩
      · intro other mem
        rcases List.mem_append.mp mem with mem | mem
        · exact kept other mem
        · rwa [List.mem_singleton.mp mem]
      · rw [rounding, kind, origin, List.filterMap_append]
        cases set : action.modeSet? name <;> simp [set]

theorem mode_step_of_detached {action : HostAction ι}
    (detached : ∀ host, thread.find? action.name = some host → host.kind = .detached) :
    (thread.step action).mode = thread.mode := by
  have untouched (operation : HostEnvironment → RoundingMode → HostEnvironment × RoundingMode)
      (still : ∀ guest, (operation (.detached guest) thread.mode).2 = thread.mode) :
      (thread.find? action.name).elim thread.mode (fun host => (operation host thread.mode).2) = thread.mode := by
    cases found : thread.find? action.name with
    | none => rfl
    | some host =>
      rcases host with ⟨guest, saved⟩ | guest
      · cases detached _ found
      · exact still guest
  cases action with
  | create name kind => exact (thread.mode_create name kind).trans (untouched HostEnvironment.leave fun _ => rfl)
  | drop name => exact (thread.mode_drop name).trans (untouched HostEnvironment.leave fun _ => rfl)
  | setRounding name mode =>
    exact (thread.mode_update name _).trans (untouched (HostEnvironment.setRounding mode) fun _ => rfl)
  | enter name => exact (thread.mode_update name _).trans (untouched HostEnvironment.enter fun _ => rfl)
  | leave name => exact (thread.mode_update name _).trans (untouched HostEnvironment.leave fun _ => rfl)

/-- Whatever the order of the other actions, windows that close last opened first give the
thread its own mode back, while native environments keep to the modes set on them. -/
theorem windows_unwind (ambient : RoundingMode) (actions : List (HostAction ι))
    (innermostFirst : Nesting.PermitsAll actions Nesting.empty) :
    let final := run ⟨ambient, []⟩ actions
    (∀ name, name ∈ (Nesting.noteAll actions Nesting.empty).windows ↔ final.hasWindow name = true) ∧
    ((∀ name, final.hasWindow name = false) → final.mode = ambient) ∧
    (∀ name host, final.find? name = some host → host.kind = .native →
      ∃ before after, actions = before ++ .create name .native :: after ∧
        (∀ action ∈ after, action.replaces name = false) ∧
        host.rounding = (after.filterMap (HostAction.modeSet? name)).getLast?.getD
          (run ⟨ambient, []⟩ before).mode) ∧
    ∀ action : HostAction ι, (∀ host, final.find? action.name = some host → host.kind = .detached) →
      (final.step action).mode = final.mode := by
  have describes := (Nesting.empty_describes (ι := ι) ambient).run innermostFirst
  refine ⟨describes.windows, describes.mode_of_closed, ?_, fun action => mode_step_of_detached _⟩
  intro name host found isNative
  obtain ⟨before, after, parts, kept, rounding⟩ := find?_run ambient found
  rw [isNative] at parts rounding
  exact ⟨before, after, parts, kept, rounding⟩

/-- The outer environment sets a mode and is entered again while the inner window is open, and
the inner window gives back a mode that is out of date. -/
theorem windows_unwind_after_stale_mode :
    let actions : List (HostAction Bool) :=
      [.create false .native, .create true .native, .setRounding false .towardZero, .enter false,
        .setRounding true .towardPosInf, .enter true, .setRounding false .towardNegInf, .enter false,
        .leave true]
    Nesting.PermitsAll (actions ++ [.leave false]) Nesting.empty ∧
      (run ⟨.nearest, []⟩ actions).mode = .towardZero ∧
      (run ⟨.nearest, []⟩ (actions ++ [.leave false])).mode = .nearest := by
  refine ⟨by decide, by decide, ?_⟩
  refine (windows_unwind .nearest _ (by decide)).2.1 fun name => ?_
  cases name <;> decide

end HostThread

end PowerFpu
