import PowerFpu.Architecture

/-! The host's floating-point environment, as one processor drives it.

The rounding mode of the host belongs to a thread. A native environment installs
the guest's mode on the thread while a window is open and gives the thread its
own mode back when the window closes. A detached one only records the mode. Each
operation takes the thread's mode and returns it with the environment. -/

set_option autoImplicit false

namespace PowerFpu

inductive HostKind where
  | native
  | detached
  deriving DecidableEq, Repr

def HostKind.name : HostKind → String
  | .native => "Native"
  | .detached => "Detached"

/-- A native environment holds the thread's mode exactly while its window is open. -/
inductive HostEnvironment where
  | native (guest : RoundingMode) (saved : Option RoundingMode)
  | detached (guest : RoundingMode)
  deriving DecidableEq, Repr

namespace HostEnvironment

def create (kind : HostKind) (thread : RoundingMode) : HostEnvironment :=
  match kind with
  | .native => .native thread none
  | .detached => .detached .nearest

def rounding : HostEnvironment → RoundingMode
  | .native guest _ | .detached guest => guest

def kind : HostEnvironment → HostKind
  | .native .. => .native
  | .detached _ => .detached

def isOpen : HostEnvironment → Bool
  | .native _ saved => saved.isSome
  | .detached _ => false

/-- Inside an open window the thread changes at once. -/
def setRounding (mode : RoundingMode) : HostEnvironment → RoundingMode → HostEnvironment × RoundingMode
  | .native _ none, thread => (.native mode none, thread)
  | .native _ (some saved), _ => (.native mode (some saved), mode)
  | .detached _, thread => (.detached mode, thread)

/-- Opening a window again keeps the mode that was saved first. -/
def enter : HostEnvironment → RoundingMode → HostEnvironment × RoundingMode
  | .native guest none, thread => (.native guest (some thread), guest)
  | .native guest (some saved), _ => (.native guest (some saved), guest)
  | .detached guest, thread => (.detached guest, thread)

def leave : HostEnvironment → RoundingMode → HostEnvironment × RoundingMode
  | .native guest (some saved), _ => (.native guest none, saved)
  | .native guest none, thread => (.native guest none, thread)
  | .detached guest, thread => (.detached guest, thread)

/-- The thread's mode once the environment is gone: an open window closes. -/
def drop (host : HostEnvironment) (thread : RoundingMode) : RoundingMode :=
  (host.leave thread).2

@[simp] theorem rounding_setRounding (mode : RoundingMode) (host : HostEnvironment) (thread : RoundingMode) :
    (host.setRounding mode thread).1.rounding = mode := by
  rcases host with ⟨guest, _ | saved⟩ | guest <;> rfl

@[simp] theorem rounding_enter (host : HostEnvironment) (thread : RoundingMode) :
    (host.enter thread).1.rounding = host.rounding := by
  rcases host with ⟨guest, _ | saved⟩ | guest <;> rfl

@[simp] theorem rounding_leave (host : HostEnvironment) (thread : RoundingMode) :
    (host.leave thread).1.rounding = host.rounding := by
  rcases host with ⟨guest, _ | saved⟩ | guest <;> rfl

end HostEnvironment

/-! A host thread and the named environments that live on it. -/

structure HostThread (ι : Type) where
  mode : RoundingMode
  environments : List (ι × HostEnvironment)

inductive HostAction (ι : Type) where
  | create (name : ι) (kind : HostKind)
  | setRounding (name : ι) (mode : RoundingMode)
  | enter (name : ι)
  | leave (name : ι)
  | drop (name : ι)

namespace HostThread

variable {ι : Type} [DecidableEq ι]

def find? (thread : HostThread ι) (name : ι) : Option HostEnvironment :=
  (thread.environments.find? fun entry => entry.1 = name).map (·.2)

/-- Runs an operation of the named environment; an absent name changes nothing. -/
def update (thread : HostThread ι) (name : ι)
    (operation : HostEnvironment → RoundingMode → HostEnvironment × RoundingMode) : HostThread ι :=
  match thread.find? name with
  | none => thread
  | some host =>
    let (host, mode) := operation host thread.mode
    ⟨mode, thread.environments.map fun entry => if entry.1 = name then (name, host) else entry⟩

def drop (thread : HostThread ι) (name : ι) : HostThread ι :=
  match thread.find? name with
  | none => thread
  | some host => ⟨host.drop thread.mode, thread.environments.filter fun entry => entry.1 ≠ name⟩

/-- A new environment starts in the thread's mode; one of the same name is dropped after that. -/
def create (thread : HostThread ι) (name : ι) (kind : HostKind) : HostThread ι :=
  let host := HostEnvironment.create kind thread.mode
  let dropped := thread.drop name
  ⟨dropped.mode, dropped.environments ++ [(name, host)]⟩

def step (thread : HostThread ι) : HostAction ι → HostThread ι
  | .create name kind => thread.create name kind
  | .setRounding name mode => thread.update name (HostEnvironment.setRounding mode)
  | .enter name => thread.update name HostEnvironment.enter
  | .leave name => thread.update name HostEnvironment.leave
  | .drop name => thread.drop name

def run (thread : HostThread ι) (actions : List (HostAction ι)) : HostThread ι :=
  actions.foldl step thread

end HostThread

end PowerFpu
