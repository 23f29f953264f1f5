import SysProg.Library.Actions
import SysProg.Library.Counts

/-! # Requests in shared memory

`parent` and `child` of `posix/ipc/shared-memory.c`, for any number of requests. `SIGUSR1` is
blocked except in `sigsuspend`, where its handler only sets a variable that is not used. -/

namespace SysProg.SharedMemory

/-- The parent before its next access to the shared memory or system call. `test` to `kill` are in
the loop, for request `i`. -/
inductive Parent where
  | test (i : ℕ)
  /-- In `sigsuspend`. -/
  | suspend (i : ℕ)
  | clearReady (i : ℕ)
  | storeX (i : ℕ)
  | storeCmd (i : ℕ)
  | setReady (i : ℕ)
  | print (i : ℕ)
  | kill (i : ℕ)
  | quitClearReady
  | quitStoreCmd
  | quitSetReady
  | quitKill
  | wait
  | exited
  deriving DecidableEq, Repr

/-- The same for the child. It reads `x` twice. -/
inductive Child where
  | firstSetReady
  | firstKill
  | test
  /-- In `sigsuspend`. -/
  | suspend
  | clearReady
  | loadCmd
  | loadX
  | loadXAgain (x : Long)
  | storeY (x x' : Long)
  | setReady
  | kill
  | exited
  deriving DecidableEq, Repr

/-- The processes, the shared memory and whether `SIGUSR1` is pending for them. `stored` are the
values that the child has stored in `y`, and `printed` are those of `x` and `y` that the parent has
printed. -/
structure State where
  parent : Parent
  child : Child
  pready : Bool
  cready : Bool
  x : Long
  y : Long
  cmd : Char
  parentPending : Bool
  childPending : Bool
  stored : List Long
  printed : List (Long × Long)
  deriving DecidableEq, Repr

/-- The parent before request `i`, or behind its loop. -/
def Parent.loop (n i : ℕ) : Parent :=
  if i < n then .test i else .quitClearReady

/-- `main` has cleared both flags. -/
def start (n : ℕ) (x y : Long) (cmd : Char) : State :=
  ⟨.loop n 0, .firstSetReady, false, false, x, y, cmd, false, false, [], []⟩

def parentStep (n : ℕ) (s : State) : Option State :=
  match s.parent with
  | .test i =>
      if s.cready then some { s with parent := .clearReady i }
      else some { s with parent := .suspend i }
  | .clearReady i => some { s with parent := .storeX i, cready := false }
  | .storeX i => some { s with parent := .storeCmd i, x := i }
  | .storeCmd i => some { s with parent := .setReady i, cmd := '*' }
  | .setReady i => some { s with parent := .print i, pready := true }
  | .print i => some { s with parent := .kill i, printed := s.printed ++ [(s.x, s.y)] }
  | .kill i => some { s with parent := .loop n (i + 1), childPending := true }
  | .quitClearReady => some { s with parent := .quitStoreCmd, cready := false }
  | .quitStoreCmd => some { s with parent := .quitSetReady, cmd := 'Q' }
  | .quitSetReady => some { s with parent := .quitKill, pready := true }
  | .quitKill => some { s with parent := .wait, childPending := true }
  | .wait => if s.child = .exited then some { s with parent := .exited } else none
  | .suspend _ | .exited => none

def childStep (s : State) : Option State :=
  match s.child with
  | .firstSetReady => some { s with child := .firstKill, cready := true }
  | .firstKill => some { s with child := .test, parentPending := true }
  | .test =>
      if s.pready then some { s with child := .clearReady } else some { s with child := .suspend }
  | .clearReady => some { s with child := .loadCmd, pready := false }
  | .loadCmd =>
      if s.cmd = 'Q' then some { s with child := .exited } else some { s with child := .loadX }
  | .loadX => some { s with child := .loadXAgain s.x }
  | .loadXAgain x => some { s with child := .storeY x s.x }
  | .storeY x x' =>
      some { s with child := .setReady, y := x * x', stored := s.stored ++ [x * x'] }
  | .setReady => some { s with child := .kill, cready := true }
  | .kill => some { s with child := .test, parentPending := true }
  | .suspend | .exited => none

/-- `sigsuspend` returns after the handler. -/
def deliverParent (s : State) : Option State :=
  match s.parent with
  | .suspend i =>
      if s.parentPending then some { s with parent := .test i, parentPending := false } else none
  | _ => none

def deliverChild (s : State) : Option State :=
  if s.child = .suspend ∧ s.childPending then
    some { s with child := .test, childPending := false }
  else none

inductive Action where
  | parent
  | child
  | deliverParent
  | deliverChild
  deriving DecidableEq, Repr

def next (n : ℕ) (s : State) : Action → Option State
  | .parent => parentStep n s
  | .child => childStep s
  | .deliverParent => deliverParent s
  | .deliverChild => deliverChild s

end SysProg.SharedMemory
