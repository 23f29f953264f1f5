import SysProg.Library.Actions

/-! # The lock file of a daemon

`get_daemon_pid`, `exit_handler` and what `main` of `posix/daemon/daemon.c` does with the lock
file, one system call at a time. Each invocation with `start` creates at most one daemon, and the
daemon at most one lock file, so that all three have the same name here. -/

namespace SysProg.DaemonLockFile

inductive Command where
  | start
  | stop
  | status
  deriving DecidableEq, Repr

/-- What `get_daemon_pid` returns: -1, the 0 that it reads from an empty file, or a pid. -/
inductive DaemonPid (ι : Type) where
  | missing
  | zero
  | pid (daemon : ι)
  deriving DecidableEq, Repr

/-- The next thing that an invocation, or its daemon, does to the lock file. The second call of
`get_daemon_pid` by `stop` is marked with `again`. -/
inductive Phase (ι : Type) where
  | opening (again : Bool)
  | reading (file : ι) (again : Bool)
  | probing (pid : Option ι) (again : Bool)
  | removing (again : Bool)
  | creating
  | writing
  | running
  /-- In `exit_handler`, which `signal_handler` has called. -/
  | handling
  /-- In `exit_handler`, which `exit` has called. -/
  | exiting
  /-- At the end of `exit`. -/
  | leaving
  | terminated
  deriving DecidableEq, Repr

/-- The process is a daemon that has created a lock file and has not ended. -/
def Phase.isDaemon {ι : Type} : Phase ι → Bool
  | .writing | .running | .handling | .exiting | .leaving => true
  | _ => false

/-- `lockFile` is the file that is found under the path, `written` tells the files that have the
pid of their daemon; the others are empty. -/
structure State (ι : Type) where
  lockFile : Option ι
  written : ι → Bool
  phase : ι → Phase ι

def start {ι : Type} : State ι :=
  ⟨none, fun _ => false, fun _ => .opening false⟩

/-- One of the processes calls the system, gets a signal that its handler catches, leaves through
an error exit or is killed. The signal that `stop` sends is one of those that may come at any
time. -/
inductive Action (ι : Type) where
  | systemCall (i : ι)
  | signal (i : ι)
  | exit (i : ι)
  | kill (i : ι)
  deriving DecidableEq, Repr

variable {ι : Type} [DecidableEq ι]

def State.goto (s : State ι) (i : ι) (phase : Phase ι) : State ι :=
  { s with phase := Function.update s.phase i phase }

/-- What comes after the return of `get_daemon_pid`; `stop` stops itself with `kill(0, SIGTERM)`. -/
def afterPid (command : Command) (again : Bool) (pid : DaemonPid ι) : Phase ι :=
  match command, again, pid with
  | .start, _, .pid _ => .terminated
  | .start, _, _ => .creating
  | .stop, false, .pid _ => .opening true
  | _, _, _ => .terminated

/-- The next system call of a process. -/
def systemCall (command : ι → Command) (s : State ι) (i : ι) : Option (State ι) :=
  match s.phase i with
  | .opening again =>
      match s.lockFile with
      | none => some (s.goto i (afterPid (command i) again .missing))
      | some file => some (s.goto i (.reading file again))
  | .reading file again =>
      some (s.goto i (.probing (if s.written file then some file else none) again))
  | .probing none again => some (s.goto i (afterPid (command i) again .zero))
  | .probing (some daemon) again =>
      if (s.phase daemon).isDaemon then
        some (s.goto i (afterPid (command i) again (.pid daemon)))
      else some (s.goto i (.removing again))
  | .removing again =>
      some ({ s with lockFile := none }.goto i (afterPid (command i) again .missing))
  | .creating =>
      match s.lockFile with
      | none => some ({ s with lockFile := some i }.goto i .writing)
      | some _ => some (s.goto i .terminated)
  | .writing => some ({ s with written := Function.update s.written i true }.goto i .running)
  | .running => none
  | .handling => some ({ s with lockFile := none }.goto i .exiting)
  | .exiting => some ({ s with lockFile := none }.goto i .leaving)
  | .leaving => some (s.goto i .terminated)
  | .terminated => none

def next (command : ι → Command) (s : State ι) : Action ι → Option (State ι)
  | .systemCall i => systemCall command s i
  | .signal i => if s.phase i = .running then some (s.goto i .handling) else none
  | .exit i =>
      if s.phase i = .writing ∨ s.phase i = .running then some (s.goto i .exiting) else none
  | .kill i => some (s.goto i .terminated)

def Step (command : ι → Command) : State ι → State ι → Prop :=
  Acts (next command)

end SysProg.DaemonLockFile
