import SysProg.Library.Actions

/-! # A daemon that is started with signals

`posix/ipc/daemonize-group-signal-and-response-signal.c`. The parent signals its process group,
and the daemon answers with signals to the parent. Signals are delivered between the steps of
their receiver; closing files and writing the log are left out. -/

namespace SysProg.GroupSignal

inductive Signal where
  | usr1
  | usr2
  | chld
  deriving DecidableEq, Repr

/-- The next system call of the parent, or its test of `status`. In `pause` it waits. -/
inductive Parent where
  | sigactionUsr1
  | fork
  | wait
  | sigactionUsr2
  | sigactionChld
  | kill
  | beforePause
  | pause
  | test
  | exited
  | killed
  deriving DecidableEq, Repr

inductive Child where
  | notForked
  | fork
  | exit
  | exited
  deriving DecidableEq, Repr

/-- The same for the daemon, which tests `daemonized`. `exitHandler` is
`daemon_failure_exit_handler`. -/
inductive Daemon where
  | notForked
  | test
  | beforePause
  | pause
  | signalSuccess
  | sigaction
  | sleep
  | exitHandler
  | exited
  | killed
  deriving DecidableEq, Repr

/-- What a process does with a signal. -/
inductive Disposition where
  | handler
  | terminate
  | ignore
  deriving DecidableEq, Repr

def Parent.disposition : Parent → Signal → Disposition
  | .sigactionUsr1, .usr1 => .terminate
  | _, .usr1 => .handler
  | .sigactionUsr1, .usr2 | .fork, .usr2 | .wait, .usr2 | .sigactionUsr2, .usr2 => .terminate
  | _, .usr2 => .handler
  | .sigactionUsr1, .chld | .fork, .chld | .wait, .chld | .sigactionUsr2, .chld
  | .sigactionChld, .chld => .ignore
  | _, .chld => .handler

/-- The daemon inherits the handler of the parent, and restores what has been before. -/
def Daemon.disposition : Daemon → Signal → Disposition
  | .sleep, .usr1 | .exitHandler, .usr1 => .terminate
  | _, .usr1 => .handler
  | _, .usr2 => .terminate
  | _, .chld => .ignore

def Parent.alive : Parent → Bool
  | .exited | .killed => false
  | _ => true

def Daemon.alive : Daemon → Bool
  | .notForked | .exited | .killed => false
  | _ => true

/-- The processes, the variable `status` of the parent, the variable `daemonized` of the daemon
and the signals that have not been delivered. -/
structure State where
  parent : Parent
  child : Child
  daemon : Daemon
  status : ℤ
  daemonized : Bool
  parentPending : Signal → Bool
  daemonPending : Signal → Bool

def start : State :=
  ⟨.sigactionUsr1, .notForked, .notForked, -1, false, fun _ => false, fun _ => false⟩

/-! ## Signals -/

/-- A signal that is ignored is not kept. -/
def State.signalParent (s : State) (sig : Signal) : State :=
  if s.parent.alive ∧ s.parent.disposition sig ≠ .ignore then
    { s with parentPending := Function.update s.parentPending sig true }
  else s

def State.signalDaemon (s : State) (sig : Signal) : State :=
  if s.daemon.alive ∧ s.daemon.disposition sig ≠ .ignore then
    { s with daemonPending := Function.update s.daemonPending sig true }
  else s

/-- `status` after the handlers of the parent. -/
def handledStatus (status : ℤ) : Signal → ℤ
  | .usr1 => status
  | .usr2 => 0
  | .chld => 1

/-- A handler runs in the parent. -/
def handleParent (s : State) (sig : Signal) : State :=
  { s with
    parent := if s.parent = .pause then .test else s.parent
    status := handledStatus s.status sig
    parentPending := Function.update s.parentPending sig false }

/-- A handler runs in the daemon. -/
def handleDaemon (s : State) (sig : Signal) : State :=
  { s with
    daemon := if s.daemon = .pause then .test else s.daemon
    daemonized := true
    daemonPending := Function.update s.daemonPending sig false }

def deliverParent (s : State) (sig : Signal) : Option State :=
  if s.parentPending sig then
    match s.parent.disposition sig with
    | .handler => some (handleParent s sig)
    | .terminate => some { s with parent := .killed, parentPending := fun _ => false }
    | .ignore => some { s with parentPending := Function.update s.parentPending sig false }
  else none

def deliverDaemon (s : State) (sig : Signal) : Option State :=
  if s.daemonPending sig then
    match s.daemon.disposition sig with
    | .handler => some (handleDaemon s sig)
    | .terminate => some { s with daemon := .killed, daemonPending := fun _ => false }
    | .ignore => some { s with daemonPending := Function.update s.daemonPending sig false }
  else none

/-! ## Processes -/

/-- The child is not signalled with the group, as the parent has waited for its end. -/
def parentStep (s : State) : Option State :=
  match s.parent with
  | .sigactionUsr1 => some { s with parent := .fork }
  | .fork => some { s with parent := .wait, child := .fork }
  | .wait => if s.child = .exited then some { s with parent := .sigactionUsr2 } else none
  | .sigactionUsr2 => some { s with parent := .sigactionChld }
  | .sigactionChld => some { s with parent := .kill }
  | .kill => some { (s.signalParent .usr1).signalDaemon .usr1 with parent := .beforePause }
  | .beforePause => some { s with parent := .pause }
  | .test =>
      if 0 ≤ s.status then some { s with parent := .exited, parentPending := fun _ => false }
      else some { s with parent := .beforePause }
  | .pause | .exited | .killed => none

def childStep (s : State) : Option State :=
  match s.child with
  | .fork => some { s with child := .exit, daemon := .test }
  | .exit => some { s.signalParent .chld with child := .exited }
  | .notForked | .exited => none

def daemonStep (s : State) : Option State :=
  match s.daemon with
  | .test =>
      if s.daemonized then some { s with daemon := .signalSuccess }
      else some { s with daemon := .beforePause }
  | .beforePause => some { s with daemon := .pause }
  | .signalSuccess => some { s.signalParent .usr2 with daemon := .sigaction }
  | .sigaction => some { s with daemon := .sleep }
  | .sleep => some { s with daemon := .exitHandler }
  | .exitHandler =>
      some { s.signalParent .chld with daemon := .exited, daemonPending := fun _ => false }
  | .notForked | .pause | .exited | .killed => none

inductive Action where
  | parent
  | child
  | daemon
  | deliverParent (sig : Signal)
  | deliverDaemon (sig : Signal)
  deriving DecidableEq, Repr

def next (s : State) : Action → Option State
  | .parent => parentStep s
  | .child => childStep s
  | .daemon => daemonStep s
  | .deliverParent sig => deliverParent s sig
  | .deliverDaemon sig => deliverDaemon s sig

def Step : State → State → Prop :=
  Acts next

end SysProg.GroupSignal
