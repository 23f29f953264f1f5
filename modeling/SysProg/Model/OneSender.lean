import SysProg.Library.Actions
import SysProg.Library.MessageQueue
import SysProg.Model.Text

/-! # One sender and its receivers

`parent`, `child` and `main` of `posix/ipc/msgqueue-one-sender-multiple-receivers.c`. The parent
sends messages to its children through one queue, and removes the queue at its exit. -/

namespace SysProg.OneSender

open Message Transmission

def N : ℕ := 2

/-- `struct data` -/
structure Data where
  c : Char
  x : ℤ
  y : ℤ
  deriving DecidableEq, Repr

abbrev Msg :=
  Message Data

/-- The number of messages, what `msgget` has returned, the room in the queue and what the parent
finds in `msg.data` before it has stored anything there. -/
structure Config where
  n : ℕ
  id : ℕ
  capacity : ℕ
  capacity_pos : 0 < capacity
  data : Data

/-- The message of a turn of the loop. -/
def message (i : ℕ) : Msg :=
  ⟨i % 2 + 1, ⟨'C', i, int32 (i * i)⟩⟩

/-- `msg.data` after the loop. -/
def lastData (cfg : Config) : ℕ → Data
  | 0 => cfg.data
  | n + 1 => (message n).data

/-- The last message to the child number `i + 1`. -/
def quit (cfg : Config) (i : ℕ) : Msg :=
  ⟨i + 1, { lastData cfg cfg.n with c := 'Q' }⟩

/-- The parent before it creates a child, before it sends a message, before it sends a last
message, in `cleanup_queue` or at its end. -/
inductive Parent where
  | forking (i : ℕ)
  | sending (i : ℕ)
  | quitting (i : ℕ)
  | exiting
  | exited
  deriving DecidableEq, Repr

/-- A child before `msgrcv`, or after its exit, with what it has received; it has failed if it
has got an error from `msgrcv`. -/
inductive Child where
  | notForked
  | receiving (received : List Data)
  | exited (received : List Data)
  | failed (received : List Data)
  deriving DecidableEq, Repr

/-- The queue, which is `none` after its removal, and the processes. -/
structure State where
  queue : Option (List Msg)
  parent : Parent
  child : Fin N → Child

def start : State :=
  ⟨some [], .forking 0, fun _ => .notForked⟩

def State.goto (s : State) (i : Fin N) (child : Child) : State :=
  { s with child := Function.update s.child i child }

/-- `msgsnd` of the parent, which then goes on. -/
def State.send (cfg : Config) (s : State) (msg : Msg) (parent : Parent) : Option State := do
  let queue ← s.queue
  let queue ← msgsnd cfg.capacity queue msg
  some { s with queue := some queue, parent }

/-- `cleanup_queue`. The queue may have the id 0. -/
def State.cleanupQueue (cfg : Config) (s : State) : State :=
  -- `msgqid_for_cleanup` is the id
  if cfg.id > 0 then { s with queue := none } else s

def parentStep (cfg : Config) (s : State) : Option State :=
  match s.parent with
  | .forking i =>
      if h : i < N then some ({ s with parent := .forking (i + 1) }.goto ⟨i, h⟩ (.receiving []))
      else some { s with parent := .sending 0 }
  | .sending i =>
      if i < cfg.n then s.send cfg (message i) (.sending (i + 1))
      else some { s with parent := .quitting 0 }
  | .quitting i =>
      if i < N then s.send cfg (quit cfg i) (.quitting (i + 1))
      else some { s with parent := .exiting }
  | .exiting => some ({ s with parent := .exited }.cleanupQueue cfg)
  | .exited => none

/-- `msgrcv` fails without the queue. -/
def childStep (s : State) (i : Fin N) : Option State :=
  match s.child i with
  | .receiving received =>
      match s.queue with
      | none => some (s.goto i (.failed received))
      | some queue =>
          (msgrcv (i + 1) queue).map fun (msg, queue) =>
            let received := received ++ [msg.data]
            if msg.data.c = 'Q' then { s with queue := some queue }.goto i (.exited received)
            else { s with queue := some queue }.goto i (.receiving received)
  | .notForked | .exited _ | .failed _ => none

inductive Action where
  | parent
  | child (i : Fin N)
  deriving DecidableEq, Repr

def next (cfg : Config) (s : State) : Action → Option State
  | .parent => parentStep cfg s
  | .child i => childStep s i

def Step (cfg : Config) : State → State → Prop :=
  Acts (next cfg)

end SysProg.OneSender
