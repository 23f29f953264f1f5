import SysProg.Model.OneSender

/-! # A child that sends squares and a parent that asks for types

`posix/ipc/msgqueue.c`, `msgqueue-positive-typed.c` and `msgqueue-negative-typed.c`. The child
sends 100 squares and a message `'Q'` through a queue that holds so many messages. The parent asks
for a type in every turn of its loop until it gets `'Q'`. -/

namespace SysProg.TypedQueue

open Message
open OneSender (Data Msg)

/-- The number of squares. -/
def N : ℕ := 100

/-- The parts in which the programs differ. -/
structure Program where
  /-- `msg.type` of a square, and of `'Q'`. -/
  type : ℕ → ℤ
  quitType : ℤ
  /-- `i` at the begin of the parent's loop, and the lowest `i` of a turn if there is one. -/
  first : ℤ
  last : Option ℤ
  /-- The type that `msgrcv` is called with. -/
  msgtyp : ℤ → ℤ

def message (program : Program) (i : ℕ) : Msg :=
  ⟨program.type i, ⟨'C', i, i * i⟩⟩

/-- `x` and `y` are those of the last square. -/
def quit (program : Program) : Msg :=
  ⟨program.quitType, { (message program (N - 1)).data with c := 'Q' }⟩

inductive Child where
  | sending (i : ℕ)
  | quitting
  | exited
  /-- `msgsnd` has failed since the queue has been removed. -/
  | failed
  deriving DecidableEq, Repr

/-- The parent, with the messages that it has got and `i` at that time. -/
inductive Parent where
  | receiving (i : ℤ) (received : List (ℤ × Msg))
  /-- Before `cleanup_queue`. -/
  | terminating (received : List (ℤ × Msg))
  | exited (received : List (ℤ × Msg))
  deriving DecidableEq, Repr

/-- The queue, which is `none` after its removal, and the processes. -/
structure State where
  queue : Option (List Msg)
  child : Child
  parent : Parent

def start (program : Program) : State :=
  ⟨some [], .sending 0, .receiving program.first []⟩

/-- `msgsnd` of the child, which then goes on. -/
def State.send (capacity : ℕ) (s : State) (msg : Msg) (child : Child) : Option State :=
  match s.queue with
  | none => some { s with child := .failed }
  | some queue => (msgsnd capacity queue msg).map fun queue => { s with queue := some queue, child }

def childStep (program : Program) (capacity : ℕ) (s : State) : Option State :=
  match s.child with
  | .sending i =>
      if i < N then s.send capacity (message program i) (.sending (i + 1))
      else some { s with child := .quitting }
  | .quitting => s.send capacity (quit program) .exited
  | .exited | .failed => none

def parentStep (program : Program) (s : State) : Option State :=
  match s.parent with
  | .receiving i received =>
      if program.last.any (i < ·) then some { s with parent := .terminating received }
      else do
        let queue ← s.queue
        let (msg, queue) ← msgrcvTyp (program.msgtyp i) queue
        let received := received ++ [(i, msg)]
        if msg.data.c = 'Q' then some { s with queue := some queue, parent := .terminating received }
        else some { s with queue := some queue, parent := .receiving (i - 1) received }
  | .terminating received => some { s with queue := none, parent := .exited received }
  | .exited _ => none

inductive Action where
  | child
  | parent
  deriving DecidableEq, Repr

def step (program : Program) (capacity : ℕ) (s : State) : Action → Option State
  | .child => childStep program capacity s
  | .parent => parentStep program s

def Step (program : Program) (capacity : ℕ) : State → State → Prop :=
  Acts (step program capacity)

/-- `msgqueue.c`; its loop does not count. -/
def msgqueue : Program where
  type _ := 10
  quitType := 10
  first := 0
  last := none
  msgtyp _ := 10

/-- `msgqueue-positive-typed.c` -/
def msgqueuePositiveTyped : Program where
  type i := i + 101
  quitType := 100
  first := 200
  last := some 100
  msgtyp i := i

/-- `msgqueue-negative-typed.c` -/
def msgqueueNegativeTyped : Program where
  type i := i + 101
  quitType := 100
  first := 150
  last := some 50
  msgtyp i := -i

end SysProg.TypedQueue
