import SysProg.Library.Actions
import SysProg.Library.MessageQueue

/-! # A worker behind a message queue and a semaphore

`main` of `posix/ipc/semaphore.c` from the first `fork` on. One queue has the requests of all
children and the replies to them. A child sends a request and waits for the reply while it has a
unit of the semaphore. -/

namespace SysProg.Semaphore

open Message

def WORKER_TYPE : ℤ := 1000

/-- `struct data` -/
structure Data where
  ctrl : Char
  origin : ℤ
  value : ℤ
  deriving DecidableEq, Repr

abbrev Msg :=
  Message Data

/-- The number of children, and how many requests each of them sends; `j` is an `int`. The
parent sends its last message with what it finds in `msg.data`. -/
structure Config where
  N : ℕ
  N_lt : N < WORKER_TYPE
  rounds : Fin N → ℕ
  rounds_lt : ∀ i, rounds i < 2 ^ 31
  data : Data

/-- The queue has room for two messages. -/
def capacity : ℕ := 2

/-- `semop` on the only semaphore. It blocks while the value would become negative. -/
def semop (value op : ℤ) : Option ℤ :=
  if 0 ≤ value + op then some (value + op) else none

/-- The number of a child; it is also the type of the replies to it. -/
def number {N : ℕ} (i : Fin N) : ℤ :=
  i + 1

def request {N : ℕ} (i : Fin N) (j : ℕ) : Msg :=
  ⟨WORKER_TYPE, ⟨'X', number i, j⟩⟩

/-- What the worker sends back; the product of two `long` is a `long`. -/
def answer (msg : Msg) : Msg :=
  let x := msg.data.value
  let y := (x * x).bmod (2 ^ 64)
  ⟨msg.data.origin, ⟨'Y', WORKER_TYPE, y⟩⟩

def quit (cfg : Config) : Msg :=
  ⟨WORKER_TYPE, { cfg.data with ctrl := 'Q' }⟩

/-- The worker before `fork`, before `msgrcv`, before `msgsnd` or at its end. -/
inductive Worker where
  | notForked
  | receiving
  | sending (msg : Msg)
  | terminating
  | exited
  deriving DecidableEq, Repr

/-- A child before its first, at the beginning of a turn of its loop, before the calls in it, or
at its end. After `msgrcv` it has the data of the reply. -/
inductive Child where
  | notForked
  | obtaining (j : ℕ)
  | sending (j : ℕ)
  | receiving (j : ℕ)
  | freeing (j : ℕ) (data : Data)
  | exited
  deriving DecidableEq, Repr

/-- The parent before it creates another process, in its loop of `wait`, before `msgsnd` or at
its end. -/
inductive Parent where
  | forking
  | waiting (k : ℕ)
  | sending
  | exited
  deriving DecidableEq, Repr

/-- The semaphore, the queue, the number of processes that the parent has created, the number of
those that have ended and that it has not waited for, and the processes. -/
structure State (cfg : Config) where
  semaphore : ℤ
  queue : List Msg
  forked : ℕ
  zombies : ℕ
  worker : Worker
  parent : Parent
  child : Fin cfg.N → Child

variable {cfg : Config}

/-- The state after `prepare_sem`. -/
def start (cfg : Config) : State cfg where
  semaphore := 2
  queue := []
  forked := 0
  zombies := 0
  worker := .notForked
  parent := .forking
  child _ := .notForked

def State.goto (s : State cfg) (i : Fin cfg.N) (child : Child) : State cfg :=
  { s with child := Function.update s.child i child }

def workerStep (s : State cfg) : Option (State cfg) :=
  match s.worker with
  | .notForked => if 0 < s.forked then some { s with worker := .receiving } else none
  | .receiving =>
      (msgrcv WORKER_TYPE s.queue).map fun (msg, queue) =>
        if msg.data.ctrl = 'Q' then { s with queue, worker := .terminating }
        else { s with queue, worker := .sending (answer msg) }
  | .sending msg =>
      (msgsnd capacity s.queue msg).map fun queue => { s with queue, worker := .receiving }
  | .terminating => some { s with zombies := s.zombies + 1, worker := .exited }
  | .exited => none

def childStep (s : State cfg) (i : Fin cfg.N) : Option (State cfg) :=
  match s.child i with
  | .notForked => if i + 1 < s.forked then some (s.goto i (.obtaining 0)) else none
  | .obtaining j =>
      if j < cfg.rounds i then
        (semop s.semaphore (-1)).map fun semaphore => { s with semaphore }.goto i (.sending j)
      else some ({ s with zombies := s.zombies + 1 }.goto i .exited)
  | .sending j =>
      (msgsnd capacity s.queue (request i j)).map fun queue =>
        { s with queue }.goto i (.receiving j)
  | .receiving j =>
      (msgrcv (number i) s.queue).map fun (msg, queue) =>
        { s with queue }.goto i (.freeing j msg.data)
  | .freeing j _ =>
      (semop s.semaphore 1).map fun semaphore => { s with semaphore }.goto i (.obtaining (j + 1))
  | .exited => none

/-- The worker is created first. `wait` returns for any process that has ended. -/
def parentStep (s : State cfg) : Option (State cfg) :=
  match s.parent with
  | .forking =>
      if s.forked < cfg.N + 1 then some { s with forked := s.forked + 1 }
      else some { s with parent := .waiting 0 }
  | .waiting k =>
      if k < cfg.N then
        if 0 < s.zombies then some { s with zombies := s.zombies - 1, parent := .waiting (k + 1) }
        else none
      else some { s with parent := .sending }
  | .sending =>
      (msgsnd capacity s.queue (quit cfg)).map fun queue => { s with queue, parent := .exited }
  | .exited => none

inductive Action (cfg : Config) where
  | worker
  | parent
  | child (i : Fin cfg.N)
  deriving DecidableEq, Repr

def next (s : State cfg) : Action cfg → Option (State cfg)
  | .worker => workerStep s
  | .parent => parentStep s
  | .child i => childStep s i

def Step : State cfg → State cfg → Prop :=
  Acts next

def State.Finished (s : State cfg) : Action cfg → Prop
  | .worker => s.worker = .exited
  | .parent => s.parent = .exited
  | .child i => s.child i = .exited

/-- Some process is unfinished, and all of these are blocked. -/
def State.Deadlocked (s : State cfg) : Prop :=
  (∃ process, ¬ s.Finished process) ∧ ∀ process, ¬ s.Finished process → next s process = none

end SysProg.Semaphore
