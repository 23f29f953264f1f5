import SysProg.Library.Interleaving
import SysProg.Model.Text

/-! # Threads that read lines in turn

`posix/threads/nonblocking.c` and `posix/threads/timedlock.c`. The threads read lines from standard
input into one buffer and print them; they differ in what they do when the mutex is locked. In the
second program the time for the mutex is over before the first line has been printed, so a wait may
time out at any moment, and a wait that times out ends the thread. -/

namespace SysProg.LineReaders

open Transmission

def SIZE : ℕ := 1024

inductive Program where
  | nonblocking
  | timedlock
  deriving DecidableEq, Repr

/-- Why a thread sets `done`. -/
inductive Why where
  | null
  | empty
  deriving DecidableEq, Repr

/-- An error of `pthread_mutex_timedlock`; the second one is that of a timeout with more than
999999999 nanoseconds. -/
inductive LockError where
  | ETIMEDOUT
  | EINVAL
  deriving DecidableEq, Repr

/-- A line that a thread prints. -/
inductive Line where
  | started (name : ℕ)
  /-- "%s/%d" -/
  | tried (name : ℕ) (retcode : Option LockError)
  | text (name : ℕ) (content : Bytes)
  | finished (name : ℕ) (why : Why)
  deriving DecidableEq, Repr

/-- Where a thread is in `thread_run`. -/
inductive Pc where
  | starting
  /-- `while (! done)` -/
  | looping
  | locking
  /-- After `pthread_mutex_timedlock`. -/
  | tried (retcode : Option LockError)
  | reading
  /-- `fgets` has not returned `NULL`. -/
  | filled
  | copied (myCopy : Bytes)
  | printed
  /-- Before it unlocks the mutex in one of the branches that set `done`. -/
  | finishing (why : Why)
  | unlocked (why : Why)
  | ending
  | returned
  | exited
  deriving DecidableEq, Repr

structure Thread where
  name : ℕ
  pc : Pc
  deriving DecidableEq, Repr

structure Shared where
  mutex1 : Bool
  buff : Bytes
  stdin : Bytes
  done : Bool
  terminal : List Line
  deriving DecidableEq, Repr

def Shared.print (shared : Shared) (line : Line) : Shared :=
  { shared with terminal := shared.terminal ++ [line] }

/-- What `fgets(buff, SIZE, stdin)` leaves in the buffer. -/
def Shared.fill (shared : Shared) : Shared :=
  let line := (fgets SIZE shared.stdin).1
  { shared with
    buff := line ++ [0] ++ shared.buff.drop (line.length + 1)
    stdin := (fgets SIZE shared.stdin).2 }

/-- What `strdup` copies. -/
def strdup (buff : Bytes) : Bytes :=
  buff.takeWhile (· != 0)

/-- Where a thread goes on that has locked the mutex. -/
def Program.afterLock : Program → Pc
  | .nonblocking => .reading
  | .timedlock => .tried none

/-- A step of a thread. -/
inductive Step (program : Program) : Shared × Thread → Shared × Thread → Prop
  | start {shared : Shared} {name : ℕ} :
      Step program (shared, ⟨name, .starting⟩) (shared.print (.started name), ⟨name, .looping⟩)
  | leave {shared : Shared} {name : ℕ} (hdone : shared.done = true) :
      Step program (shared, ⟨name, .looping⟩) (shared, ⟨name, .returned⟩)
  | enter {shared : Shared} {name : ℕ} (hdone : shared.done = false) :
      Step program (shared, ⟨name, .looping⟩) (shared, ⟨name, .locking⟩)
  | lock {shared : Shared} {name : ℕ} (hfree : shared.mutex1 = false) :
      Step program (shared, ⟨name, .locking⟩)
        ({ shared with mutex1 := true }, ⟨name, program.afterLock⟩)
  | fail {shared : Shared} {name : ℕ} (e : LockError) (hprogram : program = .timedlock)
      (hlocked : shared.mutex1 = true) :
      Step program (shared, ⟨name, .locking⟩) (shared, ⟨name, .tried (some e)⟩)
  | report {shared : Shared} {name : ℕ} :
      Step program (shared, ⟨name, .tried none⟩)
        (shared.print (.tried name none), ⟨name, .reading⟩)
  /-- `handle_thread_error(.., THREAD_EXIT)` -/
  | giveUp {shared : Shared} {name : ℕ} {e : LockError} :
      Step program (shared, ⟨name, .tried (some e)⟩)
        (shared.print (.tried name (some e)), ⟨name, .exited⟩)
  | null {shared : Shared} {name : ℕ} (hend : shared.stdin = []) :
      Step program (shared, ⟨name, .reading⟩) (shared, ⟨name, .finishing .null⟩)
  | read {shared : Shared} {name : ℕ} (hstdin : shared.stdin ≠ []) :
      Step program (shared, ⟨name, .reading⟩) (shared.fill, ⟨name, .filled⟩)
  | empty {shared : Shared} {name : ℕ} (hempty : strdup shared.buff = []) :
      Step program (shared, ⟨name, .filled⟩) (shared, ⟨name, .finishing .empty⟩)
  | copy {shared : Shared} {name : ℕ} (hcopy : strdup shared.buff ≠ []) :
      Step program (shared, ⟨name, .filled⟩) (shared, ⟨name, .copied (strdup shared.buff)⟩)
  | print {shared : Shared} {name : ℕ} {myCopy : Bytes} :
      Step program (shared, ⟨name, .copied myCopy⟩)
        (shared.print (.text name myCopy), ⟨name, .printed⟩)
  | unlock {shared : Shared} {name : ℕ} :
      Step program (shared, ⟨name, .printed⟩)
        ({ shared with mutex1 := false }, ⟨name, .looping⟩)
  | unlockLast {shared : Shared} {name : ℕ} {why : Why} :
      Step program (shared, ⟨name, .finishing why⟩)
        ({ shared with mutex1 := false }, ⟨name, .unlocked why⟩)
  | announce {shared : Shared} {name : ℕ} {why : Why} :
      Step program (shared, ⟨name, .unlocked why⟩)
        (shared.print (.finished name why), ⟨name, .ending⟩)
  | finish {shared : Shared} {name : ℕ} :
      Step program (shared, ⟨name, .ending⟩) ({ shared with done := true }, ⟨name, .looping⟩)

/-- `pthread_mutex_trylock` returns `EBUSY`, and the thread goes on with its loop. -/
inductive Retry (program : Program) : Shared × Thread → Shared × Thread → Prop
  | busy {shared : Shared} {name : ℕ} (hprogram : program = .nonblocking)
      (hlocked : shared.mutex1 = true) :
      Retry program (shared, ⟨name, .locking⟩) (shared, ⟨name, .looping⟩)

/-- All that a thread can do. -/
def ThreadRun (program : Program) (s t : Shared × Thread) : Prop :=
  Step program s t ∨ Retry program s t

abbrev State (n : ℕ) : Type :=
  Shared × (Fin (n + 1) → Thread)

/-- What `main` starts, with a first thread and `n` more ones. -/
def start (n : ℕ) (stdin : Bytes) : State n :=
  (⟨false, List.replicate SIZE 0, stdin, false, []⟩, fun i => ⟨i, .starting⟩)

end SysProg.LineReaders
