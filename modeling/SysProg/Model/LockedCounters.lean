import SysProg.Library.Locks
import SysProg.Model.CountByFile

/-! # Counters with a lock each, and a lock for the output

`posix/threads/thread-memory-count-mutex.c`, `thread-memory-count-readwrite.c`,
`thread-memory-count-posix-semaphore.c` and
`posix/ipc/shared-memory-count-output-semaphore.c`. A thread (or process) counts the bytes of its
file in the common counters and then prints all counters while it holds the lock for the output.

`κ` is what a counter holds: a `long` in the programs, and an integer where it is about the exact
counts. -/

namespace SysProg.LockedCounters

open Transmission
open CountByFile (indices)

/-- How the reading of a file ends: `open` fails with another error than `EMFILE`, `read` returns
0, `read` fails with `errno` 9 or with another error. -/
inductive Ending where
  | notOpened
  | eof
  | badDescriptor
  | error
  deriving DecidableEq, Repr

structure File where
  bytes : Bytes
  ending : Ending
  notOpened : ending = .notOpened → bytes = []

/-- What is printed while the lock for the output is held. -/
inductive Report (ν : Type)
  | table (name : ν)
  /-- "file %s cannot be read" -/
  | unreadable (name : ν)
  /-- "%d threads started" -/
  | started
  deriving DecidableEq

/-- A line on the terminal. -/
inductive Line (κ ν : Type)
  | header (name : ν)
  | entry (i : UInt8) (val : κ)
  | footer
  | unreadable (name : ν)
  | started
  /-- `handle_error` -/
  | error (name : ν)
  deriving DecidableEq

/-- Where a thread is in `run`, or the main thread between the start of the threads and
`pthread_join`. -/
inductive Thread (κ ν : Type)
  /-- In the loop around `open`. -/
  | opening (name : ν) (file : File)
  /-- Before it locks the counter of the next byte. -/
  | counting (name : ν) (todo : Bytes) (ending : Ending)
  | locked (name : ν) (c : UInt8) (todo : Bytes) (ending : Ending)
  /-- `counter[c]` has been loaded, the incremented value not yet stored. -/
  | loaded (name : ν) (c : UInt8) (val : κ) (todo : Bytes) (ending : Ending)
  | stored (name : ν) (c : UInt8) (todo : Bytes) (ending : Ending)
  /-- Before it locks the output. -/
  | waiting (report : Report ν)
  | printing (report : Report ν)
  /-- In the output loop, before it locks the next counter. -/
  | output (name : ν) (todo : List UInt8)
  | reading (name : ν) (i : UInt8) (todo : List UInt8)
  | read (name : ν) (i : UInt8) (val : κ) (todo : List UInt8)
  | unlocked (name : ν) (i : UInt8) (val : κ) (todo : List UInt8)
  /-- Before it unlocks the output. -/
  | releasing
  | finished
  /-- Ended by `handle_error`, which does not close the file. -/
  | failed

/-- What a thread does when `read` fails with `errno` 9. -/
inductive BadDescriptor where
  /-- `pthread_exit` without a message. -/
  | exits
  /-- It prints that the file cannot be read. -/
  | reports
  /-- It is an error like the others. -/
  | fails
  deriving DecidableEq, Repr

/-- The parts in which the programs differ. -/
structure Program where
  Lock : Type
  lock : RwLock Lock
  LOCKS : ℕ
  /-- The lock of a counter. -/
  lockNum : UInt8 → Fin LOCKS
  OutputLock : Type
  outputLock : RwLock OutputLock
  onBadDescriptor : BadDescriptor
  /-- A main thread prints how many threads it has started. -/
  announces : Bool
  /-- The threads open files; the processes read what they have as standard input. -/
  opens : Bool

structure Shared (program : Program) (κ ν : Type) where
  locks : Fin program.LOCKS → program.Lock
  output : program.OutputLock
  counter : UInt8 → κ
  /-- The number of descriptors that are free. -/
  descriptors : ℕ
  terminal : List (Line κ ν)

variable {program : Program} {κ ν : Type}

def Shared.setLock (shared : Shared program κ ν) (k : Fin program.LOCKS) (lock : program.Lock) :
    Shared program κ ν :=
  { shared with locks := Function.update shared.locks k lock }

def Shared.setOutput (shared : Shared program κ ν) (output : program.OutputLock) :
    Shared program κ ν :=
  { shared with output }

def Shared.print (shared : Shared program κ ν) (line : Line κ ν) : Shared program κ ν :=
  { shared with terminal := shared.terminal ++ [line] }

/-- `open`, when there is a descriptor. -/
def Shared.openFile (shared : Shared program κ ν) (file : File) : Shared program κ ν :=
  { shared with
    descriptors := if file.ending = .notOpened then shared.descriptors else shared.descriptors - 1 }

/-- `close(fd)` -/
def Shared.closeFile (shared : Shared program κ ν) : Shared program κ ν :=
  { shared with
    descriptors := if program.opens then shared.descriptors + 1 else shared.descriptors }

/-- What a thread does after the last byte. -/
def atEnd (program : Program) (shared : Shared program κ ν) (name : ν) :
    Ending → Shared program κ ν × Thread κ ν
  | .notOpened => (shared.print (.error name), .finished)
  | .eof => (shared.closeFile, .waiting (.table name))
  | .error => (shared.print (.error name), .failed)
  | .badDescriptor =>
      match program.onBadDescriptor with
      | .exits => (shared.closeFile, .finished)
      | .reports => (shared.closeFile, .waiting (.unreadable name))
      | .fails => (shared.print (.error name), .failed)

/-- The next step of a thread; `none` if it waits for a lock or has ended. While `open` fails
with `EMFILE` a thread waits for a descriptor. -/
def next [Add κ] [One κ] (program : Program) (shared : Shared program κ ν) :
    Thread κ ν → Option (Shared program κ ν × Thread κ ν)
  | .opening name file =>
      if shared.descriptors = 0 then none
      else some (shared.openFile file, .counting name file.bytes file.ending)
  | .counting name [] ending => some (atEnd program shared name ending)
  | .counting name (c :: todo) ending =>
      (program.lock.wrlock (shared.locks (program.lockNum c))).map fun lock =>
        (shared.setLock (program.lockNum c) lock, .locked name c todo ending)
  | .locked name c todo ending => some (shared, .loaded name c (shared.counter c) todo ending)
  | .loaded name c val todo ending =>
      some ({ shared with counter := Function.update shared.counter c (val + 1) },
        .stored name c todo ending)
  | .stored name c todo ending =>
      (program.lock.wrunlock (shared.locks (program.lockNum c))).map fun lock =>
        (shared.setLock (program.lockNum c) lock, .counting name todo ending)
  | .waiting report =>
      (program.outputLock.wrlock shared.output).map fun output =>
        (shared.setOutput output, .printing report)
  | .printing (.table name) => some (shared.print (.header name), .output name indices)
  | .printing (.unreadable name) => some (shared.print (.unreadable name), .releasing)
  | .printing .started => some (shared.print .started, .releasing)
  | .output name (i :: todo) =>
      (program.lock.rdlock (shared.locks (program.lockNum i))).map fun lock =>
        (shared.setLock (program.lockNum i) lock, .reading name i todo)
  | .reading name i todo => some (shared, .read name i (shared.counter i) todo)
  | .read name i val todo =>
      (program.lock.rdunlock (shared.locks (program.lockNum i))).map fun lock =>
        (shared.setLock (program.lockNum i) lock, .unlocked name i val todo)
  | .unlocked name i val todo => some (shared.print (.entry i val), .output name todo)
  | .output _ [] => some (shared.print .footer, .releasing)
  | .releasing =>
      (program.outputLock.wrunlock shared.output).map fun output =>
        (shared.setOutput output, .finished)
  | .finished | .failed => none

def Thread.Finished : Thread κ ν → Prop
  | .finished => True
  | .failed => True
  | _ => False

def Step [Add κ] [One κ] (program : Program) (s t : Shared program κ ν × Thread κ ν) : Prop :=
  next program s.1 s.2 = some t

/-- The main thread and a thread for each file. -/
abbrev State (program : Program) (κ : Type) (n : ℕ) :=
  Shared program κ (Fin n) × (Option (Fin n) → Thread κ (Fin n))

/-- Where a thread begins. -/
def first (program : Program) (name : ν) (file : File) : Thread κ ν :=
  if program.opens then .opening name file else .counting name file.bytes file.ending

def start (program : Program) {n : ℕ} (descriptors : ℕ) (counter : UInt8 → κ)
    (files : Fin n → File) : State program κ n :=
  (⟨fun _ => program.lock.free, program.outputLock.free, counter, descriptors, []⟩, fun
    | none => if program.announces then .waiting .started else .finished
    | some i => first program i (files i))

/-! ## The programs -/

def ALPHA_SIZE : ℕ := 256

/-- `SEM_SIZE` and `SEM_LIMIT` of `shared-memory-count-output-semaphore.c` -/
def SEM_SIZE : ℕ := 128

def SEM_LIMIT : ℕ := 10

/-- `thread-memory-count-mutex.c` -/
def threadMemoryCountMutex : Program where
  Lock := Bool
  lock := .mutex
  LOCKS := ALPHA_SIZE
  lockNum c := ⟨c.toNat, c.toNat_lt⟩
  OutputLock := Bool
  outputLock := .mutex
  onBadDescriptor := .exits
  announces := true
  opens := true

/-- `thread-memory-count-readwrite.c` -/
def threadMemoryCountReadwrite : Program where
  Lock := Bool × ℕ
  lock := .rwlock
  LOCKS := ALPHA_SIZE
  lockNum c := ⟨c.toNat, c.toNat_lt⟩
  OutputLock := Bool × ℕ
  outputLock := .rwlock
  onBadDescriptor := .reports
  announces := true
  opens := true

/-- `thread-memory-count-posix-semaphore.c` -/
def threadMemoryCountPosixSemaphore : Program where
  Lock := ℕ
  lock := .semaphore 1 Nat.one_pos
  LOCKS := ALPHA_SIZE
  lockNum c := ⟨c.toNat, c.toNat_lt⟩
  OutputLock := ℕ
  outputLock := .semaphore 1 Nat.one_pos
  onBadDescriptor := .exits
  announces := true
  opens := true

/-- The programs whose counters start with 0 and that start a thread for each file. -/
inductive ThreadMemoryCount where
  | mutex
  | readwrite
  | posixSemaphore

def ThreadMemoryCount.toProgram : ThreadMemoryCount → Program
  | .mutex => threadMemoryCountMutex
  | .readwrite => threadMemoryCountReadwrite
  | .posixSemaphore => threadMemoryCountPosixSemaphore

/-- `shared-memory-count-output-semaphore.c`; its processes are started by hand. -/
def sharedMemoryCountOutputSemaphore : Program where
  Lock := ℕ
  lock := .semaphore SEM_LIMIT (by decide)
  LOCKS := SEM_SIZE
  lockNum c := ⟨c.toNat % SEM_SIZE, Nat.mod_lt _ (by decide)⟩
  OutputLock := ℕ
  outputLock := .semaphore 1 Nat.one_pos
  onBadDescriptor := .fails
  announces := false
  opens := false

end SysProg.LockedCounters
