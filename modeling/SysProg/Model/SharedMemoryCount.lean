import SysProg.Library.Interleaving
import SysProg.Model.CountShorts

/-! # Processes that count into shared memory

`posix/ipc/shared-memory-count.c` counts bytes and
`posix/ipc/shared-memory-count-shorts-segmented-semaphore.c` counts shorts. A set of semaphores
protects the counters: a process takes all units of the semaphore of a counter to increment it,
and one unit to print it. -/

namespace SysProg.SharedMemoryCount

open Transmission

def SEM_LIMIT : ℤ := 10

/-- `semop` with one operation. It blocks while the value would become negative. -/
def semop {n : ℕ} (value : Fin n → ℤ) (num : Fin n) (op : ℤ) : Option (Fin n → ℤ) :=
  if 0 ≤ value num + op then some (Function.update value num (value num + op)) else none

/-- The parts in which the programs differ. -/
structure Program (α : Type) where
  SEM_SIZE : ℕ
  sem_size_pos : 0 < SEM_SIZE
  /-- What is counted, as an unsigned number. -/
  number : α → ℕ
  /-- The entries that the output loop prints, in this order. -/
  entries : List α
  /-- A unit of semaphore 0 is taken before the output, and given back by the exit. -/
  outputSemaphore : Bool

variable {α : Type} [DecidableEq α]

def Program.semNum (program : Program α) (c : α) : Fin program.SEM_SIZE :=
  ⟨program.number c % program.SEM_SIZE, Nat.mod_lt _ program.sem_size_pos⟩

def Program.sem0 (program : Program α) : Fin program.SEM_SIZE :=
  ⟨0, program.sem_size_pos⟩

/-- The semaphores and the shared memory. -/
structure Shared (program : Program α) where
  value : Fin program.SEM_SIZE → ℤ
  counter : α → Long

/-- Where a process is in `main`, from the loop that reads its input on. -/
inductive Process (α : Type)
  /-- Before it reserves the semaphore for the next item of the input. -/
  | counting (todo : List α)
  | reserved (c : α) (todo : List α)
  /-- `counter[c]` has been loaded, the incremented value not yet stored. -/
  | loaded (c : α) (val : Long) (todo : List α)
  | stored (c : α) (todo : List α)
  /-- The end of the input has been read. -/
  | beforeOutput
  /-- Before it reserves the semaphore for the next entry. -/
  | output (todo : List α) (printed : List (α × Long))
  | reading (i : α) (todo : List α) (printed : List (α × Long))
  | read (i : α) (val : Long) (todo : List α) (printed : List (α × Long))
  | exited (printed : List (α × Long))
  deriving DecidableEq

/-- The next atomic step of a process; `none` if it is blocked or has exited. -/
def next (program : Program α) (shared : Shared program) :
    Process α → Option (Shared program × Process α)
  | .counting (c :: todo) =>
      (semop shared.value (program.semNum c) (-SEM_LIMIT)).map fun value =>
        ({ shared with value := value }, .reserved c todo)
  | .reserved c todo => some (shared, .loaded c (shared.counter c) todo)
  | .loaded c val todo =>
      some ({ shared with counter := Function.update shared.counter c (val + 1) }, .stored c todo)
  | .stored c todo =>
      (semop shared.value (program.semNum c) SEM_LIMIT).map fun value =>
        ({ shared with value := value }, .counting todo)
  | .counting [] => some (shared, .beforeOutput)
  | .beforeOutput =>
      if program.outputSemaphore then
        (semop shared.value program.sem0 (-1)).map fun value =>
          ({ shared with value := value }, .output program.entries [])
      else some (shared, .output program.entries [])
  | .output (i :: todo) printed =>
      (semop shared.value (program.semNum i) (-1)).map fun value =>
        ({ shared with value := value }, .reading i todo printed)
  | .reading i todo printed => some (shared, .read i (shared.counter i) todo printed)
  | .read i val todo printed =>
      (semop shared.value (program.semNum i) 1).map fun value =>
        ({ shared with value := value }, .output todo (printed ++ [(i, val)]))
  | .output [] printed =>
      -- `SEM_UNDO` gives back what the process still has of semaphore 0
      if program.outputSemaphore then
        (semop shared.value program.sem0 1).map fun value =>
          ({ shared with value := value }, .exited printed)
      else some (shared, .exited printed)
  | .exited _ => none

def Process.Exited : Process α → Prop
  | .exited _ => True
  | _ => False

def Step (program : Program α) (s t : Shared program × Process α) : Prop :=
  next program s.1 s.2 = some t

/-- The state after `setup_sem`, with a process for each input. -/
def start (program : Program α) {n : ℕ} (counter : α → Long) (inputs : Fin n → List α) :
    Shared program × (Fin n → Process α) :=
  (⟨fun _ => SEM_LIMIT, counter⟩, fun i => .counting (inputs i))

/-- `shared-memory-count.c`, with `unsigned char` as what is counted. -/
def sharedMemoryCount : Program UInt8 where
  SEM_SIZE := 128
  sem_size_pos := by decide
  number := UInt8.toNat
  entries := (List.range 256).map UInt8.ofNat
  outputSemaphore := false

/-- `shared-memory-count-shorts-segmented-semaphore.c` -/
def sharedMemoryCountShorts : Program UInt16 where
  SEM_SIZE := 127
  sem_size_pos := by decide
  number := UInt16.toNat
  entries := (List.range 65536).map UInt16.ofNat
  outputSemaphore := true

end SysProg.SharedMemoryCount
