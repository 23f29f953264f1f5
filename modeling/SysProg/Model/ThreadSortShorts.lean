import SysProg.Library.Barrier
import SysProg.Model.CountShorts
import SysProg.Model.MergeLoop
import SysProg.Model.Psort
import SysProg.Model.SplitToArray
import SysProg.Model.Text

/-! # Sorting the shorts of a file

`posix/threads/thread-sort-shorts.c`. The pointer `data` steps in shorts, `data_size` and the
sizes of the segments are in bytes. Offsets are in bytes from `data` on. -/

namespace SysProg.ThreadSortShorts

open Transmission CountShorts

/-- A file of whole shorts and a number of threads; `memory` is what lies in memory from the
address of the buffer on before the file is read. -/
structure Input where
  file : Bytes
  memory : Bytes
  threadCount : ℕ
  file_even : file.length % 2 = 0
  file_pos : 0 < file.length
  buffer_le : file.length ≤ memory.length
  memory_lt : memory.length < 2 ^ 63
  threadCount_pos : 0 < threadCount
  threadCount_lt : threadCount < 2 ^ 31

/-- `struct thread_arg`; `data` is an offset or `NULL`. -/
@[ext] structure ThreadArg where
  data : Option ℕ
  size : ℕ
  deriving DecidableEq, Repr

/-- The memory that the threads share. -/
structure Shared where
  memory : Bytes
  arr : List ThreadArg

/-- The conversion to `size_t`. -/
def sizeT (n : ℤ) : ℕ :=
  (n % 2 ^ 64).toNat

/-! ## The threads -/

/-- `char` is signed. -/
def compare (x y : UInt8) : ℤ :=
  x.toInt8.toInt - y.toInt8.toInt

/-- The C library sorts the elements, which have one byte each. -/
def qsort (base : Bytes) : Run Bytes :=
  .ok (base.mergeSort fun x y => decide (compare x y ≤ 0))

/-- `arg->data`, which must not be `NULL`. -/
def argData (arg : ThreadArg) : Run ℕ :=
  match arg.data with
  | some ptr => .ok ptr
  | none => .error .nullPointer

/-- The first part of `thread_run`. -/
def sortSegment (idx : ℕ) (s : Shared) : Run Shared := do
  let arg ← load s.arr idx
  let ptr ← argData arg
  let memory ← onSegment qsort s.memory ptr arg.size
  .ok { s with memory }

/-- The body of `if (other_idx < thread_count)`; `total_len` is an `int`. -/
def mergeSegments (idx otherIdx : ℕ) (s : Shared) : Run Shared := do
  let arg ← load s.arr idx
  let other ← load s.arr otherIdx
  if 2 ^ 31 ≤ arg.size + other.size then .error .overflow
  else do
    let ptr ← argData arg
    let otherPtr ← argData other
    let left ← loadRange s.memory ptr arg.size
    let right ← loadRange s.memory otherPtr other.size
    let copy := mergeLoop compare left right 0 0 []
    let memory ← storeRange s.memory ptr copy
    .ok ⟨memory, (s.arr.set idx ⟨some ptr, arg.size + other.size⟩).set otherIdx ⟨none, 0⟩⟩

/-- The body of the loop over `step` after the barrier; `2*step` is an `int`. -/
def mergeStep (threadCount step idx : ℕ) (s : Shared) : Run Shared :=
  if 2 ^ 31 ≤ 2 * step then .error .overflow
  else if idx % (2 * step) = 0 then
    if idx + step < threadCount then mergeSegments idx (idx + step) s else .ok s
  else .ok s

/-- What thread `idx` does in a phase. -/
def threadAction (threadCount : ℕ) (phase : Psort.Phase) (idx : ℕ) (s : Shared) : Run Shared :=
  match phase with
  | .sort => sortSegment idx s
  | .merge step => mergeStep threadCount step idx s

/-- `thread_run`, divided by the barriers; after a fault nothing happens. -/
def threadRun (threadCount : ℕ) : Barrier.Program Psort.Phase (Run Shared) threadCount where
  first := .sort
  act phase idx shared shared' := shared' = shared >>= threadAction threadCount phase idx
  next phase :=
    let step := match phase with
      | .sort => 1
      | .merge step => 2 * step
    if step < threadCount then some (.merge step) else none

/-! ## The main thread -/

/-- `data_size` -/
def dataSize (input : Input) : ℤ :=
  int32 input.file.length

/-- The buffer that `prepare` fills, and what lies behind it. -/
def prepare (input : Input) : Run Bytes :=
  storeRange input.memory 0 (input.file.take SplitToArray.MAX_RW_COUNT)

/-- The loop of `main` that divides the data; `partial_data` steps in shorts. -/
def partitionLoop (threadCount sizePerThread i rest partialData : ℕ) (arr : List ThreadArg) :
    List ThreadArg :=
  if i < threadCount then
    let size := if i = threadCount - 1 then rest else sizePerThread
    partitionLoop threadCount sizePerThread (i + 1) (sizeT (rest - sizePerThread))
      (partialData + 2 * sizePerThread) (arr ++ [⟨some partialData, size⟩])
  else arr
termination_by threadCount - i

/-- The segments that `main` hands to the threads. -/
def segments (input : Input) : List ThreadArg :=
  partitionLoop input.threadCount (sizeT ((dataSize input).tdiv input.threadCount)) 0
    (sizeT (dataSize input)) 0 []

def startThreads (input : Input) :
    Barrier.State Psort.Phase (Run Shared) input.threadCount :=
  (threadRun input.threadCount).start do
    let memory ← prepare input
    .ok ⟨memory, segments input⟩

/-- The values that `print_data` prints. -/
def printData (input : Input) (s : Shared) : Run (List ℤ) := do
  let shorts ← sarrFrom s.memory 0 (dataSize input).toNat
  .ok (shorts.map fun s => s.toInt16.toInt)

/-- What a complete run of the program can print. -/
inductive Outcome (input : Input) : Run (List ℤ) → Prop
  | joined {t : Barrier.State Psort.Phase (Run Shared) input.threadCount}
      (hrun : Reaches (threadRun input.threadCount).Step (startThreads input) t)
      (hjoin : ∀ idx, t.pcs idx = .returned) : Outcome input (t.shared >>= printData input)

end SysProg.ThreadSortShorts
