import SysProg.Model.ThreadSortShorts

/-! # Sorting the bytes of a file

`posix/threads/thread-sort-bytes.c`. Its `thread_run` and its `compare` are those of
`posix/threads/thread-sort-shorts.c`, but here the pointer `data` steps in bytes, and
`print_data` prints characters. -/

namespace SysProg.ThreadSortBytes

open Transmission (Bytes int32)
open ThreadSortShorts (Shared ThreadArg sizeT threadRun)

/-- A file and a number of threads; `buffer` is what `malloc` leaves in the memory that it
allocates for the file. -/
structure Input where
  file : Bytes
  buffer : Bytes
  threadCount : ℕ
  file_pos : 0 < file.length
  buffer_length : buffer.length = file.length
  file_lt : file.length < 2 ^ 63
  threadCount_pos : 0 < threadCount
  threadCount_lt : threadCount < 2 ^ 31

/-! ## The main thread -/

/-- `data_size` -/
def dataSize (input : Input) : ℤ :=
  int32 input.file.length

/-- The buffer that `prepare` fills with a single call of `read`. -/
def prepare (input : Input) : Run Bytes :=
  storeRange input.buffer 0 (input.file.take SplitToArray.MAX_RW_COUNT)

/-- The loop of `main` that divides the data. -/
def partitionLoop (threadCount sizePerThread i rest partialData : ℕ) (arr : List ThreadArg) :
    List ThreadArg :=
  if i < threadCount then
    let size := if i = threadCount - 1 then rest else sizePerThread
    partitionLoop threadCount sizePerThread (i + 1) (sizeT (rest - sizePerThread))
      (partialData + sizePerThread) (arr ++ [⟨some partialData, size⟩])
  else arr
termination_by threadCount - i

/-- The segments that `main` hands to the threads. -/
def segments (input : Input) : List ThreadArg :=
  partitionLoop input.threadCount (sizeT ((dataSize input).tdiv input.threadCount)) 0
    (sizeT (dataSize input)) 0 []

def startThreads (input : Input) :
    Barrier.State Psort.Phase (Run Shared) input.threadCount :=
  (threadRun input.threadCount).start do
    let memory ← prepare input
    .ok ⟨memory, segments input⟩

/-- What `%03o` prints for an `int`. -/
def octal (x : ℤ) : Bytes :=
  let digits := (Nat.digits 8 (x % 2 ^ 32).toNat).reverse.map fun d => UInt8.ofNat (48 + d)
  List.replicate (3 - digits.length) 48 ++ digits

/-- The loop of `print_data`; `w` counts the columns of a line. -/
def printLoop (w : ℕ) : Bytes → Bytes
  | [] => []
  | byte :: data =>
      let x := byte.toInt8.toInt
      let text := if x < 32 then 92 :: octal x else [byte]
      let w := if x < 32 then w + 4 else w + 1
      if 168 < w then text ++ 10 :: printLoop 0 data else text ++ printLoop w data

/-- The line of 60 minus signs. -/
def ruler : Bytes :=
  List.replicate 60 45 ++ [10]

/-- The text that `print_data` prints for the bytes. -/
def dataText (data : Bytes) : Bytes :=
  ruler ++ printLoop 0 data ++ 10 :: ruler

def printData (input : Input) (s : Shared) : Run Bytes := do
  let data ← loadRange s.memory 0 (dataSize input).toNat
  .ok (dataText data)

/-- What a complete run of the program can print. -/
inductive Outcome (input : Input) : Run Bytes → Prop
  | joined {t : Barrier.State Psort.Phase (Run Shared) input.threadCount}
      (hrun : Reaches (threadRun input.threadCount).Step (startThreads input) t)
      (hjoin : ∀ idx, t.pcs idx = .returned) : Outcome input (t.shared >>= printData input)

end SysProg.ThreadSortBytes
