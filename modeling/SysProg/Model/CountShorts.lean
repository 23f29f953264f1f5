import SysProg.Library.Counts
import SysProg.Library.Pieces
import SysProg.Model.Memory
import SysProg.Model.Transmission

/-! # Counting the shorts of a stream

The reading loops of `posix/ipc/shared-memory-count-shorts-simple.c`,
`-simple-posix.c`, `-segmented-semaphore.c` and of
`posix/threads/thread-memory-count-shorts-mutex.c`. They are copies of one loop that differ in
the line in which `byte_size` is computed. -/

namespace SysProg.CountShorts

open Transmission ByteStream

def BUF_SIZE : ℕ := 16384

/-- `sarr[i]`, with the low byte first. -/
def sarr (buffer : Bytes) (i : ℕ) : Run UInt16 := do
  let low ← load buffer (2 * i)
  let high ← load buffer (2 * i + 1)
  .ok (UInt16.ofNat (low.toNat + 256 * high.toNat))

/-- The shorts of `short_size` turns of the inner loop from `i` on. -/
def sarrFrom (buffer : Bytes) (i : ℕ) : ℕ → Run (List UInt16)
  | 0 => .ok []
  | shortSize + 1 => do
      let s ← sarr buffer i
      let rest ← sarrFrom buffer (i + 1) shortSize
      .ok (s :: rest)

/-- `if (size_read == 0 && pos > 0) { buffer[pos] = (char) 0; pos++; }` -/
def padAtEnd (buffer : Bytes) (pos sizeRead : ℕ) : Run (Bytes × ℕ) :=
  if sizeRead = 0 ∧ 0 < pos then do
    let padded ← storeRange buffer pos [0]
    .ok (padded, pos + 1)
  else .ok (buffer, pos)

/-- `if (pos > 0) { buffer[0] = buffer[byte_size - 1]; }` -/
def carryOver (buffer : Bytes) (byteSize : ℕ) : Run Bytes :=
  if 0 < byteSize % 2 then do
    let last ← load buffer (byteSize - 1)
    storeRange buffer 0 [last]
  else .ok buffer

/-- The loop from a turn on: the shorts whose counters it increments, in this order. The
parameter computes `byte_size` from `size_read` and `pos` before and after the padding. -/
def countingLoop (byteSize : ℕ → ℕ → ℕ → ℕ) (pieces : List Bytes) (buffer : Bytes) (pos : ℕ) :
    Run (List UInt16) := do
  let stored ← storeRange buffer pos (receive (BUF_SIZE - pos) pieces).1
  let sizeRead := (receive (BUF_SIZE - pos) pieces).1.length
  let (padded, pos') ← padAtEnd stored pos sizeRead
  let size := byteSize sizeRead pos pos'
  let shorts ← sarrFrom padded 0 (size / 2)
  if _ : (receive (BUF_SIZE - pos) pieces).1 = [] then .ok shorts
  else do
    let carried ← carryOver padded size
    let later ← countingLoop byteSize (receive (BUF_SIZE - pos) pieces).2 carried (size % 2)
    .ok (shorts ++ later)
termination_by pieces.flatten.length
decreasing_by
  have hpos := List.length_pos_iff.mpr ‹¬(receive (BUF_SIZE - pos) pieces).1 = []›
  have hsplit := congrArg List.length (receive_append (BUF_SIZE - pos) pieces)
  rw [List.length_append] at hsplit
  omega

/-- The loop of the three programs with shared memory. -/
def sharedMemoryLoop : List Bytes → Bytes → ℕ → Run (List UInt16) :=
  countingLoop fun sizeRead pos _ => sizeRead + pos

/-- The program of a process or a thread: what its loop counts of a stream in pieces. -/
abbrev Program :=
  List Bytes → Bytes → Run (List UInt16)

def simple : Program :=
  fun pieces buffer => sharedMemoryLoop pieces buffer 0

def simplePosix : Program :=
  fun pieces buffer => sharedMemoryLoop pieces buffer 0

def segmentedSemaphore : Program :=
  fun pieces buffer => sharedMemoryLoop pieces buffer 0

def mutex : Program :=
  fun pieces buffer => countingLoop (fun sizeRead _ pos => sizeRead + pos) pieces buffer 0

abbrev Counter :=
  UInt16 → Long

/-- `counter[s]++` -/
def increment (counter : Counter) (s : UInt16) : Counter :=
  Function.update counter s (counter s + 1)

/-- The counters after the program alone has run. -/
def Program.counters (program : Program) (pieces : List Bytes) (buffer : Bytes)
    (counter : Counter) : Run Counter := do
  let shorts ← program pieces buffer
  .ok (shorts.foldl increment counter)

end SysProg.CountShorts
