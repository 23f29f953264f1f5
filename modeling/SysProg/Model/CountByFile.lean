import SysProg.Library.Counts
import SysProg.Library.Interleaving
import SysProg.Model.Transmission

/-! # Threads that count a file each

`posix/threads/thread-memory-count-by-file.c`: a thread counts the bytes of its file in an array
on its stack and adds that array to the common counters at the end, with `output_mutex` locked.
The array on the stack is not initialized. -/

namespace SysProg.CountByFile

open Transmission

/-- The indices of `counter`, in the order of the output loop. -/
def indices : List UInt8 :=
  (List.range 256).map UInt8.ofNat

/-- `data.counter`, and whether `output_mutex` is locked. -/
structure Data where
  counter : UInt8 → Long
  locked : Bool

/-- Where a thread is in `run`. -/
inductive Thread
  /-- In the loop that reads the file. -/
  | counting (todo : Bytes) (scounter : UInt8 → Long)
  /-- Before it locks the mutex. -/
  | waiting (scounter : UInt8 → Long)
  /-- In the output loop, before `tcounter[i] += scounter[i]` for the next index. -/
  | adding (todo : List UInt8) (scounter : UInt8 → Long) (printed : List (UInt8 × Long))
  | loaded (i : UInt8) (x : Long) (todo : List UInt8) (scounter : UInt8 → Long)
      (printed : List (UInt8 × Long))
  /-- Before `val = tcounter[i]`. -/
  | added (i : UInt8) (todo : List UInt8) (scounter : UInt8 → Long)
      (printed : List (UInt8 × Long))
  | finished (printed : List (UInt8 × Long))

/-- The next step of a thread; `none` if it waits for the mutex or has finished. -/
def next (data : Data) : Thread → Option (Data × Thread)
  | .counting (c :: todo) scounter =>
      some (data, .counting todo (Function.update scounter c (scounter c + 1)))
  | .counting [] scounter => some (data, .waiting scounter)
  | .waiting scounter =>
      if data.locked then none
      else some ({ data with locked := true }, .adding indices scounter [])
  | .adding (i :: todo) scounter printed =>
      some (data, .loaded i (data.counter i) todo scounter printed)
  | .loaded i x todo scounter printed =>
      some ({ data with counter := Function.update data.counter i (x + scounter i) },
        .added i todo scounter printed)
  | .added i todo scounter printed =>
      some (data, .adding todo scounter (printed ++ [(i, data.counter i)]))
  | .adding [] _ printed => some ({ data with locked := false }, .finished printed)
  | .finished _ => none

def Thread.Finished : Thread → Prop
  | .finished _ => True
  | _ => False

def Step (s t : Data × Thread) : Prop :=
  next s.1 s.2 = some t

/-- The state when `main` has started a thread for each file. `stack` is what the memory of
`local_data` holds. -/
def start {n : ℕ} (files : Fin n → Bytes) (stack : Fin n → UInt8 → Long) :
    Data × (Fin n → Thread) :=
  (⟨fun _ => 0, false⟩, fun i => .counting (files i) (stack i))

end SysProg.CountByFile
