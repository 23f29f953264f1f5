import SysProg.Model.Memory
import SysProg.Model.Transfer

/-! # Copying without blocking

The loop of `main` in `posix/adv-io/non-blocking-cat.c`. A step is a call of `read` or
`write` with what the program does until the next call; a successful call leaves `errno` as
it is. The messages to `stderr` and the calls of `sleep` are left out. -/

namespace SysProg.NonBlockingCat

open Transmission Transfer

def EAGAIN : ℤ := 11

/-- The next call. The program is `done` behind the loop and `exited` in `handle_error`;
`fault` is an access outside of the buffer. -/
inductive Phase where
  | reading
  | writing (ptr n : ℕ)
  | done
  | exited
  | fault
  deriving DecidableEq, Repr

/-- `input` and `output` are the bytes that have been read and written. -/
structure State where
  phase : Phase
  errno : ℤ
  buffer : Bytes
  input : Bytes
  output : Bytes
  deriving DecidableEq, Repr

/-- The test `n > 0` of the inner loop. -/
def State.test (s : State) (ptr n : ℕ) : State :=
  { s with phase := if n > 0 then .writing ptr n else .reading }

def State.onRead (s : State) (result : Outcome Bytes) : State :=
  let (n, bytes, errno) : ℤ × Bytes × ℤ :=
    match result with
    | .ok bytes => (bytes.length, bytes, s.errno)
    | .error errno => (-1, [], errno)
  let s := { s with errno }
  if n < 1 ∧ errno = EAGAIN then s
  else if n < 0 then { s with phase := .exited }
  else if n = 0 then { s with phase := .done }
  else
    match storeRange s.buffer 0 bytes with
    | .error _ => { s with phase := .fault }
    | .ok buffer => { s with buffer, input := s.input ++ bytes }.test 0 bytes.length

/-- A `write` of `n` bytes transfers at most these. -/
def State.onWrite (s : State) (ptr n : ℕ) (result : Outcome ℕ) : State :=
  match result with
  | .error errno =>
      let s := { s with errno }
      if errno = EAGAIN then s else { s with phase := .exited }
  | .ok count =>
      let m := min count n
      match loadRange s.buffer ptr n with
      | .error _ => { s with phase := .fault }
      | .ok bytes => { s with output := s.output ++ bytes.take m }.test (ptr + m) (n - m)

/-- The program, the results of `read` that are left and the number of calls of `write`. -/
structure System where
  state : State
  reads : List (Outcome Bytes)
  calls : ℕ
  deriving DecidableEq

/-- Behind the last result of `read` the file is at its end. -/
def System.step (writes : ℕ → Outcome ℕ) (sys : System) : System :=
  match sys.state.phase with
  | .reading =>
      match sys.reads with
      | [] => { sys with state := sys.state.onRead (.ok []) }
      | result :: reads => { sys with state := sys.state.onRead result, reads }
  | .writing ptr n =>
      { sys with state := sys.state.onWrite ptr n (writes sys.calls), calls := sys.calls + 1 }
  | _ => sys

/-- A `read` fails with `EAGAIN` or gets a part of the file that fits into the buffer. -/
def Chunks (size : ℕ) (reads : List (Outcome Bytes)) : Prop :=
  ∀ result ∈ reads, result = .error EAGAIN ∨
    ∃ bytes, result = .ok bytes ∧ bytes ≠ [] ∧ bytes.length ≤ size

/-- A `write` fails with `EAGAIN` or is ready to transfer a number of bytes. -/
def Counts (writes : ℕ → Outcome ℕ) : Prop :=
  ∀ i, writes i = .error EAGAIN ∨ ∃ count, writes i = .ok count ∧ 0 < count

/-- The results of the calls, and what `malloc` has found in the memory of the buffer. -/
structure Environment (bufferSize : ℕ) where
  pos : 1 ≤ bufferSize
  reads : List (Outcome Bytes)
  chunks : Chunks bufferSize reads
  writes : ℕ → Outcome ℕ
  counts : Counts writes
  finite : {i | writes i = .error EAGAIN}.Finite
  buffer : Bytes
  length_eq : buffer.length = bufferSize + 1

namespace Environment

variable {bufferSize : ℕ}

def start (env : Environment bufferSize) : System :=
  ⟨⟨.reading, 0, env.buffer, [], []⟩, env.reads, 0⟩

/-- After `k` calls. -/
def after (env : Environment bufferSize) (k : ℕ) : System :=
  (System.step env.writes)^[k] env.start

end Environment

end SysProg.NonBlockingCat
