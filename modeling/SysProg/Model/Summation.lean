import SysProg.Library.Actions
import SysProg.Library.Counts
import SysProg.Model.Transmission

/-! # Threads that sum up a file each

`posix/threads/summation.c`. The threads meet at a barrier; the one that is the serial thread
there adds up the sums of all and signals the condition variable on which the main thread waits,
without a mutex or a condition that is tested. A read that fails is left out, and what
`pthread_barrier_init` does for no threads. -/

namespace SysProg.Summation

open Transmission

/-- Where a thread is in `thread_run`. -/
inductive Worker where
  | notCreated
  /-- Before `partial_sums[idx] = 0`. -/
  | started
  /-- In the loop that reads the file. -/
  | reading (todo : Bytes)
  /-- In `pthread_barrier_wait`. -/
  | waiting
  /-- Before `total_sum[0] = 0`. -/
  | serial
  /-- In the loop that adds up, before the sum of thread `i`. -/
  | adding (i : ℕ)
  /-- Before `pthread_cond_signal`. -/
  | signalling
  | sleeping
  | finished
  deriving DecidableEq, Repr

/-- Where the main thread is. -/
inductive Main where
  /-- In the loop that creates the threads, or after it and before `pthread_cond_wait`. -/
  | creating (i : ℕ)
  /-- In `pthread_cond_wait`. -/
  | waiting
  /-- In the loop that prints the sums of the threads. -/
  | printing (i : ℕ)
  | printingTotal
  | joining (i : ℕ)
  | exited
  deriving DecidableEq, Repr

/-- The threads, the memory that they share and the numbers that have been printed. -/
structure State (n : ℕ) where
  main : Main
  workers : Fin n → Worker
  partialSums : Fin n → Long
  totalSum : Long
  printed : List Long

variable {n : ℕ}

/-- The sums are not initialized. -/
def start (partialSums : Fin n → Long) (totalSum : Long) : State n :=
  ⟨.creating 0, fun _ => .notCreated, partialSums, totalSum, []⟩

def State.goto (s : State n) (i : Fin n) (worker : Worker) : State n :=
  { s with workers := Function.update s.workers i worker }

def mainStep (s : State n) : Option (State n) :=
  match s.main with
  | .creating i =>
      if h : i < n then some { s.goto ⟨i, h⟩ .started with main := .creating (i + 1) }
      else some { s with main := .waiting }
  | .printing i =>
      if h : i < n then
        some { s with main := .printing (i + 1), printed := s.printed ++ [s.partialSums ⟨i, h⟩] }
      else some { s with main := .printingTotal }
  | .printingTotal => some { s with main := .joining 0, printed := s.printed ++ [s.totalSum] }
  | .joining i =>
      if h : i < n then
        if s.workers ⟨i, h⟩ = .finished then some { s with main := .joining (i + 1) } else none
      else some { s with main := .exited }
  | .waiting | .exited => none

/-- `pthread_cond_signal` wakes the main thread if it waits. -/
def Main.signal : Main → Main
  | .waiting => .printing 0
  | main => main

def workerStep (files : Fin n → Bytes) (s : State n) (i : Fin n) : Option (State n) :=
  match s.workers i with
  | .started =>
      some { s.goto i (.reading (files i)) with partialSums := Function.update s.partialSums i 0 }
  | .reading (c :: todo) =>
      some { s.goto i (.reading todo) with
        partialSums :=
          Function.update s.partialSums i (s.partialSums i + BitVec.ofNat 64 c.toNat) }
  | .reading [] => some (s.goto i .waiting)
  | .serial => some { s.goto i (.adding 0) with totalSum := 0 }
  | .adding j =>
      if h : j < n then
        some { s.goto i (.adding (j + 1)) with totalSum := s.totalSum + s.partialSums ⟨j, h⟩ }
      else some (s.goto i .signalling)
  | .signalling => some { s.goto i .sleeping with main := s.main.signal }
  | .sleeping => some (s.goto i .finished)
  | .notCreated | .waiting | .finished => none

/-- All threads have come to the barrier, and `serial` is the one that gets
`PTHREAD_BARRIER_SERIAL_THREAD`. -/
def passBarrier (s : State n) (serial : Fin n) : Option (State n) :=
  if ∀ i, s.workers i = .waiting then
    some { s with workers := fun i => if i = serial then .serial else .sleeping }
  else none

inductive Action (n : ℕ) where
  | main
  | worker (i : Fin n)
  | passBarrier (serial : Fin n)

def next (files : Fin n → Bytes) (s : State n) : Action n → Option (State n)
  | .main => mainStep s
  | .worker i => workerStep files s i
  | .passBarrier serial => passBarrier s serial

end SysProg.Summation
