import SysProg.Library.Barrier
import SysProg.Model.Fsort
import SysProg.Model.Msort

/-! # Parallel sort

`posix/lib/psort.c`. The threads of `psort_r` share the array and the table
`segments`; between two calls of `pthread_barrier_wait` each of them sorts its segment
or performs one merge. `idx`, `step` and `thread_count` are 32-bit numbers. -/

namespace SysProg.Psort

variable {α : Type}

/-- `struct sortable_data`; `base` is an offset into the array or `NULL`. -/
structure SortableData where
  base : Option ℕ
  nmemb : ℕ
  deriving DecidableEq, Repr

/-- `enum sort_type` -/
inductive SortType where
  | heapSort
  | ternaryHeapSort
  | quickSort
  | flashSort
  | insertionSort
  | mergeSort
  deriving DecidableEq, Repr

/-- The arguments of `psort_r` besides the array, and `qsort_r` of the C library. -/
structure Params (α : Type) where
  compare : α → α → ℤ
  metric : Option (α → ℚ)
  threadCount : ℕ
  selectedSortType : SortType
  qsortR : (α → α → ℤ) → List α → Run (List α)

/-- The memory that the threads share. -/
structure Shared (α : Type) where
  base : List α
  segments : List SortableData

/-- What happens between two barriers. -/
inductive Phase where
  | sort
  | merge (step : ℕ)
  deriving DecidableEq, Repr

/-! ## The threads -/

/-- `switch (data->selected_sort_type)` -/
def sequentialSort (p : Params α) (base : List α) : Run (List α) :=
  match p.selectedSortType with
  | .heapSort => HeapSort.hsortR p.compare base
  | .ternaryHeapSort => HeapSort.ternaryHsortR p.compare base
  | .quickSort => p.qsortR p.compare base
  | .flashSort =>
      match p.metric with
      | some metric => Fsort.fsortR p.compare metric base
      | none => .error .nullPointer
  | .insertionSort => Isort.isortR p.compare base
  | .mergeSort => Msort.msortR p.compare base

/-- The pointer in `segments[idx].base`, which must not be `NULL`. -/
def segmentBase (segment : SortableData) : Run ℕ :=
  match segment.base with
  | some ptr => .ok ptr
  | none => .error .nullPointer

/-- The first part of `psort_thread_run`. -/
def sortSegment (p : Params α) (idx : ℕ) (s : Shared α) : Run (Shared α) := do
  let segment ← load s.segments idx
  let ptr ← segmentBase segment
  let base ← onSegment (sequentialSort p) s.base ptr segment.nmemb
  .ok { s with base }

/-- The body of `if (other_idx < thread_count)`. -/
def mergeSegments (p : Params α) (idx otherIdx : ℕ) (s : Shared α) : Run (Shared α) := do
  let segment ← load s.segments idx
  let other ← load s.segments otherIdx
  let ptr ← segmentBase segment
  let otherPtr ← segmentBase other
  let left ← loadRange s.base ptr segment.nmemb
  let right ← loadRange s.base otherPtr other.nmemb
  let mergeData := mergeLoop p.compare left right 0 0 []
  let base ← storeRange s.base ptr mergeData
  .ok ⟨base, (s.segments.set idx ⟨some ptr, segment.nmemb + other.nmemb⟩).set otherIdx ⟨none, 0⟩⟩

/-- The body of the loop over `step` after the barrier. -/
def mergeStep (p : Params α) (step idx : ℕ) (s : Shared α) : Run (Shared α) :=
  if idx % (2 * step % 2 ^ 32) = 0 then
    if idx + step < p.threadCount then mergeSegments p idx (idx + step) s else .ok s
  else .ok s

/-- What thread `idx` does in a phase. -/
def threadAction (p : Params α) (phase : Phase) (idx : ℕ) (s : Shared α) : Run (Shared α) :=
  match phase with
  | .sort => sortSegment p idx s
  | .merge step => mergeStep p step idx s

/-- `psort_thread_run`, divided by the barriers; after a fault nothing happens. -/
def psortThreadRun (p : Params α) : Barrier.Program Phase (Run (Shared α)) p.threadCount where
  first := .sort
  act phase idx shared shared' := shared' = shared >>= threadAction p phase idx
  next phase :=
    let step := match phase with
      | .sort => 1
      | .merge step => 2 * step % 2 ^ 32
    if step < p.threadCount then some (.merge step) else none

/-! ## The main thread -/

/-- The loop of `psort_r` that divides the array, with its assertion. -/
def partitionLoop (threadCount i restCount restLen ptr : ℕ) (segments : List SortableData) :
    Run (List SortableData) :=
  if i < threadCount then
    if restCount = 0 then .error .divisionByZero
    else
      let lenPerThread := restLen / restCount
      if i = threadCount - 1 ∧ restLen ≠ lenPerThread then .error .assertion
      else
        partitionLoop threadCount (i + 1) (restCount - 1) (restLen - lenPerThread)
          (ptr + lenPerThread) (segments ++ [⟨some ptr, lenPerThread⟩])
  else .ok segments
termination_by threadCount - i

/-- `psort_r` up to the creation of the threads, for an array that is not short. -/
def startThreads (p : Params α) (base : List α) :
    Run (Barrier.State Phase (Run (Shared α)) p.threadCount) :=
  if p.threadCount = 0 then .error .assertion
  else do
    let segments ← partitionLoop p.threadCount 0 p.threadCount base.length 0 []
    .ok ((psortThreadRun p).start (.ok ⟨base, segments⟩))

/-- What `psort_r` does after it has joined the threads. -/
def copyBack (nmemb : ℕ) (s : Shared α) : Run (List α) := do
  let segment ← load s.segments 0
  if segment.base = some 0 then .ok s.base
  else do
    let ptr ← segmentBase segment
    let data ← loadRange s.base ptr nmemb
    storeRange s.base 0 data

/-- The ways in which a call of `psort_r` can end. -/
inductive Outcome (p : Params α) (base : List α) : Run (List α) → Prop
  | short (h : base.length ≤ 1) : Outcome p base (.ok base)
  | failed (h : 1 < base.length) {e : Fault} (hstart : startThreads p base = .error e) :
      Outcome p base (.error e)
  | joined (h : 1 < base.length) {s t : Barrier.State Phase (Run (Shared α)) p.threadCount}
      (hstart : startThreads p base = .ok s) (hrun : Reaches (psortThreadRun p).Step s t)
      (hjoin : ∀ idx, t.pcs idx = .returned) :
      Outcome p base (t.shared >>= copyBack base.length)

end SysProg.Psort
