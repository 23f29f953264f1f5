import SysProg.Model.Fsort
import SysProg.Model.Msort
import SysProg.Model.Psort

/-! # The test of the sort functions

`posix/test/sort-test.c`, and `sort-test-with-mock-for-qsort.c` with a `qsort_r` of its own. The
tests compare what each sort function makes of an array with what `qsort_r` makes of it. -/

namespace SysProg.SortTest

open Psort (SortType)

def compareIntFull (left right : ℤ) : ℤ :=
  if left < right then -1 else if left = right then 0 else 1

def metricIntFull (element : ℤ) : ℚ :=
  element

/-- `qsort_r` for arrays of integers; it stays inside of the array. -/
structure QsortR where
  qsortR : List ℤ → List ℤ
  length_eq : ∀ base, (qsortR base).length = base.length

/-- The one of the GNU C library is a merge sort. -/
def glibc : QsortR where
  qsortR base := base.mergeSort fun x y => decide (compareIntFull x y ≤ 0)
  length_eq _ := List.length_mergeSort _

/-- The one of the test that should fail. -/
def mock : QsortR where
  qsortR base := if base.length > 0 then base.set 0 0 else base
  length_eq base := by split <;> simp

variable (q : QsortR)

def sortAnyR (selectedSortType : SortType) (base : List ℤ) : Run (List ℤ) :=
  match selectedSortType with
  | .heapSort => HeapSort.hsortR compareIntFull base
  | .ternaryHeapSort => HeapSort.ternaryHsortR compareIntFull base
  | .quickSort => .ok (q.qsortR base)
  | .flashSort => Fsort.fsortR compareIntFull metricIntFull base
  | .insertionSort => Isort.isortR compareIntFull base
  | .mergeSort => Msort.msortR compareIntFull base

def SORT_TYPES : List SortType :=
  [.heapSort, .ternaryHeapSort, .quickSort, .flashSort, .insertionSort, .mergeSort]

/-- `CU_ASSERT_EQUAL` of the elements, for each of the sort functions. -/
def compareSorts (sortedArr base : List ℤ) : List SortType → Run (List Bool)
  | [] => .ok []
  | st :: sts => do
      let arr ← sortAnyR q st base
      let results ← compareSorts sortedArr base sts
      .ok (List.zipWith (· == ·) arr sortedArr ++ results)

def checkThree (i j k : ℤ) : Run (List Bool) := do
  let masterArr := q.qsortR [i, j, k]
  let results ← compareSorts q masterArr [i, j, k] SORT_TYPES
  .ok ((List.zipWith (fun a b => decide (a ≤ b)) masterArr masterArr.tail) ++ results)

/-- The loop over `i`; the array has 100 elements in the test. -/
def checkPrefixes (masterArr : List ℤ) : List ℕ → Run (List Bool)
  | [] => .ok []
  | i :: is => do
      let sortedArr := q.qsortR (masterArr.take i)
      let results ← compareSorts q sortedArr (masterArr.take i) SORT_TYPES
      let more ← checkPrefixes masterArr is
      .ok (results ++ more)

def checkN (masterArr : List ℤ) : Run (List Bool) := do
  let results ← checkPrefixes q masterArr (List.range (masterArr.length + 1))
  let sortedArr := q.qsortR masterArr
  let ordered := List.zipWith (fun a b => decide (a ≤ b)) sortedArr sortedArr.tail
  let metrics :=
    List.zipWith (fun a b => decide (metricIntFull a ≤ metricIntFull b)) sortedArr sortedArr.tail
  .ok (results ++ ordered ++ metrics)

end SysProg.SortTest
