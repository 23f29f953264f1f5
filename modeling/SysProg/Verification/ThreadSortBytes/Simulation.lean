import SysProg.Model.ThreadSortBytes
import SysProg.Verification.MultithreadedSort.Correctness

/-! # The threads as those of `psort_r`

As long as the sizes fit an `int`, the threads do to the bytes what the threads of `psort_r` do to
an array of bytes. -/

namespace SysProg.ThreadSortBytes

open Transmission (Bytes)
open ThreadSortShorts (Shared ThreadArg)

variable {n idx otherIdx : ℕ} {s s' : Psort.Shared UInt8}

/-- The order of signed characters. -/
def signedBytes : CompareFun UInt8 where
  compare := ThreadSortShorts.compare
  neg_iff x y := by
    simp only [ThreadSortShorts.compare]
    omega
  trans x y z hxy hyz := by
    simp only [ThreadSortShorts.compare] at *
    omega

/-- The call of `psort_r` that does the same work. -/
def psortParams (threadCount : ℕ) : Psort.Params UInt8 where
  compare := signedBytes.compare
  metric := none
  threadCount := threadCount
  selectedSortType := .quickSort
  qsortR compare xs := .ok (xs.mergeSort fun x y => decide (compare x y ≤ 0))

def toArg (segment : Psort.SortableData) : ThreadArg :=
  ⟨segment.base, segment.nmemb⟩

/-- The memory of the threads, with the array of `psort_r` as the buffer. -/
def toBytes (s : Psort.Shared UInt8) : Shared :=
  ⟨s.base, s.segments.map toArg⟩

/-! ## One action -/

theorem load_toBytes (s : Psort.Shared UInt8) (idx : ℕ) :
    load (toBytes s).arr idx = toArg <$> load s.segments idx := by
  simp only [load, toBytes, List.getElem?_map]
  cases s.segments[idx]? <;> rfl

theorem argData_toArg (segment : Psort.SortableData) :
    ThreadSortShorts.argData (toArg segment) = Psort.segmentBase segment := by
  cases hbase : segment.base <;>
    simp [ThreadSortShorts.argData, Psort.segmentBase, toArg, hbase]

theorem sortSegment_toBytes (h : Psort.sortSegment (psortParams n) idx s = .ok s') :
    ThreadSortShorts.sortSegment idx (toBytes s) = .ok (toBytes s') := by
  obtain ⟨segment, hload, h⟩ := Run.bind_eq_ok h
  obtain ⟨ptr, hptr, h⟩ := Run.bind_eq_ok h
  obtain ⟨base, hbase, h⟩ := Run.bind_eq_ok h
  obtain rfl := Except.ok.inj h
  have hsort : onSegment ThreadSortShorts.qsort s.base ptr segment.nmemb = .ok base := hbase
  have harg : load (toBytes s).arr idx = .ok (toArg segment) := by
    rw [load_toBytes, hload]
    rfl
  simp only [ThreadSortShorts.sortSegment, harg, Run.ok_bind, argData_toArg, hptr]
  exact congrArg (· >>= fun memory => .ok { toBytes s with memory }) hsort

theorem mergeSegments_toBytes (hlength : s.base.length < 2 ^ 31)
    (h : Psort.mergeSegments (psortParams n) idx otherIdx s = .ok s') :
    ThreadSortShorts.mergeSegments idx otherIdx (toBytes s) = .ok (toBytes s') := by
  obtain ⟨segment, hload, h⟩ := Run.bind_eq_ok h
  obtain ⟨other, hother, h⟩ := Run.bind_eq_ok h
  obtain ⟨ptr, hptr, h⟩ := Run.bind_eq_ok h
  obtain ⟨otherPtr, hotherPtr, h⟩ := Run.bind_eq_ok h
  obtain ⟨left, hleft, h⟩ := Run.bind_eq_ok h
  obtain ⟨right, hright, h⟩ := Run.bind_eq_ok h
  obtain ⟨base, hbase, h⟩ := Run.bind_eq_ok h
  obtain rfl := Except.ok.inj h
  have harg : load (toBytes s).arr idx = .ok (toArg segment) := by
    rw [load_toBytes, hload]
    rfl
  have harg' : load (toBytes s).arr otherIdx = .ok (toArg other) := by
    rw [load_toBytes, hother]
    rfl
  -- The merged segment lies in the buffer, so its size is an `int`.
  have hsmall : segment.nmemb + other.nmemb < 2 ^ 31 := by
    obtain ⟨hin, hleft⟩ := Psort.loadRange_eq_ok_iff.mp hleft
    obtain ⟨hin', hright⟩ := Psort.loadRange_eq_ok_iff.mp hright
    have hstore := (Psort.storeRange_eq_ok_iff.mp hbase).1
    have hmerged : mergeLoop (psortParams n).compare left right 0 0 [] =
        left.merge right signedBytes.leb := mergeLoop_start signedBytes left right
    have hleft' : left.length = segment.nmemb := by
      rw [← hleft, List.length_take, List.length_drop]
      omega
    have hright' : right.length = other.nmemb := by
      rw [← hright, List.length_take, List.length_drop]
      omega
    rw [hmerged, List.length_merge, hleft', hright'] at hstore
    omega
  have hnot : ¬ 2 ^ 31 ≤ (toArg segment).size + (toArg other).size := by
    simpa [toArg] using hsmall
  have hstore : storeRange (toBytes s).memory ptr
      (mergeLoop ThreadSortShorts.compare left right 0 0 []) = .ok base := hbase
  have hread : loadRange (toBytes s).memory ptr (toArg segment).size = .ok left := hleft
  have hread' : loadRange (toBytes s).memory otherPtr (toArg other).size = .ok right := hright
  simp only [ThreadSortShorts.mergeSegments, harg, harg', Run.ok_bind, if_neg hnot, argData_toArg,
    hptr, hotherPtr, hread, hread', hstore]
  simp [toBytes, toArg]

/-- An action that `psort_r` completes has the same effect here. -/
theorem threadAction_toBytes {phase : Psort.Phase} (hlength : s.base.length < 2 ^ 31)
    (hstep : ∀ step, phase = .merge step → 2 * step < 2 ^ 31)
    (h : Psort.threadAction (psortParams n) phase idx s = .ok s') :
    ThreadSortShorts.threadAction n phase idx (toBytes s) = .ok (toBytes s') := by
  cases phase with
  | sort => exact sortSegment_toBytes h
  | merge step =>
      have hsmall := hstep step rfl
      simp only [Psort.threadAction, Psort.mergeStep,
        Nat.mod_eq_of_lt (show 2 * step < 2 ^ 32 by omega)] at h
      simp only [ThreadSortShorts.threadAction, ThreadSortShorts.mergeStep, if_neg (not_le.mpr hsmall)]
      by_cases hmod : idx % (2 * step) = 0
      · rw [if_pos hmod] at h ⊢
        by_cases hother : idx + step < n
        · rw [if_pos (show idx + step < (psortParams n).threadCount from hother)] at h
          rw [if_pos hother]
          exact mergeSegments_toBytes hlength h
        · rw [if_neg (show ¬ idx + step < (psortParams n).threadCount from hother)] at h
          rw [if_neg hother, Except.ok.inj h]
      · rw [if_neg hmod] at h ⊢
        rw [Except.ok.inj h]

/-- An action keeps the size of the buffer. -/
theorem length_threadAction {phase : Psort.Phase}
    (h : Psort.threadAction (psortParams n) phase idx s = .ok s') :
    s'.base.length = s.base.length := by
  have hstore : ∀ {xs ys data : Bytes} {off : ℕ}, storeRange xs off data = .ok ys →
      ys.length = xs.length := by
    intro xs ys data off hys
    obtain ⟨hle, rfl⟩ := Psort.storeRange_eq_ok_iff.mp hys
    simp only [List.length_append, List.length_take, List.length_drop]
    omega
  cases phase with
  | sort =>
      obtain ⟨segment, -, h⟩ := Run.bind_eq_ok h
      obtain ⟨ptr, -, h⟩ := Run.bind_eq_ok h
      obtain ⟨base, hbase, h⟩ := Run.bind_eq_ok h
      obtain rfl := Except.ok.inj h
      obtain ⟨part, -, hbase⟩ := Run.bind_eq_ok hbase
      obtain ⟨sorted, -, hbase⟩ := Run.bind_eq_ok hbase
      exact hstore hbase
  | merge step =>
      simp only [Psort.threadAction, Psort.mergeStep] at h
      split at h
      · split at h
        · obtain ⟨segment, -, h⟩ := Run.bind_eq_ok h
          obtain ⟨other, -, h⟩ := Run.bind_eq_ok h
          obtain ⟨ptr, -, h⟩ := Run.bind_eq_ok h
          obtain ⟨otherPtr, -, h⟩ := Run.bind_eq_ok h
          obtain ⟨left, -, h⟩ := Run.bind_eq_ok h
          obtain ⟨right, -, h⟩ := Run.bind_eq_ok h
          obtain ⟨base, hbase, h⟩ := Run.bind_eq_ok h
          obtain rfl := Except.ok.inj h
          exact hstore hbase
        · rw [Except.ok.inj h]
      · rw [Except.ok.inj h]

end SysProg.ThreadSortBytes
