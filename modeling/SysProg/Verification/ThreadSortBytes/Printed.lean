import SysProg.Verification.Text.Decimal
import SysProg.Verification.ThreadSortBytes.Simulation
import SysProg.Verification.ThreadSortShorts.Printed

/-! # What is printed

Characters that compare equal are equal, so all orders of the threads print the same text. -/

namespace SysProg.ThreadSortBytes

open List
open Transmission (Bytes int32)
open ThreadSortShorts (Shared ThreadArg sizeT threadRun)
open MultithreadedSort (cut cut_of_lt boundaries_cut)

variable {input : Input}

/-! ## Before the threads start -/

/-- The buffer after `read`, which does not fill it if the file is very large. -/
def filled (input : Input) : Bytes :=
  input.file.take SplitToArray.MAX_RW_COUNT ++ input.buffer.drop SplitToArray.MAX_RW_COUNT

theorem filled_of_le (h : input.file.length ≤ SplitToArray.MAX_RW_COUNT) :
    filled input = input.file := by
  have hbuffer := input.buffer_length
  rw [filled, List.take_of_length_le h, List.drop_eq_nil_of_le (by omega), List.append_nil]

theorem filled_length (input : Input) : (filled input).length = input.file.length := by
  have hbuffer := input.buffer_length
  simp only [filled, List.length_append, List.length_take, List.length_drop]
  omega

theorem prepare_eq (input : Input) : prepare input = .ok (filled input) := by
  have hbuffer := input.buffer_length
  refine Psort.storeRange_eq_ok_iff.mpr ⟨?_, ?_⟩
  · rw [List.length_take]
    omega
  · rw [List.take_zero, List.nil_append, Nat.zero_add, List.length_take, filled]
    by_cases hle : SplitToArray.MAX_RW_COUNT ≤ input.file.length
    · rw [min_eq_left hle]
    · rw [min_eq_right (by omega), List.drop_eq_nil_of_le hbuffer.le,
        List.drop_eq_nil_of_le (by omega)]

theorem dataSize_eq (h : input.file.length < 2 ^ 31) : dataSize input = input.file.length :=
  Transmission.int32_of_mem (by omega) (by exact_mod_cast h)

theorem sizeT_natCast {k : ℕ} (h : k < 2 ^ 64) : sizeT k = k := by
  unfold sizeT
  omega

theorem sizeT_sub {k l : ℕ} (hle : l ≤ k) (h : k < 2 ^ 64) : sizeT (k - l : ℤ) = k - l := by
  unfold sizeT
  omega

/-- No remainder of the partition wraps round. -/
theorem partitionLoop_eq (n len i : ℕ) (hlen : len < 2 ^ 64) (hi : i ≤ n) (arr : List ThreadArg) :
    partitionLoop n (len / n) i (len - i * (len / n)) (i * (len / n)) arr =
      arr ++ (List.range' i (n - i)).map fun k =>
        ⟨some (cut n len k), cut n len (k + 1) - cut n len k⟩ := by
  rw [partitionLoop]
  by_cases hlt : i < n
  · have hsize : (if i = n - 1 then len - i * (len / n) else len / n) =
        cut n len (i + 1) - cut n len i := by
      by_cases hlast : i = n - 1
      · rw [if_pos hlast, cut, cut, if_neg (by omega), if_pos hlt]
      · rw [if_neg hlast, cut, cut, if_pos (by omega), if_pos hlt, Nat.succ_mul]
        exact (Nat.add_sub_cancel_left ..).symm
    have hfits : (i + 1) * (len / n) ≤ len :=
      (Nat.mul_le_mul_right _ hlt).trans (Nat.mul_div_le len n)
    rw [Nat.succ_mul] at hfits
    have hrest : sizeT ((len - i * (len / n) : ℕ) - (len / n : ℕ)) = len - (i + 1) * (len / n) := by
      rw [sizeT_sub (by omega) (by omega), Nat.succ_mul, Nat.sub_sub]
    rw [if_pos hlt]
    simp only [hsize]
    rw [hrest, ← Nat.succ_mul, partitionLoop_eq n len (i + 1) hlen hlt,
      show n - i = n - (i + 1) + 1 by omega, List.range'_succ]
    simp [show cut n len i = i * (len / n) from if_pos hlt]
  · obtain rfl : i = n := by omega
    rw [if_neg hlt]
    simp
termination_by n - i

theorem segments_eq (h : input.file.length < 2 ^ 31) : segments input =
    (List.range input.threadCount).map fun k =>
      ⟨some (cut input.threadCount input.file.length k),
        cut input.threadCount input.file.length (k + 1) -
          cut input.threadCount input.file.length k⟩ := by
  have hdiv : sizeT ((dataSize input).tdiv input.threadCount) =
      input.file.length / input.threadCount := by
    have hle := Nat.div_le_self input.file.length input.threadCount
    rw [dataSize_eq h, Int.tdiv_eq_ediv_of_nonneg (Int.natCast_nonneg _), ← Int.natCast_ediv,
      sizeT_natCast (by omega)]
  have hloop := partitionLoop_eq input.threadCount input.file.length 0 (by omega)
    (Nat.zero_le _) []
  rw [Nat.zero_mul, Nat.sub_zero, List.nil_append, Nat.sub_zero, ← List.range_eq_range'] at hloop
  rw [segments, hdiv, dataSize_eq h, sizeT_natCast (by omega), hloop]

/-- The cells of the segments, none of which is sorted. -/
def firstCells (input : Input) : List (Option Bytes) :=
  unsorted input.threadCount (filled input) (cut input.threadCount (filled input).length)

/-- The threads start from the memory of these cells. -/
theorem startThreads_eq (h : input.file.length < 2 ^ 31) : startThreads input =
    (threadRun input.threadCount).start (toBytes <$> .ok (Psort.ofCells (firstCells input))) := by
  have hb := boundaries_cut (filled input).length input.threadCount_pos
  have hcells : Psort.ofCells (firstCells input) = ⟨filled input,
      (List.range input.threadCount).map fun k =>
        ⟨some (cut input.threadCount (filled input).length k),
          cut input.threadCount (filled input).length (k + 1) -
            cut input.threadCount (filled input).length k⟩⟩ := by
    rw [Psort.ofCells, firstCells, contents_unsorted hb le_rfl, Psort.layout_unsorted hb le_rfl,
      hb.last, slice_all]
  rw [startThreads, prepare_eq, Run.ok_bind, segments_eq h, hcells, filled_length]
  simp [toBytes, toArg, Function.comp_def]

/-! ## While the threads run -/

/-- The invariant of `psort_r`, and the size of the buffer stays the same. -/
def SizedInv (n : ℕ) (base : Bytes) (phase : Psort.Phase) (done : Finset (Fin n))
    (shared : Run (Psort.Shared UInt8)) : Prop :=
  Psort.ThreadInv (psortParams n) (IsSortingResult signedBytes) base (cut n base.length) phase
      done shared ∧
    ∀ s, shared = .ok s → s.base.length = base.length

theorem sizedInv_preserves {n : ℕ} {base : Bytes} (hpos : 0 < n) (hn : n ≤ 2 ^ 30) :
    (Psort.psortThreadRun (psortParams n)).Preserves (SizedInv n base) := by
  have hinv := Psort.threadInv_preserves (p := psortParams n) (c := signedBytes) rfl
    mergeClosed_isSortingResult (boundaries_cut base.length hpos) hn fun segment _ =>
      ⟨_, rfl, isSortingResult_mergeSort signedBytes segment⟩
  constructor
  · rintro phase done shared i shared' ⟨hs, hsize⟩ hi hact
    refine ⟨hinv.act _ _ _ _ _ hs hi hact, ?_⟩
    intro s' hs'
    obtain ⟨cells, rfl, -⟩ := hs
    obtain rfl : shared' = Psort.threadAction (psortParams n) phase i (Psort.ofCells cells) := hact
    exact (length_threadAction hs').trans (hsize _ rfl)
  · rintro phase done shared i ⟨hs, -⟩ hi
    exact hinv.progress _ _ _ _ hs hi
  · rintro phase phase' shared hnext ⟨hs, hsize⟩
    exact ⟨hinv.pass _ _ _ hnext hs, hsize⟩

theorem two_mul_step_lt {n : ℕ} {base : Bytes} {phase : Psort.Phase} {done : Finset (Fin n)}
    {shared : Run (Psort.Shared UInt8)} (hn : n ≤ 2 ^ 30) (h : SizedInv n base phase done shared)
    {step : ℕ} (hphase : phase = .merge step) : 2 * step < 2 ^ 31 := by
  subst hphase
  obtain ⟨⟨cells, -, -, hlt, -⟩, -⟩ := h
  have hlt' : step < n := hlt
  omega

/-- The phases are those of `psort_r`. -/
theorem next_eq {n : ℕ} {base : Bytes} {phase : Psort.Phase} {done : Finset (Fin n)}
    {shared : Run (Psort.Shared UInt8)} (hn : n ≤ 2 ^ 30) (h : SizedInv n base phase done shared) :
    (threadRun n).next phase = (Psort.psortThreadRun (psortParams n)).next phase := by
  cases phase with
  | sort => rfl
  | merge step =>
      have hstep := two_mul_step_lt hn h (Eq.refl (Psort.Phase.merge step))
      simp only [threadRun, Psort.psortThreadRun,
        Nat.mod_eq_of_lt (show 2 * step < 2 ^ 32 by omega)]
      rfl

/-- The invariant of the threads on their own memory. -/
theorem threadRun_preserves {n : ℕ} {base : Bytes} (hpos : 0 < n) (hn : n ≤ 2 ^ 30)
    (hlength : base.length < 2 ^ 31) : (threadRun n).Preserves fun phase done shared =>
      ∃ shared', shared = toBytes <$> shared' ∧ SizedInv n base phase done shared' := by
  refine Barrier.Program.Preserves.map (fun shared => toBytes <$> shared)
    (sizedInv_preserves hpos hn) ?_ ?_ ?_
  · intro phase done shared i t h hi hact
    refine ⟨shared >>= Psort.threadAction (psortParams n) phase i, rfl, ?_⟩
    obtain ⟨⟨cells', hshared', -⟩, -⟩ := (sizedInv_preserves hpos hn).act phase done shared i _ h hi rfl
    obtain ⟨⟨cells, rfl, -⟩, hsize⟩ := id h
    have hact' : t = ThreadSortShorts.threadAction n phase i (toBytes (Psort.ofCells cells)) := hact
    rw [hshared', hact']
    exact threadAction_toBytes (by rw [hsize _ rfl]; exact hlength)
      (fun step hstep => two_mul_step_lt hn h hstep) hshared'
  · intro phase done shared i _ _
    exact ⟨_, rfl⟩
  · intro phase phase' done shared h hnext
    rwa [← next_eq hn h]

/-- Every run of the threads ends with the sorted bytes in the buffer. -/
theorem threads_lead (hfile : input.file.length < 2 ^ 31) (hn : input.threadCount ≤ 2 ^ 30) :
    Leads (threadRun input.threadCount).Step (fun t => (∀ idx, t.pcs idx = .returned) ∧
      ∃ s, t.shared = .ok s ∧ IsSortingResult signedBytes (filled input) s.memory)
      (startThreads input) := by
  have hpos := input.threadCount_pos
  have hb := boundaries_cut (filled input).length hpos
  have hlength : (filled input).length < 2 ^ 31 := by rwa [filled_length]
  have hcells : Psort.ThreadInv (psortParams input.threadCount) (IsSortingResult signedBytes)
      (filled input) (cut input.threadCount (filled input).length) .sort ∅
      (.ok (Psort.ofCells (firstCells input))) := by
    refine ⟨_, rfl, by simp [firstCells, unsorted, psortParams], ?_⟩
    intro i
    exact ⟨_, getElem?_unsorted i.isLt, by simp⟩
  have hfirst : SizedInv input.threadCount (filled input) .sort ∅
      (.ok (Psort.ofCells (firstCells input))) := by
    refine ⟨hcells, ?_⟩
    intro s hs
    obtain rfl := Except.ok.inj hs
    rw [Psort.ofCells, firstCells, contents_unsorted hb le_rfl, hb.last, slice_all]
  rw [startThreads_eq hfile]
  refine ((threadRun_preserves hpos hn hlength).leads
    (ThreadSortShorts.phaseRank input.threadCount) ?_ hpos ⟨_, rfl, hfirst⟩).mono ?_
  · rintro phase phase' done shared ⟨shared', -, ⟨cells, -, hcells⟩, -⟩ hnext
    have hphase : ThreadSortShorts.StepPos phase := by
      cases phase with
      | sort => trivial
      | merge step => exact hcells.1
    exact (ThreadSortShorts.threadRun_next hphase hnext).2
  · rintro t ⟨hret, phase, hlast, shared', hshared, h⟩
    have hlast' := (next_eq hn h).symm.trans hlast
    obtain ⟨⟨cells, rfl, hcells⟩, -⟩ := h
    obtain ⟨output, rfl, hout⟩ := Psort.cells_finish hb hpos hn hlast' hcells
    refine ⟨hret, _, hshared, ?_⟩
    simpa [toBytes, Psort.ofCells] using hout

/-! ## The printed text -/

theorem signedBytes_antisymm {x y : UInt8} (hxy : signedBytes.le x y) (hyx : signedBytes.le y x) :
    x = y := by
  have heq : x.toInt8.toInt = y.toInt8.toInt := by
    simp only [CompareFun.le, signedBytes, ThreadSortShorts.compare] at hxy hyx
    omega
  have hint : x.toInt8 = y.toInt8 := Int8.toInt_inj.mp heq
  rw [← UInt8.toUInt8_toInt8 x, hint, UInt8.toUInt8_toInt8]

/-- All runs of the program come to the point where all threads have returned, and print the
text. -/
structure Prints (input : Input) (text : Bytes) : Prop where
  outcome : ∀ result, Outcome input result → result = .ok text
  returns : Leads (threadRun input.threadCount).Step (fun t => ∀ idx, t.pcs idx = .returned)
    (startThreads input)

/-- The program prints the bytes of its file in the order of signed characters, each as often as
it occurs there, whatever the number of threads and the order of their steps. -/
theorem prints_sorted_bytes (file : Bytes) (hfile : file.length ≤ SplitToArray.MAX_RW_COUNT) :
    ∃ data, data ~ file ∧ data.Pairwise (fun x y => x.toInt8 ≤ y.toInt8) ∧
      ∀ input : Input, input.file = file → input.threadCount ≤ 2 ^ 30 →
        Prints input (dataText data) := by
  have hshort : file.length < 2 ^ 31 := by
    unfold SplitToArray.MAX_RW_COUNT at hfile
    omega
  have hdata := isSortingResult_mergeSort signedBytes file
  refine ⟨_, hdata.perm, hdata.sorted.imp ?_, ?_⟩
  · intro x y hxy
    rw [Int8.le_iff_toInt_le]
    simp only [CompareFun.le, signedBytes, ThreadSortShorts.compare] at hxy
    omega
  · rintro input rfl hn
    have hleads := threads_lead hshort hn
    refine ⟨?_, hleads.mono fun t ht => ht.1⟩
    rintro result ⟨hrun, hjoin⟩
    obtain ⟨-, s, hshared, hsorted⟩ := hleads.of_stuck
      (fun u v hu huv => absurd huv
        (Barrier.Program.stuck_of_returned input.threadCount_pos hu.1 v))
      hrun (Barrier.Program.stuck_of_returned input.threadCount_pos hjoin)
    rw [filled_of_le hfile] at hsorted
    have heq : s.memory = _ := (hsorted.perm.trans hdata.perm.symm).eq_of_pairwise
      (fun _ _ _ _ => signedBytes_antisymm) hsorted.sorted hdata.sorted
    have hload : loadRange s.memory 0 (dataSize input).toNat = .ok s.memory := by
      refine Psort.loadRange_eq_ok_iff.mpr ?_
      rw [dataSize_eq hshort, Int.toNat_natCast, ← hsorted.length_eq]
      simp
    rw [hshared, Run.ok_bind, printData, hload, Run.ok_bind, heq]

/-- Four bytes, one of which is a negative character, for three threads. -/
def fourBytes : Input where
  file := [98, 255, 97, 98]
  buffer := [0, 0, 0, 0]
  threadCount := 3
  file_pos := by decide
  buffer_length := rfl
  file_lt := by decide
  threadCount_pos := by decide
  threadCount_lt := by decide

theorem prints_sorted_bytes_three : ∃ data : Bytes, data ~ [98, 255, 97, 98] ∧
    data.Pairwise (fun x y => x.toInt8 ≤ y.toInt8) ∧ Prints fourBytes (dataText data) := by
  obtain ⟨data, hperm, hsorted, hprints⟩ := prints_sorted_bytes [98, 255, 97, 98] (by decide)
  exact ⟨data, hperm, hsorted, hprints fourBytes rfl (by decide)⟩

end SysProg.ThreadSortBytes
