import SysProg.Model.MultithreadedSort
import SysProg.Verification.Fsort.Metrics
import SysProg.Verification.Psort.Correctness

/-! # Correctness of the program that sorts strings

The threads merge along the same tree as those of `psort_r`, but into new blocks of
memory, and with another partition. Since strings that compare equal are equal, all ways
to sort them print the same text. -/

namespace SysProg.MultithreadedSort

open List

variable {cfg : Config}

/-! ## The sort of one part -/

/-- The inner sort is called with a sensible number of threads, and `qsort_r` sorts. -/
structure Config.Sound (cfg : Config) : Prop where
  psort_threads : ∀ threads, cfg.psortInternalThreads = some threads →
    1 ≤ threads ∧ threads ≤ 2 ^ 30
  qsort_sorts : cfg.selectedMtSortType = .quickSort → ∀ strings, ∃ output,
    cfg.qsortR compareStrFull strings = .ok output ∧ IsSortingResult strOrder strings output

theorem sequentialSort_eq (cfg : Config) (threads : ℕ) :
    sequentialSort cfg = Psort.sequentialSort (psortParams cfg threads) := by
  funext strings
  cases htype : cfg.selectedMtSortType <;>
    simp only [sequentialSort, Psort.sequentialSort, psortParams, htype]

theorem psortParams_compare (cfg : Config) (threads : ℕ) :
    (psortParams cfg threads).compare = strOrder.compare := by
  cases htype : cfg.selectedMtSortType <;> simp only [psortParams, htype] <;> rfl

theorem psortParams_threadCount (cfg : Config) (threads : ℕ) :
    (psortParams cfg threads).threadCount = threads := by
  cases htype : cfg.selectedMtSortType <;> simp only [psortParams, htype]

/-- All options sort every part of the strings. -/
theorem psortParams_sorts (hcfg : cfg.Sound) (threads : ℕ) {strings : List CString}
    (hlength : strings.length < 2 ^ 63) :
    Psort.SortsSegments (psortParams cfg threads) (IsSortingResult strOrder) strings := by
  refine Psort.sorts_segments (psortParams_compare cfg threads) hlength ?_
  have hc := psortParams_compare cfg threads
  cases htype : cfg.selectedMtSortType with
  | quickSort =>
      intro _ segment _
      simp only [Psort.sequentialSort, psortParams, htype]
      exact hcfg.qsort_sorts htype segment
  | flashSort =>
      intro _
      refine Psort.fsort_segments hc ?_
        (FsortMetrics.metricStrFull_agrees strings) ?_ <;> simp only [psortParams, htype]
  | flashSortBin =>
      intro _
      refine Psort.fsort_segments hc ?_
        (FsortMetrics.metricBinaryPrintablePref_agrees strings) ?_ <;>
          simp only [psortParams, htype]
  | heapSort => simp [psortParams, htype]
  | ternaryHeapSort => simp [psortParams, htype]
  | insertionSort => simp [psortParams, htype]
  | mergeSort => simp [psortParams, htype]

/-- The sort of a part can end, and it ends with the part sorted. -/
theorem sortOutcome_spec (hcfg : cfg.Sound) {strings : List CString}
    (hlength : strings.length < 2 ^ 63) :
    (∃ result, SortOutcome cfg strings result) ∧
      ∀ result, SortOutcome cfg strings result →
        ∃ output, result = .ok output ∧ IsSortingResult strOrder strings output := by
  cases hpsort : cfg.psortInternalThreads with
  | none =>
      simp only [SortOutcome, hpsort]
      refine ⟨⟨_, rfl⟩, ?_⟩
      rintro result rfl
      rw [sequentialSort_eq cfg 1]
      exact psortParams_sorts hcfg 1 hlength strings List.infix_rfl
  | some threads =>
      obtain ⟨hpos, hle⟩ := hcfg.psort_threads threads hpsort
      have hcorrect : Psort.Correct (psortParams cfg threads) (IsSortingResult strOrder) strings :=
        Psort.psortR_correct (psortParams_compare cfg threads) mergeClosed_isSortingResult
          (by rwa [psortParams_threadCount]) (by rwa [psortParams_threadCount])
          (psortParams_sorts hcfg threads hlength)
          fun h => (isStableSort_of_length_le_one h).toIsSortingResult
      simp only [SortOutcome, hpsort]
      exact ⟨hcorrect.exists_outcome, hcorrect.outcome⟩

/-! ## The merge of two parts -/

theorem copyRest_eq (rest : List CString) (j : ℕ) (strings : List CString) :
    copyRest rest j strings = strings ++ rest.drop j := by
  fun_induction copyRest rest j strings with
  | case1 j strings h ih =>
      rw [ih, List.drop_eq_getElem_cons h, List.append_assoc, List.singleton_append]
  | case2 j strings h => rw [List.drop_eq_nil_of_le (by omega), List.append_nil]

/-- The merge loop of this program does what that of the sort library does. -/
theorem mergeStrings_eq (left right : List CString) (i j : ℕ) (strings : List CString) :
    mergeStrings left right i j strings = mergeLoop compareStrFull left right i j strings := by
  fun_induction mergeStrings left right i j strings with
  | case1 i j strings hlt hi ih =>
      rw [mergeLoop, if_pos hlt, dif_pos hi, ih, copyRest_eq]
  | case2 i j strings hlt hi hj ih =>
      rw [mergeLoop, if_pos hlt, dif_neg hi, dif_pos hj, ih, copyRest_eq]
  | case3 i j strings hlt hi hj hle ih =>
      rw [mergeLoop, if_pos hlt, dif_neg hi, dif_neg hj,
        if_pos (show compareStrFull left[i] right[j] ≤ 0 from hle), ih]
  | case4 i j strings hlt hi hj hle ih =>
      rw [mergeLoop, if_pos hlt, dif_neg hi, dif_neg hj,
        if_neg (show ¬ compareStrFull left[i] right[j] ≤ 0 from hle), ih]
  | case5 i j strings hend => rw [mergeLoop, if_neg hend]

theorem mergeStrings_start (left right : List CString) :
    mergeStrings left right 0 0 [] = left.merge right strOrder.leb := by
  rw [mergeStrings_eq]
  exact mergeLoop_start strOrder left right

/-! ## The partition -/

/-- The parts have equal length but for the last one, which has all the remainder. -/
def cut (n len i : ℕ) : ℕ :=
  if i < n then i * (len / n) else len

theorem cut_of_lt {n len i : ℕ} (hi : i < n) : cut n len i ≤ len := by
  rw [cut, if_pos hi]
  exact (Nat.mul_le_mul_right _ hi.le).trans (Nat.mul_div_le len n)

theorem boundaries_cut {n : ℕ} (len : ℕ) (hn : 0 < n) : Boundaries n len (cut n len) where
  zero := by simp [cut, hn]
  last := by simp [cut]
  le_succ i hi := by
    by_cases hlast : i + 1 < n
    · rw [cut, cut, if_pos hi, if_pos hlast]
      exact Nat.mul_le_mul_right _ (Nat.le_succ i)
    · rw [show cut n len (i + 1) = len from if_neg hlast]
      exact cut_of_lt hi

theorem partitionLoop_eq (n len i : ℕ) (hi : i ≤ n) (segments : List StringArray) :
    partitionLoop n (len / n) i (len - i * (len / n)) (i * (len / n)) segments =
      segments ++ (List.range' i (n - i)).map fun k =>
        ⟨some (0, cut n len k), cut n len (k + 1) - cut n len k⟩ := by
  rw [partitionLoop]
  by_cases hlt : i < n
  · have hlen : (if i = n - 1 then len - i * (len / n) else len / n) =
        cut n len (i + 1) - cut n len i := by
      by_cases hlast : i = n - 1
      · rw [if_pos hlast, cut, cut, if_neg (by omega), if_pos hlt]
      · rw [if_neg hlast, cut, cut, if_pos (by omega), if_pos hlt, Nat.succ_mul]
        exact (Nat.add_sub_cancel_left ..).symm
    rw [if_pos hlt]
    simp only [hlen]
    rw [show len - i * (len / n) - len / n = len - (i + 1) * (len / n) by
        rw [Nat.succ_mul, Nat.sub_sub],
      ← Nat.succ_mul, partitionLoop_eq n len (i + 1) hlt, show n - i = n - (i + 1) + 1 by omega,
      List.range'_succ]
    simp [show cut n len i = i * (len / n) from if_pos hlt]
  · obtain rfl : i = n := by omega
    rw [if_neg hlt]
    simp
termination_by n - i

/-! ## The invariant of the threads -/

variable {content : List CString} {bound : ℕ → ℕ} {done : Finset (Fin cfg.threadCount)}
  {cells : List (Option (List CString))} {s : Shared}

/-- The part `xs` can be read through segment `i`. -/
def Holds (s : Shared) (i : ℕ) (xs : List CString) : Prop :=
  ∃ arr, s.segments[i]? = some arr ∧ arr.len = xs.length ∧ readStrings s arr = .ok xs

/-- The cells have the lengths of the parts. -/
def Parts (cfg : Config) (bound : ℕ → ℕ) (cells : List (Option (List CString))) : Prop :=
  ∀ i : Fin cfg.threadCount, ∃ xs, cells[(i : ℕ)]? = some (some xs) ∧
    xs.length = bound (i + 1) - bound i

/-- What the memory holds in a phase in which the threads in `done` have acted. -/
def CellsAt (cfg : Config) (content : List CString) (bound : ℕ → ℕ) (phase : Psort.Phase)
    (done : Finset (Fin cfg.threadCount)) (s : Shared) (cells : List (Option (List CString))) :
    Prop :=
  s.segments.length = cfg.threadCount ∧
  match phase with
  | .sort => s.blocks = [contents cells] ∧ cells.length = cfg.threadCount ∧
      (∀ i : Fin cfg.threadCount,
        s.segments[(i : ℕ)]? = some ⟨some (0, bound i), bound (i + 1) - bound i⟩) ∧
      Parts cfg bound cells ∧
      ∀ (i : Fin cfg.threadCount) xs, cells[(i : ℕ)]? = some (some xs) →
        if i ∈ done then SortedPart (IsSortingResult strOrder) content bound i (i + 1) xs
        else xs = slice content (bound i) (bound (i + 1))
  | .merge step => 0 < step ∧ step < cfg.threadCount ∧
      (∀ i xs, cells[i]? = some (some xs) → Holds s i xs) ∧
      TreeMerge.Cells (SortedPart (IsSortingResult strOrder) content bound) step done cells

/-- There has been no fault, and the memory holds the cells. -/
def ThreadInv (cfg : Config) (content : List CString) (bound : ℕ → ℕ) (phase : Psort.Phase)
    (done : Finset (Fin cfg.threadCount)) (shared : Run Shared) : Prop :=
  ∃ s cells, shared = .ok s ∧ CellsAt cfg content bound phase done s cells

/-- The cells before a boundary fill the array up to it. -/
theorem Parts.contents_take (h : Parts cfg bound cells) {len k : ℕ}
    (hb : Boundaries cfg.threadCount len bound) (hk : k ≤ cfg.threadCount) :
    (contents (cells.take k)).length = bound k := by
  induction k with
  | zero => simp [contents, hb.zero]
  | succ k ih =>
      obtain ⟨xs, hx, hlength⟩ := h ⟨k, hk⟩
      have := hb.le_succ k hk
      rw [List.take_add_one, hx, Option.toList_some, contents_append, List.length_append,
        ih (by omega), contents_cons_some]
      simp only [List.length_append, hlength]
      simp [contents]
      omega

/-- Around the cell of a thread, which starts in the file where its segment does. -/
theorem Parts.split (h : Parts cfg bound cells) {len : ℕ}
    (hb : Boundaries cfg.threadCount len bound) (i : Fin cfg.threadCount) :
    ∃ (front : List (Option (List CString))) (xs : List CString)
      (back : List (Option (List CString))), cells = front ++ some xs :: back ∧
        front.length = (i : ℕ) ∧ bound i = (contents front).length ∧
        xs.length = bound (i + 1) - bound i := by
  obtain ⟨xs, hx, hxs⟩ := h i
  obtain ⟨front, back, hsplit, hfront⟩ := exists_split hx
  refine ⟨front, xs, back, hsplit, hfront, ?_, hxs⟩
  have htake : cells.take i = front := by
    rw [hsplit, ← hfront, List.take_left']
    rfl
  rw [← htake, h.contents_take hb i.isLt.le]

/-- A part of the file, read through its segment. -/
theorem readStrings_part {front back : List (Option (List CString))} {xs : List CString}
    {off n : ℕ} (hblocks : s.blocks = [contents (front ++ some xs :: back)])
    (hoff : off = (contents front).length) (hn : n = xs.length) :
    readStrings s ⟨some (0, off), n⟩ = .ok xs := by
  have hload : load s.blocks 0 = .ok (contents front ++ xs ++ contents back) := by
    simp [hblocks, load]
  simp only [readStrings, locate, Run.ok_bind, hload]
  exact loadRange_append hoff hn

theorem writeStrings_part {front back : List (Option (List CString))} {xs ys : List CString}
    {off n : ℕ} (hblocks : s.blocks = [contents (front ++ some xs :: back)])
    (hoff : off = (contents front).length) (hlength : ys.length = xs.length) :
    writeStrings s ⟨some (0, off), n⟩ ys =
      .ok { s with blocks := [contents (front ++ some ys :: back)] } := by
  have hload : load s.blocks 0 = .ok (contents front ++ xs ++ contents back) := by
    simp [hblocks, load]
  simp only [writeStrings, locate, Run.ok_bind, hload, storeRange_append hoff hlength]
  simp [hblocks]

/-- In the phase of the sort every part can be read through its segment. -/
theorem holds_part (h : Parts cfg bound cells) {len : ℕ}
    (hb : Boundaries cfg.threadCount len bound) (hblocks : s.blocks = [contents cells])
    {i : Fin cfg.threadCount} {xs : List CString} (hx : cells[(i : ℕ)]? = some (some xs))
    (hsegment : s.segments[(i : ℕ)]? = some ⟨some (0, bound i), bound (i + 1) - bound i⟩) :
    Holds s i xs := by
  obtain ⟨front, ys, back, rfl, hfront, hoff, hlength⟩ := h.split hb i
  obtain rfl : ys = xs := by simpa [← hfront] using hx
  exact ⟨_, hsegment, hlength.symm, readStrings_part hblocks hoff hlength.symm⟩

/-- The sort of a part comes to an end and replaces its cell. -/
theorem sortSegment_inv (hcfg : cfg.Sound) (hb : Boundaries cfg.threadCount content.length bound)
    (hlength : content.length < 2 ^ 63) {i : Fin cfg.threadCount}
    (h : CellsAt cfg content bound .sort done s cells) (hi : i ∉ done) :
    (∃ s', SortSegment cfg i s s') ∧ ∀ s', SortSegment cfg i s s' →
      ∃ s'' cells', s' = .ok s'' ∧ CellsAt cfg content bound .sort (insert i done) s'' cells' := by
  obtain ⟨hcount, hblocks, hcells, hsegments, hparts, hsorted⟩ := h
  obtain ⟨front, xs, back, hsplit, hfront, hoff, hxs⟩ := hparts.split hb i
  have hx : cells[(i : ℕ)]? = some (some xs) := by simp [hsplit, ← hfront]
  have hslice := hsorted i xs hx
  rw [if_neg hi] at hslice
  rw [hsplit] at hblocks
  have hload : load s.segments i = .ok ⟨some (0, bound i), bound (i + 1) - bound i⟩ :=
    load_eq_ok (hsegments i)
  have hread : readStrings s ⟨some (0, bound i), bound (i + 1) - bound i⟩ = .ok xs :=
    readStrings_part hblocks hoff hxs.symm
  have hshort : xs.length < 2 ^ 63 := by
    have := hb.le_len (show (i : ℕ) + 1 ≤ cfg.threadCount from i.isLt)
    omega
  obtain ⟨⟨sorted, houtcome⟩, hall⟩ := sortOutcome_spec hcfg hshort
  constructor
  · refine ⟨_, sorted, ?_, rfl⟩
    intro arr strings harr hstrings
    obtain rfl := Except.ok.inj (hload.symm.trans harr)
    obtain rfl := Except.ok.inj (hread.symm.trans hstrings)
    exact houtcome
  · rintro s' ⟨sorted', houtcome', rfl⟩
    obtain ⟨ys, rfl, hresult⟩ := hall sorted' (houtcome' _ _ hload hread)
    have hys : ys.length = xs.length := hresult.length_eq
    simp only [hload, hread, Run.ok_bind, writeStrings_part hblocks hoff hys]
    have hset : front ++ some ys :: back = cells.set i (some ys) := by
      rw [hsplit, ← hfront, List.set_append_right _ _ le_rfl, Nat.sub_self, List.set_cons_zero]
    have hself : (cells.set i (some ys))[(i : ℕ)]? = some (some ys) :=
      List.getElem?_set_self (by have := i.isLt; omega)
    have hother : ∀ j : Fin cfg.threadCount, j ≠ i →
        (cells.set i (some ys))[(j : ℕ)]? = cells[(j : ℕ)]? :=
      fun j hj => List.getElem?_set_ne fun heq => hj (Fin.ext heq.symm)
    refine ⟨_, cells.set i (some ys), rfl, hcount, by rw [hset], by simpa using hcells,
      hsegments, fun j => ?_, fun j zs hz => ?_⟩
    · by_cases hj : j = i
      · subst hj
        exact ⟨ys, hself, hys.trans hxs⟩
      · rw [hother j hj]
        exact hparts j
    · by_cases hj : j = i
      · subst hj
        obtain rfl : ys = zs := by simpa [hself] using hz
        rw [if_pos (Finset.mem_insert_self _ _)]
        rwa [hslice] at hresult
      · rw [hother j hj] at hz
        simpa [hj] using hsorted j zs hz

/-- A new block does not change what the old ones hold. -/
theorem readStrings_append {arr : StringArray} {xs : List CString} (more : List (List CString))
    (segments : List StringArray) (h : readStrings s arr = .ok xs) :
    readStrings ⟨s.blocks ++ more, segments⟩ arr = .ok xs := by
  obtain ⟨⟨block, off⟩, hlocate, h⟩ := Run.bind_eq_ok h
  obtain ⟨strings, hload, h⟩ := Run.bind_eq_ok h
  rw [load_eq_ok_iff] at hload
  have hload' : (s.blocks ++ more)[block]? = some strings := by
    rw [List.getElem?_append_left (List.getElem?_eq_some_iff.mp hload).1, hload]
  simp only [readStrings, hlocate, Run.ok_bind, load_eq_ok hload', h]

theorem mergeSegments_spec {idx otherIdx : ℕ} {xs ys : List CString} (hx : Holds s idx xs)
    (hy : Holds s otherIdx ys) (hne : otherIdx ≠ idx) :
    ∃ s', mergeSegments idx otherIdx s = .ok s' ∧ s'.segments.length = s.segments.length ∧
      Holds s' idx (xs.merge ys strOrder.leb) ∧
      ∀ k zs, k ≠ idx → k ≠ otherIdx → Holds s k zs → Holds s' k zs := by
  obtain ⟨arr, hsegment, hlen, hread⟩ := hx
  obtain ⟨other, hsegment', hlen', hread'⟩ := hy
  refine ⟨⟨s.blocks ++ [xs.merge ys strOrder.leb], (s.segments.set idx
    ⟨some (s.blocks.length, 0), arr.len + other.len⟩).set otherIdx ⟨none, 0⟩⟩, ?_, ?_, ?_, ?_⟩
  · simp only [mergeSegments, load_eq_ok hsegment, load_eq_ok hsegment', hread, hread', Run.ok_bind,
      mergeStrings_start]
  · simp
  · refine ⟨⟨some (s.blocks.length, 0), arr.len + other.len⟩, ?_, by simp [hlen, hlen'], ?_⟩
    · rw [List.getElem?_set_ne hne,
        List.getElem?_set_self (List.getElem?_eq_some_iff.mp hsegment).1]
    · simp [readStrings, locate, loadRange, hlen, hlen', load]
  · rintro k zs hk hk' ⟨arr', hget, hlength, hstrings⟩
    refine ⟨arr', ?_, hlength, readStrings_append _ _ hstrings⟩
    rw [List.getElem?_set_ne hk'.symm, List.getElem?_set_ne hk.symm, hget]

theorem mergeStep_inv (hb : Boundaries cfg.threadCount content.length bound) {step : ℕ}
    {i : Fin cfg.threadCount} (h : CellsAt cfg content bound (.merge step) done s cells)
    (hi : i ∉ done) :
    ∃ s' cells', mergeStep cfg step i s = .ok s' ∧
      CellsAt cfg content bound (.merge step) (insert i done) s' cells' := by
  obtain ⟨hcount, hpos, hlt, hholds, hcells⟩ := h
  by_cases hactive : TreeMerge.Active cfg.threadCount step i
  · obtain ⟨xs, ys, hx, hy, hxs, hys⟩ := hcells.pair hactive hi
    obtain ⟨s', hmerge, hcount', hmerged, hother⟩ :=
      mergeSegments_spec (hholds _ _ hx) (hholds _ _ hy) (by omega)
    have hmid : (i : ℕ) + step ≤ min (i + 2 * step) cfg.threadCount :=
      le_min (by omega) hactive.2.le
    have hz := mergeClosed_isSortingResult.combine hb (Nat.le_add_right _ _) hmid
      (min_le_right _ _) hxs hys
    refine ⟨s', _, ?_, hcount'.trans hcount, hpos, hlt, ?_, hcells.act hactive hpos hz⟩
    · rw [mergeStep, if_pos hactive.1, if_pos hactive.2, hmerge]
    · intro k zs hk
      have hlength := hcells.length_eq
      have hin : (i : ℕ) + step < cells.length := by
        rw [hlength]
        exact hactive.2
      by_cases hks : k = i + step
      · subst hks
        rw [List.getElem?_set_self (by rw [List.length_set]; omega)] at hk
        simp at hk
      · rw [List.getElem?_set_ne (Ne.symm hks)] at hk
        by_cases hki : k = i
        · subst hki
          rw [List.getElem?_set_self (show (i : ℕ) < cells.length by omega)] at hk
          obtain rfl : xs.merge ys strOrder.leb = zs := by simpa using hk
          exact hmerged
        · rw [List.getElem?_set_ne (Ne.symm hki)] at hk
          exact hother k zs hki hks (hholds k zs hk)
  · refine ⟨s, cells, ?_, hcount, hpos, hlt, hholds, hcells.skip hactive⟩
    rw [mergeStep]
    by_cases hmod : (i : ℕ) % (2 * step) = 0
    · rw [if_pos hmod, if_neg fun hother => hactive ⟨hmod, hother⟩]
    · rw [if_neg hmod]

/-- Every order of the actions keeps the invariant. -/
theorem threadInv_preserves (hcfg : cfg.Sound)
    (hb : Boundaries cfg.threadCount content.length bound) (hlength : content.length < 2 ^ 63) :
    (threadRun cfg).Preserves (ThreadInv cfg content bound) where
  act := by
    rintro phase done shared i shared' ⟨s, cells, rfl, hcells⟩ hi hact
    cases phase with
    | sort =>
        obtain ⟨s', cells', rfl, hcells'⟩ :=
          (sortSegment_inv hcfg hb hlength hcells hi).2 shared' hact
        exact ⟨s', cells', rfl, hcells'⟩
    | merge step =>
        obtain ⟨s', cells', hrun, hcells'⟩ := mergeStep_inv hb hcells hi
        have heq : shared' = mergeStep cfg step i s := hact
        exact ⟨s', cells', heq.trans hrun, hcells'⟩
  progress := by
    rintro phase done shared i ⟨s, cells, rfl, hcells⟩ hi
    cases phase with
    | sort => exact (sortSegment_inv hcfg hb hlength hcells hi).1
    | merge step => exact ⟨_, rfl⟩
  pass := by
    rintro phase phase' shared hnext ⟨s, cells, rfl, hcells⟩
    refine ⟨s, cells, rfl, hcells.1, ?_⟩
    cases phase with
    | sort =>
        obtain ⟨hcount, hblocks, hlength', hsegments, hparts, hsorted⟩ := hcells
        simp only [threadRun, Option.ite_none_right_eq_some, Option.some.injEq] at hnext
        obtain ⟨hlt, rfl⟩ := hnext
        refine ⟨one_pos, hlt, ?_, TreeMerge.Cells.start hlength' fun i => ?_⟩
        · intro k xs hk
          have hkn : k < cfg.threadCount := by
            rw [← hlength']
            exact (List.getElem?_eq_some_iff.mp hk).1
          exact holds_part hparts hb hblocks (i := ⟨k, hkn⟩) hk (hsegments ⟨k, hkn⟩)
        · obtain ⟨xs, hx, -⟩ := hparts i
          exact ⟨xs, hx, by simpa using hsorted i xs hx⟩
    | merge step =>
        obtain ⟨-, hpos, hlt, hholds, htree⟩ := hcells
        simp only [threadRun, Option.ite_none_right_eq_some, Option.some.injEq] at hnext
        obtain ⟨hlt', rfl⟩ := hnext
        exact ⟨by omega, hlt', hholds, htree.next hpos⟩

/-! ## The printed text -/

/-- After the last phase the first segment holds all strings in order. -/
theorem cells_finish (hb : Boundaries cfg.threadCount content.length bound) {phase : Psort.Phase}
    (hlast : (threadRun cfg).next phase = none)
    (h : CellsAt cfg content bound phase Finset.univ s cells) :
    ∃ lines, Holds s 0 lines ∧ IsSortingResult strOrder content lines := by
  have hpos := cfg.threadCount_pos
  have hall : ∀ lines, SortedPart (IsSortingResult strOrder) content bound 0 cfg.threadCount lines →
      IsSortingResult strOrder content lines := by
    intro lines hlines
    rwa [SortedPart, hb.zero, hb.last, slice_all] at hlines
  cases phase with
  | sort =>
      obtain ⟨hcount, hblocks, hlength, hsegments, hparts, hsorted⟩ := h
      simp only [threadRun, ite_eq_right_iff, reduceCtorEq, imp_false, not_lt] at hlast
      have hone : cfg.threadCount = 1 := by omega
      obtain ⟨xs, hx, -⟩ := hparts ⟨0, hpos⟩
      refine ⟨xs, holds_part hparts hb hblocks hx (hsegments ⟨0, hpos⟩), hall xs ?_⟩
      simpa [hone] using hsorted ⟨0, hpos⟩ xs hx
  | merge step =>
      obtain ⟨hcount, hstep, hlt, hholds, htree⟩ := h
      simp only [threadRun, ite_eq_right_iff, reduceCtorEq, imp_false, not_lt] at hlast
      obtain ⟨lines, hcells, hlines⟩ := htree.finish hstep hlast hpos
      exact ⟨lines, hholds 0 lines (by rw [hcells]; rfl), hall lines hlines⟩

/-- Every run of the threads ends with the sorted strings in the first segment. -/
theorem threads_lead (hcfg : cfg.Sound) (content : Content) :
    Leads (threadRun cfg).Step (fun t => (∀ idx, t.pcs idx = .returned) ∧
      ∃ s lines, t.shared = .ok s ∧ Holds s 0 lines ∧
        IsSortingResult strOrder content.strings lines) (startThreads cfg content) := by
  have hpos := cfg.threadCount_pos
  have hb := boundaries_cut content.strings.length hpos
  have hshort := content.len_lt
  have hsegments := partitionLoop_eq cfg.threadCount content.strings.length 0
    (Nat.zero_le _) []
  simp only [Nat.zero_mul, Nat.sub_zero, List.nil_append, ← List.range_eq_range'] at hsegments
  have hinv := threadInv_preserves hcfg hb (by omega)
  have hfirst : ThreadInv cfg content.strings (cut cfg.threadCount content.strings.length)
      (threadRun cfg).first ∅ (.ok ⟨[content.strings], partitionLoop cfg.threadCount
        (content.strings.length / cfg.threadCount) 0 content.strings.length 0 []⟩) := by
    refine ⟨_, unsorted cfg.threadCount content.strings
      (cut cfg.threadCount content.strings.length), rfl, ?_, ?_, ?_, ?_, ?_, ?_⟩
    · simp [hsegments]
    · rw [contents_unsorted hb le_rfl, hb.last, slice_all]
    · simp [unsorted]
    · intro i
      simp [hsegments]
    · intro i
      exact ⟨_, getElem?_unsorted i.isLt,
        length_slice (hb.le_len (show (i : ℕ) + 1 ≤ cfg.threadCount from i.isLt))⟩
    · intro i xs hx
      simpa [getElem?_unsorted i.isLt] using hx.symm
  refine (hinv.leads (fun | .sort => cfg.threadCount | .merge step => cfg.threadCount - step) ?_ hpos
    hfirst).mono ?_
  · rintro phase phase' done shared ⟨s, cells, -, hcells⟩ hnext
    cases phase with
    | sort =>
        simp only [threadRun, Option.ite_none_right_eq_some, Option.some.injEq] at hnext
        obtain ⟨hlt, rfl⟩ := hnext
        simp only
        omega
    | merge step =>
        obtain ⟨-, hstep, hlt, -⟩ := hcells
        simp only [threadRun, Option.ite_none_right_eq_some, Option.some.injEq] at hnext
        obtain ⟨hlt', rfl⟩ := hnext
        simp only
        omega
  · rintro t ⟨hret, phase, hlast, s, cells, hshared, hcells⟩
    obtain ⟨lines, hholds, hlines⟩ := cells_finish hb hlast hcells
    exact ⟨hret, s, lines, hshared, hholds, hlines⟩

/-- All runs of the program come to the point where all threads have returned, and
print the text. -/
structure Prints (cfg : Config) (content : Content) (text : List UInt8) : Prop where
  outcome : ∀ result, Outcome cfg content result → result = .ok text
  returns : Leads (threadRun cfg).Step (fun t => ∀ idx, t.pcs idx = .returned)
    (startThreads cfg content)

/-- The program prints the strings of its file, each as often as it occurs there, in the
order of `strcmp`; the text is the same for every option, every number of threads and
every inner parallel sort. -/
theorem prints_sorted_strings (content : Content) :
    ∃ lines, lines ~ content.strings ∧ lines.Pairwise (fun x y => strcmp x.bytes y.bytes ≤ 0) ∧
      ∀ cfg : Config, cfg.Sound → Prints cfg content (printLines lines) := by
  have hshort := content.len_lt
  obtain ⟨lines, -, hlines⟩ := Msort.msortR_stable strOrder content.strings (by omega)
  refine ⟨lines, hlines.perm, hlines.sorted, fun cfg hcfg => ?_⟩
  have hleads := threads_lead hcfg content
  refine ⟨?_, hleads.mono fun t ht => ht.1⟩
  intro result ⟨hrun, hjoin⟩
  obtain ⟨-, s, lines', hshared, ⟨arr, hsegment, -, hread⟩, hlines'⟩ := hleads.of_stuck
    (fun u v hu huv => absurd huv (Barrier.Program.stuck_of_returned cfg.threadCount_pos hu.1 v))
    hrun (Barrier.Program.stuck_of_returned cfg.threadCount_pos hjoin)
  rw [sortedStrings_unique hlines.toIsSortingResult hlines']
  simp [hshared, printSegment, load_eq_ok hsegment, hread]

end SysProg.MultithreadedSort
