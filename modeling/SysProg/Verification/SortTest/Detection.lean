import SysProg.Model.SortTest
import SysProg.Verification.Fsort.Correctness
import SysProg.Verification.Heap.Correctness
import SysProg.Verification.Msort.Correctness

/-! # What the test of the sort functions finds out

Integers can be sorted in one way only, so all sort functions of the library return the same array.
The test passes exactly if `qsort_r` returns it, too. -/

namespace SysProg.SortTest

/-- The order of the integers, as `compare_int_full` gives it. -/
def intFull : CompareFun ℤ where
  compare := compareIntFull
  neg_iff x y := by
    unfold compareIntFull
    grind
  trans x y z hxy hyz := by
    unfold compareIntFull at *
    grind

theorem intFull_le {x y : ℤ} : intFull.le x y ↔ x ≤ y := by
  change compareIntFull x y ≤ 0 ↔ x ≤ y
  unfold compareIntFull
  grind

theorem metricIntFull_agrees (base : List ℤ) : Fsort.MetricAgrees intFull metricIntFull base where
  mono x _ y _ h := Int.cast_le.mpr (intFull_le.mp h)
  strict x _ y _ h := by
    have hnot := mt intFull_le.mpr (intFull.not_le_of_lt h)
    exact Int.cast_lt.mpr (Int.not_le.mp hnot)

theorem sorted_unique {input output output' : List ℤ} (h : IsSortingResult intFull input output)
    (h' : IsSortingResult intFull input output') : output = output' := by
  refine (h.perm.trans h'.perm.symm).eq_of_pairwise ?_ h.sorted h'.sorted
  intro x y _ _ hxy hyx
  exact le_antisymm (intFull_le.mp hxy) (intFull_le.mp hyx)

theorem glibc_sorts (base : List ℤ) : IsSortingResult intFull base (glibc.qsortR base) :=
  isSortingResult_mergeSort intFull base

variable {q : QsortR}

/-- All sort functions of the library agree. -/
theorem sortAnyR_eq (q : QsortR) {st : Psort.SortType} (hst : st ≠ .quickSort) {base : List ℤ}
    (hlength : base.length < 2 ^ 63) : sortAnyR q st base = .ok (glibc.qsortR base) := by
  have hunique : ∀ {output : List ℤ} {run : Run (List ℤ)}, run = .ok output →
      IsSortingResult intFull base output → run = .ok (glibc.qsortR base) := by
    rintro output run rfl hsorts
    rw [sorted_unique hsorts (glibc_sorts base)]
  cases st with
  | heapSort =>
      obtain ⟨output, hrun, hsorts⟩ := HeapSort.hsortR_sorts intFull base
      exact hunique hrun hsorts
  | ternaryHeapSort =>
      obtain ⟨output, hrun, hsorts⟩ := HeapSort.ternaryHsortR_sorts intFull base
      exact hunique hrun hsorts
  | quickSort => exact absurd rfl hst
  | flashSort =>
      obtain ⟨output, hrun, hsorts⟩ := Fsort.fsortR_sorts (metricIntFull_agrees base)
      exact hunique hrun hsorts
  | insertionSort =>
      obtain ⟨output, hrun, hstable⟩ := Isort.isortR_stable intFull base
      exact hunique hrun hstable.toIsSortingResult
  | mergeSort =>
      obtain ⟨output, hrun, hstable⟩ := Msort.msortR_stable intFull base hlength
      exact hunique hrun hstable.toIsSortingResult

/-! ## The assertions -/

/-- The test has come to its end, and no assertion has failed. -/
def Passes (run : Run (List Bool)) : Prop :=
  ∃ results, run = .ok results ∧ ∀ result ∈ results, result = true

theorem zipWith_beq_iff {xs ys : List ℤ} (h : xs.length = ys.length) :
    (∀ result ∈ List.zipWith (· == ·) xs ys, result = true) ↔ xs = ys := by
  induction xs generalizing ys with
  | nil => simp [List.eq_nil_of_length_eq_zero h.symm]
  | cons x xs ih =>
      cases ys with
      | nil => cases h
      | cons y ys =>
          rw [List.zipWith_cons_cons, List.forall_mem_cons, ih (Nat.succ.inj h), beq_iff_eq,
            List.cons.injEq]

theorem zipWith_tail {r : ℤ → ℤ → Bool} {xs : List ℤ} (h : xs.Pairwise fun a b => r a b = true) :
    ∀ result ∈ List.zipWith r xs xs.tail, result = true := by
  induction h with
  | nil => exact nofun
  | @cons x xs hx hxs ih =>
      cases xs with
      | nil => exact nofun
      | cons y ys =>
          rw [List.tail_cons, List.zipWith_cons_cons, List.forall_mem_cons]
          exact ⟨hx y List.mem_cons_self, ih⟩

/-- The comparison with what `qsort_r` returns passes if that is the sorted array. -/
theorem compareSorts_spec {base : List ℤ} (hlength : base.length < 2 ^ 63)
    (sts : List Psort.SortType) :
    ∃ results, compareSorts q (q.qsortR base) base sts = .ok results ∧
      ((∀ result ∈ results, result = true) ↔
        (∃ st ∈ sts, st ≠ .quickSort) → q.qsortR base = glibc.qsortR base) := by
  induction sts with
  | nil => exact ⟨[], rfl, by simp⟩
  | cons st sts ih =>
      obtain ⟨results, hrun, hiff⟩ := ih
      by_cases hst : st = .quickSort
      · subst hst
        refine ⟨_, by rw [compareSorts, hrun]; rfl, ?_⟩
        rw [List.forall_mem_append, zipWith_beq_iff rfl, hiff]
        simp
      · refine ⟨_, by rw [compareSorts, sortAnyR_eq q hst hlength, hrun]; rfl, ?_⟩
        rw [List.forall_mem_append, zipWith_beq_iff (by rw [q.length_eq, glibc.length_eq]), hiff]
        simp only [List.mem_cons, exists_eq_or_imp]
        grind

theorem compareSorts_all (base : List ℤ) (hlength : base.length < 2 ^ 63) :
    ∃ results, compareSorts q (q.qsortR base) base SORT_TYPES = .ok results ∧
      ((∀ result ∈ results, result = true) ↔ q.qsortR base = glibc.qsortR base) := by
  obtain ⟨results, hrun, hiff⟩ := compareSorts_spec (q := q) hlength SORT_TYPES
  refine ⟨results, hrun, hiff.trans ⟨fun h => h ?_, fun h _ => h⟩⟩
  exact ⟨.heapSort, by decide, nofun⟩

theorem checkPrefixes_spec {masterArr : List ℤ} (hlength : masterArr.length < 2 ^ 63)
    (is : List ℕ) :
    ∃ results, checkPrefixes q masterArr is = .ok results ∧
      ((∀ result ∈ results, result = true) ↔
        ∀ i ∈ is, q.qsortR (masterArr.take i) = glibc.qsortR (masterArr.take i)) := by
  induction is with
  | nil => exact ⟨[], rfl, by simp⟩
  | cons i is ih =>
      obtain ⟨more, hmore, hiff⟩ := ih
      have htake : (masterArr.take i).length < 2 ^ 63 := by
        rw [List.length_take]
        omega
      obtain ⟨results, hresults, hfirst⟩ := compareSorts_all (q := q) _ htake
      refine ⟨results ++ more, by rw [checkPrefixes, hresults, hmore]; rfl, ?_⟩
      rw [List.forall_mem_append, hfirst, hiff, List.forall_mem_cons]

theorem eq_glibc_iff {base : List ℤ} :
    q.qsortR base = glibc.qsortR base ↔ IsSortingResult intFull base (q.qsortR base) := by
  constructor
  · intro h
    rw [h]
    exact glibc_sorts base
  · intro h
    exact sorted_unique h (glibc_sorts base)

/-! ## The tests -/

theorem checkThree_passes_iff (q : QsortR) (i j k : ℤ) :
    Passes (checkThree q i j k) ↔ IsSortingResult intFull [i, j, k] (q.qsortR [i, j, k]) := by
  obtain ⟨results, hrun, hiff⟩ :=
    compareSorts_all (q := q) [i, j, k] (by simp)
  have hcheck : checkThree q i j k = .ok (List.zipWith (fun a b => decide (a ≤ b))
      (q.qsortR [i, j, k]) (q.qsortR [i, j, k]).tail ++ results) := by
    rw [checkThree, hrun]
    rfl
  rw [← eq_glibc_iff, ← hiff, Passes, hcheck]
  constructor
  · rintro ⟨_, heq, hall⟩
    obtain rfl := Except.ok.inj heq
    exact (List.forall_mem_append.mp hall).2
  · intro hall
    refine ⟨_, rfl, List.forall_mem_append.mpr ⟨zipWith_tail ?_, hall⟩⟩
    have hsorts := eq_glibc_iff.mp (hiff.mp hall)
    exact hsorts.sorted.imp fun h => decide_eq_true (intFull_le.mp h)

/-- The test of an array finds every error of `qsort_r` with one of its beginnings, and it reports
no other errors. -/
theorem checkN_passes_iff (q : QsortR) (masterArr : CArray ℤ) :
    Passes (checkN q masterArr.elems) ↔ ∀ i ≤ masterArr.elems.length,
      IsSortingResult intFull (masterArr.elems.take i) (q.qsortR (masterArr.elems.take i)) := by
  obtain ⟨arr, hlength⟩ := masterArr
  obtain ⟨results, hrun, hiff⟩ :=
    checkPrefixes_spec (q := q) hlength (List.range (arr.length + 1))
  have hcheck : checkN q arr = .ok (results ++
      List.zipWith (fun a b => decide (a ≤ b)) (q.qsortR arr) (q.qsortR arr).tail ++
      List.zipWith (fun a b => decide (metricIntFull a ≤ metricIntFull b)) (q.qsortR arr)
        (q.qsortR arr).tail) := by
    rw [checkN, hrun]
    rfl
  have hprefixes : (∀ result ∈ results, result = true) ↔ ∀ i ≤ arr.length,
      IsSortingResult intFull (arr.take i) (q.qsortR (arr.take i)) := by
    rw [hiff]
    simp only [List.mem_range, Nat.lt_succ_iff, eq_glibc_iff]
  rw [← hprefixes, Passes, hcheck]
  constructor
  · rintro ⟨_, heq, hall⟩
    obtain rfl := Except.ok.inj heq
    rw [List.append_assoc, List.forall_mem_append] at hall
    exact hall.1
  · intro hall
    have hsorts := hprefixes.mp hall arr.length le_rfl
    rw [List.take_length] at hsorts
    refine ⟨_, rfl, List.forall_mem_append.mpr ⟨List.forall_mem_append.mpr ⟨hall, ?_⟩, ?_⟩⟩
    · exact zipWith_tail (hsorts.sorted.imp fun h => decide_eq_true (intFull_le.mp h))
    · refine zipWith_tail (hsorts.sorted.imp fun h => decide_eq_true ?_)
      exact Int.cast_le.mpr (intFull_le.mp h)

/-- The mock passes on arrays only that it leaves as they are and that are sorted. -/
theorem mock_passes_iff (masterArr : CArray ℤ) :
    Passes (checkN mock masterArr.elems) ↔ masterArr.elems = [] ∨
      masterArr.elems.head? = some 0 ∧ masterArr.elems.Pairwise (· ≤ ·) := by
  have hset : ∀ x (xs : List ℤ), mock.qsortR (x :: xs) = 0 :: xs := fun _ _ => rfl
  rw [checkN_passes_iff]
  obtain ⟨arr, hlength⟩ := masterArr
  cases arr with
  | nil =>
      refine iff_of_true ?_ (.inl rfl)
      intro i _
      rw [List.take_nil]
      exact ⟨.nil, .nil⟩
  | cons x xs =>
      constructor
      · intro h
        right
        have hall := h (x :: xs).length le_rfl
        rw [List.take_length, hset] at hall
        have hx : x = 0 := by
          have hone := h 1 (by simp)
          have hperm := hone.perm
          rw [List.take_succ_cons, List.take_zero, hset] at hperm
          exact (List.singleton_perm_singleton.mp hperm).symm
        subst hx
        exact ⟨rfl, hall.sorted.imp intFull_le.mp⟩
      · intro h
        obtain ⟨hx, hsorted⟩ := h.resolve_left nofun
        obtain rfl : x = 0 := Option.some.inj hx
        intro i _
        cases i with
        | zero => exact ⟨.nil, .nil⟩
        | succ i =>
            rw [List.take_succ_cons, hset, ← List.take_succ_cons]
            exact ⟨(hsorted.sublist (List.take_sublist _ _)).imp intFull_le.mpr, .refl _⟩

end SysProg.SortTest
