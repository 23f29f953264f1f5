import SysProg.Library.TreeMerge
import SysProg.Verification.Fsort.Correctness
import SysProg.Verification.Msort.Correctness
import SysProg.Verification.Psort.Layout
import SysProg.Verification.Psort.Locality
import SysProg.Verification.Shared.MergeLoop

/-! # Correctness of the parallel sort

The cells that represent the shared memory are those of a tree of merges: before the
phase of `step` every index that is a multiple of `step` holds the sorted parts of the
indices up to the next such index. -/

namespace SysProg.Psort

open List

variable {α : Type} {c : CompareFun α} {p : Params α} {R : List α → List α → Prop}
  {base : List α} {bound : ℕ → ℕ}

/-! ## The partition -/

/-- Where the segments start when `rest_len` elements from `ptr` on are divided. -/
def cut (n len : ℕ) : ℕ → ℕ
  | 0 => 0
  | i + 1 => cut n len i + (len - cut n len i) / (n - i)

theorem cut_le (n len i : ℕ) : cut n len i ≤ len := by
  induction i with
  | zero => exact Nat.zero_le _
  | succ i ih =>
      have := Nat.div_le_self (len - cut n len i) (n - i)
      simp only [cut]
      omega

theorem cut_last (n len : ℕ) (hn : 0 < n) : cut n len n = len := by
  obtain ⟨n, rfl⟩ : ∃ m, n = m + 1 := ⟨n - 1, by omega⟩
  have := cut_le (n + 1) len n
  simp only [cut, show n + 1 - n = 1 by omega, Nat.div_one]
  omega

theorem boundaries_cut {n : ℕ} (len : ℕ) (hn : 0 < n) : Boundaries n len (cut n len) where
  zero := rfl
  last := cut_last n len hn
  le_succ _ _ := Nat.le_add_right _ _

/-- The loop of the partition meets its assertion. -/
theorem partitionLoop_eq (n len i : ℕ) (hi : i ≤ n) (segments : List SortableData) :
    partitionLoop n i (n - i) (len - cut n len i) (cut n len i) segments =
      .ok (segments ++ (List.range' i (n - i)).map fun k =>
        ⟨some (cut n len k), cut n len (k + 1) - cut n len k⟩) := by
  rw [partitionLoop]
  by_cases hlt : i < n
  · have hcut := cut_le n len i
    have hlen : (len - cut n len i) / (n - i) = cut n len (i + 1) - cut n len i :=
      (Nat.add_sub_cancel_left ..).symm
    have hassert : ¬ (i = n - 1 ∧ len - cut n len i ≠ (len - cut n len i) / (n - i)) := by
      rintro ⟨rfl, hne⟩
      rw [show n - (n - 1) = 1 by omega, Nat.div_one] at hne
      exact hne rfl
    have hrest : len - cut n len i - (len - cut n len i) / (n - i) = len - cut n len (i + 1) := by
      simp only [cut]
      omega
    have hptr : cut n len i + (len - cut n len i) / (n - i) = cut n len (i + 1) := rfl
    rw [if_pos hlt, if_neg (by omega)]
    simp only [if_neg hassert, hrest, hptr]
    rw [show n - i - 1 = n - (i + 1) by omega, partitionLoop_eq n len (i + 1) hlt, hlen,
      show n - i = n - (i + 1) + 1 by omega, List.range'_succ]
    simp
  · obtain rfl : i = n := by omega
    rw [if_neg hlt]
    simp
termination_by n - i

theorem layout_unsorted {n k : ℕ} (hb : Boundaries n base.length bound) (hk : k ≤ n) :
    layout 0 (unsorted k base bound) = (List.range k).map fun i =>
      ⟨some (bound i), bound (i + 1) - bound i⟩ := by
  induction k with
  | zero => rfl
  | succ k ih =>
      have hlength : (contents (unsorted k base bound)).length = bound k := by
        rw [contents_unsorted hb (by omega), length_slice (hb.le_len (by omega)), Nat.sub_zero]
      have hsplit : unsorted (k + 1) base bound = unsorted k base bound ++
          [some (slice base (bound k) (bound (k + 1)))] := by
        simp [unsorted, List.range_succ]
      rw [hsplit, layout_append, ih (by omega), hlength, List.range_succ, List.map_append]
      simp [layout, length_slice (hb.le_len hk)]

/-- The main thread hands its array to the threads as cells. -/
theorem startThreads_eq (hn : 0 < p.threadCount) (base : List α) :
    startThreads p base = .ok ((psortThreadRun p).start (.ok (ofCells
      (unsorted p.threadCount base (cut p.threadCount base.length))))) := by
  have hb := boundaries_cut base.length hn
  have hsegments := partitionLoop_eq p.threadCount base.length 0 (Nat.zero_le _) []
  rw [Nat.sub_zero, List.nil_append, ← List.range_eq_range'] at hsegments
  have hcells : ofCells (unsorted p.threadCount base (cut p.threadCount base.length)) =
      ⟨base, (List.range p.threadCount).map fun k => ⟨some (cut p.threadCount base.length k),
        cut p.threadCount base.length (k + 1) - cut p.threadCount base.length k⟩⟩ := by
    rw [ofCells, contents_unsorted hb le_rfl, layout_unsorted hb le_rfl, hb.last, slice_all]
  rw [startThreads, if_neg (by omega), hcells]
  have hzero : cut p.threadCount base.length 0 = 0 := rfl
  rw [hzero, Nat.sub_zero] at hsegments
  rw [hsegments]
  rfl

/-! ## The invariant of the threads -/

/-- What the cells hold in a phase in which the threads in `done` have acted. -/
def CellsAt (p : Params α) (R : List α → List α → Prop) (base : List α) (bound : ℕ → ℕ)
    (phase : Phase) (done : Finset (Fin p.threadCount)) (cells : List (Option (List α))) :
    Prop :=
  match phase with
  | .sort => cells.length = p.threadCount ∧ ∀ i : Fin p.threadCount, ∃ xs,
      cells[(i : ℕ)]? = some (some xs) ∧
        if i ∈ done then SortedPart R base bound i (i + 1) xs
        else xs = slice base (bound i) (bound (i + 1))
  | .merge step => 0 < step ∧ step < p.threadCount ∧
      TreeMerge.Cells (SortedPart R base bound) step done cells

/-- There has been no fault, and the shared memory is that of the cells. -/
def ThreadInv (p : Params α) (R : List α → List α → Prop) (base : List α) (bound : ℕ → ℕ)
    (phase : Phase) (done : Finset (Fin p.threadCount)) (shared : Run (Shared α)) : Prop :=
  ∃ cells, shared = .ok (ofCells cells) ∧ CellsAt p R base bound phase done cells

/-- The sequential sort works on every segment of the array. -/
def SortsSegments (p : Params α) (R : List α → List α → Prop) (base : List α) : Prop :=
  ∀ segment, segment <:+: base → ∃ output, sequentialSort p segment = .ok output ∧
    R segment output

variable {done : Finset (Fin p.threadCount)} {cells : List (Option (List α))}

theorem sortSegment_inv (hR : MergeClosed c R) (hsort : SortsSegments p R base)
    {i : Fin p.threadCount} (h : CellsAt p R base bound .sort done cells) (hi : i ∉ done) :
    ∃ cells', sortSegment p i (ofCells cells) = .ok (ofCells cells') ∧
      CellsAt p R base bound .sort (insert i done) cells' := by
  obtain ⟨hlength, hcells⟩ := h
  obtain ⟨xs, hx, hxs⟩ := hcells i
  rw [if_neg hi] at hxs
  obtain ⟨xs', hrun, hR'⟩ := hsort xs (hxs ▸ slice_infix ..)
  obtain ⟨front, back, hsplit, hfront⟩ := exists_split hx
  have hset : cells.set i (some xs') = front ++ some xs' :: back := by
    rw [hsplit, ← hfront, List.set_append_right _ _ le_rfl, Nat.sub_self, List.set_cons_zero]
  refine ⟨cells.set i (some xs'), ?_, by simpa using hlength, ?_⟩
  · rw [hset, hsplit]
    exact sortSegment_eq hfront hrun (hR.length_eq _ _ hR')
  · intro j
    by_cases hj : j = i
    · subst hj
      refine ⟨xs', List.getElem?_set_self (by omega), ?_⟩
      rw [if_pos (Finset.mem_insert_self _ _)]
      rwa [hxs] at hR'
    · have hne : (i : ℕ) ≠ j := fun heq => hj (Fin.ext heq.symm)
      rw [List.getElem?_set_ne hne]
      simpa [hj] using hcells j

/-- In the range of the counters the remainder of the source is that of the tree. -/
theorem double_step (hn : p.threadCount ≤ 2 ^ 30) {step : ℕ} (hstep : step < p.threadCount) :
    2 * step % 2 ^ 32 = 2 * step :=
  Nat.mod_eq_of_lt (by omega)

theorem mergeStep_inv (hc : p.compare = c.compare) (hR : MergeClosed c R)
    (hb : Boundaries p.threadCount base.length bound) (hn : p.threadCount ≤ 2 ^ 30) {step : ℕ}
    {i : Fin p.threadCount} (h : CellsAt p R base bound (.merge step) done cells) (hi : i ∉ done) :
    ∃ cells', mergeStep p step i (ofCells cells) = .ok (ofCells cells') ∧
      CellsAt p R base bound (.merge step) (insert i done) cells' := by
  obtain ⟨hpos, hlt, hcells⟩ := h
  rw [mergeStep, double_step hn hlt]
  by_cases hactive : TreeMerge.Active p.threadCount step i
  · obtain ⟨xs, ys, hx, hy, hxs, hys⟩ := hcells.pair hactive hi
    obtain ⟨front, back, hsplit, hfront⟩ := exists_split_pair hpos hx hy
      fun k => hcells.between hactive
    have hmerge : mergeLoop p.compare xs ys 0 0 [] = xs.merge ys c.leb := by
      rw [hc, mergeLoop_start]
    have hmid : (i : ℕ) + step ≤ min (i + 2 * step) p.threadCount :=
      le_min (by omega) hactive.2.le
    have hz := hR.combine hb (Nat.le_add_right _ _) hmid (min_le_right _ _) hxs hys
    refine ⟨_, ?_, hpos, hlt, hcells.act hactive hpos hz⟩
    rw [if_pos hactive.1, if_pos hactive.2, hsplit,
      mergeSegments_eq hfront (by omega) hmerge (by simp),
      set_pair hfront (by simp; omega)]
  · refine ⟨cells, ?_, hpos, hlt, hcells.skip hactive⟩
    by_cases hmod : (i : ℕ) % (2 * step) = 0
    · rw [if_pos hmod, if_neg fun hother => hactive ⟨hmod, hother⟩]
    · rw [if_neg hmod]

/-- Every order of the actions keeps the invariant. -/
theorem threadInv_preserves (hc : p.compare = c.compare) (hR : MergeClosed c R)
    (hb : Boundaries p.threadCount base.length bound) (hn : p.threadCount ≤ 2 ^ 30)
    (hsort : SortsSegments p R base) :
    (psortThreadRun p).Preserves (ThreadInv p R base bound) where
  act := by
    rintro phase done shared i shared' ⟨cells, rfl, hcells⟩ hi rfl
    cases phase with
    | sort => exact sortSegment_inv hR hsort hcells hi
    | merge step => exact mergeStep_inv hc hR hb hn hcells hi
  progress _ _ _ _ _ _ := ⟨_, rfl⟩
  pass := by
    rintro phase phase' shared hnext ⟨cells, rfl, hcells⟩
    refine ⟨cells, rfl, ?_⟩
    cases phase with
    | sort =>
        simp only [psortThreadRun, Option.ite_none_right_eq_some, Option.some.injEq] at hnext
        obtain ⟨hlt, rfl⟩ := hnext
        refine ⟨one_pos, hlt, TreeMerge.Cells.start hcells.1 fun i => ?_⟩
        simpa using hcells.2 i
    | merge step =>
        obtain ⟨hpos, hlt, htree⟩ := hcells
        simp only [psortThreadRun, Option.ite_none_right_eq_some, Option.some.injEq,
          double_step hn hlt] at hnext
        obtain ⟨hlt', rfl⟩ := hnext
        exact ⟨by omega, hlt', htree.next hpos⟩

/-! ## What the threads touch -/

/-- A thread that is about to act uses live segments only, and keeps to them. -/
theorem threadAction_keepsTo (hR : MergeClosed c R) (hn : p.threadCount ≤ 2 ^ 30)
    (hsort : SortsSegments p R base) {phase : Phase} {i : Fin p.threadCount}
    (h : CellsAt p R base bound phase done cells) (hi : i ∉ done) :
    KeepsTo (usedSegments p.threadCount phase i) (threadAction p phase i) (ofCells cells) ∧
      ∀ k ∈ usedSegments p.threadCount phase i, ∃ segment ptr,
        (ofCells cells).segments[k]? = some segment ∧ segment.base = some ptr := by
  cases phase with
  | sort =>
      obtain ⟨hlength, hcells⟩ := h
      obtain ⟨xs, hx, hxs⟩ := hcells i
      rw [if_neg hi] at hxs
      obtain ⟨ys, hrun, hR'⟩ := hsort xs (hxs ▸ slice_infix ..)
      obtain ⟨front, back, rfl, hfront⟩ := exists_split hx
      obtain ⟨hsegment, hload⟩ := segment_spec front back xs hfront
      refine ⟨sortSegment_keepsTo hsegment hload hrun (hR.length_eq _ _ hR')
        (loadRange_eq_ok_iff.mp hload).1, ?_⟩
      intro k hk
      obtain rfl := Finset.mem_singleton.mp hk
      exact ⟨_, _, hsegment, rfl⟩
  | merge step =>
      obtain ⟨hpos, hlt, htree⟩ := h
      simp only [usedSegments, double_step hn hlt]
      by_cases hactive : TreeMerge.Active p.threadCount step i
      · obtain ⟨xs, ys, hx, hy, hxs, hys⟩ := htree.pair hactive hi
        obtain ⟨front, back, rfl, hfront⟩ := exists_split_pair hpos hx hy
          fun k => htree.between hactive
        obtain ⟨hsegment, hleft⟩ := segment_spec front
          (List.replicate (step - 1) none ++ some ys :: back) xs hfront
        obtain ⟨hother, hright⟩ := pair_spec front back xs ys (k := step - 1) hfront
          (show (i : ℕ) + step = _ by omega)
        have haction : threadAction p (.merge step) i = mergeSegments p i (i + step) := by
          funext s
          rw [threadAction, mergeStep, double_step hn hlt, if_pos hactive.1, if_pos hactive.2]
        rw [haction, if_pos (show _ ∧ _ from hactive)]
        refine ⟨mergeSegments_keepsTo hsegment hother hleft hright, ?_⟩
        intro k hk
        rcases Finset.mem_insert.mp hk with rfl | hk
        · exact ⟨_, _, hsegment, rfl⟩
        · obtain rfl := Finset.mem_singleton.mp hk
          exact ⟨_, _, hother, rfl⟩
      · have haction : threadAction p (.merge step) i = fun s => .ok s := by
          funext s
          rw [threadAction, mergeStep, double_step hn hlt]
          by_cases hmod : (i : ℕ) % (2 * step) = 0
          · rw [if_pos hmod, if_neg fun hother => hactive ⟨hmod, hother⟩]
          · rw [if_neg hmod]
        rw [haction, if_neg (show ¬ (_ ∧ _) from hactive)]
        exact ⟨pure_keepsTo, by simp⟩

/-- What holds in every state that a run of the threads reaches: there has been no fault,
the live segments do not overlap, and a thread that is about to act uses live segments
only, keeps to them, and shares none of them with another thread of its phase. -/
structure Safe (p : Params α) (t : Barrier.State Phase (Run (Shared α)) p.threadCount)
    (s : Shared α) : Prop where
  shared : t.shared = .ok s
  separate : ∀ k k' q, k ≠ k' → InSegment s k q → ¬ InSegment s k' q
  same_phase : ∀ i j phase, t.pcs i = .acting phase →
    t.pcs j = .acting phase ∨ t.pcs j = (psortThreadRun p).arrive phase
  keeps : ∀ i phase, t.pcs i = .acting phase →
    KeepsTo (usedSegments p.threadCount phase i) (threadAction p phase i) s
  live : ∀ i phase, t.pcs i = .acting phase → ∀ k ∈ usedSegments p.threadCount phase i,
    ∃ segment ptr, s.segments[k]? = some segment ∧ segment.base = some ptr
  disjoint : ∀ (i j : Fin p.threadCount) phase, t.pcs i = .acting phase → i ≠ j →
    Disjoint (usedSegments p.threadCount phase i) (usedSegments p.threadCount phase j)

theorem safe_of_inPhase (hR : MergeClosed c R) (hn : p.threadCount ≤ 2 ^ 30)
    (hsort : SortsSegments p R base)
    {t : Barrier.State Phase (Run (Shared α)) p.threadCount}
    (h : (psortThreadRun p).InPhase (ThreadInv p R base bound) t) : ∃ s, Safe p t s := by
  obtain ⟨phase, done, hpcs, cells, hshared, hcells⟩ := h
  have hacting : ∀ i phase', t.pcs i = .acting phase' → i ∉ done ∧ phase' = phase := by
    intro i phase' hi
    rw [hpcs] at hi
    exact Barrier.Program.of_pcsAt_acting hi
  refine ⟨ofCells cells, hshared, ?_, ?_, ?_, ?_, ?_⟩
  · intro k k' q hne ⟨segment, ptr, hk, hptr, hlow, hhigh⟩
      ⟨segment', ptr', hk', hptr', hlow', hhigh'⟩
    rcases Nat.lt_or_gt_of_ne hne with hlt | hlt
    · have := layout_separate hlt hk hptr hk' hptr'
      omega
    · have := layout_separate hlt hk' hptr' hk hptr
      omega
  · intro i j phase' hi
    obtain ⟨-, rfl⟩ := hacting i phase' hi
    by_cases hj : j ∈ done <;> simp [hpcs, Barrier.Program.pcsAt, hj]
  · intro i phase' hi
    obtain ⟨hnot, rfl⟩ := hacting i phase' hi
    exact (threadAction_keepsTo hR hn hsort hcells hnot).1
  · intro i phase' hi
    obtain ⟨hnot, rfl⟩ := hacting i phase' hi
    exact (threadAction_keepsTo hR hn hsort hcells hnot).2
  · intro i j phase' hi hne
    obtain ⟨-, rfl⟩ := hacting i phase' hi
    refine usedSegments_disjoint hn ?_ fun heq => hne (Fin.ext heq)
    rintro step rfl
    exact ⟨hcells.1, hcells.2.1⟩

/-! ## The result -/

/-- After the last phase the first segment spans the array. -/
theorem cells_finish (hb : Boundaries p.threadCount base.length bound) (hpos : 0 < p.threadCount)
    (hn : p.threadCount ≤ 2 ^ 30) {phase : Phase} (hlast : (psortThreadRun p).next phase = none)
    (h : CellsAt p R base bound phase Finset.univ cells) :
    ∃ output, cells = some output :: List.replicate (p.threadCount - 1) none ∧ R base output := by
  have hall : ∀ ys, SortedPart R base bound 0 p.threadCount ys → R base ys := by
    intro ys hys
    rwa [SortedPart, hb.zero, hb.last, slice_all] at hys
  cases phase with
  | sort =>
      simp only [psortThreadRun, ite_eq_right_iff, reduceCtorEq, imp_false, not_lt] at hlast
      have hone : p.threadCount = 1 := by omega
      obtain ⟨hlength, hcells⟩ := h
      obtain ⟨xs, hx, hxs⟩ := hcells ⟨0, hpos⟩
      refine ⟨xs, ?_, hall xs ?_⟩
      · obtain ⟨cell, rfl⟩ := List.length_eq_one_iff.mp (hlength.trans hone)
        simpa [hone] using hx
      · simpa [hone] using hxs
  | merge step =>
      obtain ⟨hstep, hlt, htree⟩ := h
      simp only [psortThreadRun, double_step hn hlt, ite_eq_right_iff, reduceCtorEq, imp_false,
        not_lt] at hlast
      obtain ⟨xs, hcells, hxs⟩ := htree.finish hstep hlast hpos
      exact ⟨xs, hcells, hall xs hxs⟩

theorem copyBack_eq (nmemb : ℕ) (output : List α) (k : ℕ) :
    copyBack nmemb (ofCells (some output :: List.replicate k none)) = .ok output := by
  simp [copyBack, ofCells, layout, load]

/-- Every run of the threads ends, and with the first segment spanning the sorted array. -/
theorem threads_lead (hc : p.compare = c.compare) (hR : MergeClosed c R)
    (hpos : 0 < p.threadCount) (hn : p.threadCount ≤ 2 ^ 30) (hsort : SortsSegments p R base)
    {s : Barrier.State Phase (Run (Shared α)) p.threadCount}
    (hstart : startThreads p base = .ok s) :
    (∀ t, Reaches (psortThreadRun p).Step s t → ∃ shared, Safe p t shared) ∧
    Leads (psortThreadRun p).Step (fun t => (∀ idx, t.pcs idx = .returned) ∧
      ∃ output, t.shared = .ok (ofCells (some output :: List.replicate (p.threadCount - 1) none)) ∧
        R base output) s := by
  have hb := boundaries_cut base.length hpos
  have hinv := threadInv_preserves hc hR hb hn hsort
  rw [startThreads_eq hpos] at hstart
  obtain rfl := Except.ok.inj hstart
  have hfirst : ThreadInv p R base (cut p.threadCount base.length) (psortThreadRun p).first ∅
      (.ok (ofCells (unsorted p.threadCount base (cut p.threadCount base.length)))) := by
    refine ⟨_, rfl, by simp [unsorted], fun i => ⟨_, getElem?_unsorted i.isLt, ?_⟩⟩
    simp
  constructor
  · intro t ht
    exact safe_of_inPhase hR hn hsort (hinv.reaches hfirst ht)
  · refine (hinv.leads (fun | .sort => p.threadCount | .merge step => p.threadCount - step) ?_ hpos
      hfirst).mono ?_
    · rintro phase phase' done shared ⟨cells, -, hcells⟩ hnext
      cases phase with
      | sort =>
          simp only [psortThreadRun, Option.ite_none_right_eq_some, Option.some.injEq] at hnext
          obtain ⟨hlt, rfl⟩ := hnext
          simp only
          omega
      | merge step =>
          obtain ⟨hstep, hlt, -⟩ := hcells
          simp only [psortThreadRun, Option.ite_none_right_eq_some, Option.some.injEq,
            double_step hn hlt] at hnext
          obtain ⟨hlt', rfl⟩ := hnext
          simp only
          omega
    · rintro t ⟨hret, phase, hlast, cells, hshared, hcells⟩
      obtain ⟨output, rfl, hR'⟩ := cells_finish hb hpos hn hlast hcells
      exact ⟨hret, output, hshared, hR'⟩

/-- What a call of `psort_r` guarantees in every order of the steps of its threads: it
ends with an array that is related to its input by `R`; for an array that is not short
all states on the way are safe, the threads return, and `segments[0]` is the array. -/
structure Correct (p : Params α) (R : List α → List α → Prop) (base : List α) : Prop where
  outcome : ∀ result, Outcome p base result → ∃ output, result = .ok output ∧ R base output
  completes : 1 < base.length → ∃ s, startThreads p base = .ok s ∧
    (∀ t, Reaches (psortThreadRun p).Step s t → ∃ shared, Safe p t shared) ∧
    Leads (psortThreadRun p).Step (fun t => (∀ idx, t.pcs idx = .returned) ∧
      ∃ shared, t.shared = .ok shared ∧ shared.segments[0]? = some ⟨some 0, base.length⟩) s

theorem psortR_correct (hc : p.compare = c.compare) (hR : MergeClosed c R)
    (hpos : 1 ≤ p.threadCount) (hn : p.threadCount ≤ 2 ^ 30) (hsort : SortsSegments p R base)
    (hshort : base.length ≤ 1 → R base base) : Correct p R base := by
  constructor
  · intro result hresult
    cases hresult with
    | short h => exact ⟨base, rfl, hshort h⟩
    | failed h hstart =>
        rw [startThreads_eq hpos] at hstart
        cases hstart
    | joined h hstart hrun hjoin =>
        obtain ⟨-, hleads⟩ := threads_lead hc hR hpos hn hsort hstart
        obtain ⟨-, output, hshared, hout⟩ := hleads.of_stuck
          (fun u v hu huv => absurd huv (Barrier.Program.stuck_of_returned hpos hu.1 v)) hrun
          (Barrier.Program.stuck_of_returned hpos hjoin)
        refine ⟨output, ?_, hout⟩
        rw [hshared, Run.ok_bind, copyBack_eq]
  · intro _
    have hstart := startThreads_eq hpos base
    obtain ⟨hsafe, hleads⟩ := threads_lead hc hR hpos hn hsort hstart
    refine ⟨_, hstart, hsafe, hleads.mono ?_⟩
    intro t ⟨hret, output, hshared, hout⟩
    refine ⟨hret, _, hshared, ?_⟩
    simp [ofCells, layout, hR.length_eq _ _ hout]

/-- A call that meets its contract can end. -/
theorem Correct.exists_outcome (h : Correct p R base) : ∃ result, Outcome p base result := by
  by_cases hshort : base.length ≤ 1
  · exact ⟨_, .short hshort⟩
  · obtain ⟨s, hstart, -, hleads⟩ := h.completes (by omega)
    obtain ⟨t, hrun, hret, -⟩ := hleads.exists_reaches
    exact ⟨_, .joined (by omega) hstart hrun hret⟩

/-! ## The sequential sorts -/

theorem sortsSegments_of_stable (sort : List α → Run (List α))
    (hsort : ∀ xs : List α, xs.length ≤ base.length →
      ∃ output, sort xs = .ok output ∧ IsStableSort c xs output)
    (heq : sequentialSort p = sort) : SortsSegments p (IsStableSort c) base := by
  intro segment hsegment
  rw [heq]
  exact hsort segment hsegment.length_le

theorem msort_segments (hc : p.compare = c.compare) (hlength : base.length < 2 ^ 63)
    (htype : p.selectedSortType = .mergeSort) : SortsSegments p (IsStableSort c) base := by
  refine sortsSegments_of_stable (Msort.msortR c.compare)
    (fun xs hxs => Msort.msortR_stable c xs (by omega)) ?_
  funext xs
  rw [sequentialSort, htype, hc]

theorem isort_segments (hc : p.compare = c.compare)
    (htype : p.selectedSortType = .insertionSort) : SortsSegments p (IsStableSort c) base := by
  refine sortsSegments_of_stable (Isort.isortR c.compare)
    (fun xs _ => Isort.isortR_stable c xs) ?_
  funext xs
  rw [sequentialSort, htype, hc]

/-- Flash sort works on every segment if its metric agrees with the order. -/
theorem fsort_segments (hc : p.compare = c.compare) {metric : α → ℚ}
    (hmetric : p.metric = some metric) (hagrees : Fsort.MetricAgrees c metric base)
    (htype : p.selectedSortType = .flashSort) : SortsSegments p (IsSortingResult c) base := by
  intro segment hsegment
  simp only [sequentialSort, htype, hmetric, hc]
  exact Fsort.fsortR_sorts (hagrees.sublist hsegment.subset)

theorem SortsSegments.toSortingResult (h : SortsSegments p (IsStableSort c) base) :
    SortsSegments p (IsSortingResult c) base := by
  intro segment hsegment
  obtain ⟨output, hrun, hstable⟩ := h segment hsegment
  exact ⟨output, hrun, hstable.toIsSortingResult⟩

/-- The sorts of this library sort every segment. -/
theorem sorts_segments (hc : p.compare = c.compare) (hlength : base.length < 2 ^ 63)
    (hother : p.selectedSortType = .quickSort ∨ p.selectedSortType = .flashSort →
      SortsSegments p (IsSortingResult c) base) : SortsSegments p (IsSortingResult c) base := by
  cases htype : p.selectedSortType with
  | heapSort =>
      intro segment _
      simp only [sequentialSort, htype, hc]
      exact HeapSort.hsortR_sorts c segment
  | ternaryHeapSort =>
      intro segment _
      simp only [sequentialSort, htype, hc]
      exact HeapSort.ternaryHsortR_sorts c segment
  | quickSort => exact hother (.inl htype)
  | flashSort => exact hother (.inr htype)
  | insertionSort => exact (isort_segments hc htype).toSortingResult
  | mergeSort => exact (msort_segments hc hlength htype).toSortingResult

/-- `psort_r` sorts its array with every number of threads, every order of their steps
and every sort type; for `QUICK_SORT` and `FLASH_SORT` the sequential sort is assumed to
sort the segments. -/
theorem psortR_sorts (c : CompareFun α) (p : Params α) (base : CArray α)
    (hc : p.compare = c.compare) (hpos : 1 ≤ p.threadCount) (hn : p.threadCount ≤ 2 ^ 30)
    (hother : p.selectedSortType = .quickSort ∨ p.selectedSortType = .flashSort →
      SortsSegments p (IsSortingResult c) base.elems) :
    Correct p (IsSortingResult c) base.elems :=
  psortR_correct hc mergeClosed_isSortingResult hpos hn
    (sorts_segments hc base.length_lt hother)
    fun h => (isStableSort_of_length_le_one h).toIsSortingResult

/-- The call with integers; `qsort_r` is a merge sort, as in the GNU C library. -/
def intParams (threadCount : ℕ) (selectedSortType : SortType) : Params ℤ where
  compare := CompareFun.int.compare
  metric := none
  threadCount := threadCount
  selectedSortType := selectedSortType
  qsortR compare xs := .ok (xs.mergeSort fun x y => decide (compare x y ≤ 0))

theorem psortR_sorts_quickSort :
    Correct (intParams 3 .quickSort) (IsSortingResult CompareFun.int) [2, 3, -1, 2] := by
  refine psortR_sorts CompareFun.int (intParams 3 .quickSort) ⟨[2, 3, -1, 2], by decide⟩ rfl
    (by decide) (by decide) ?_
  rintro - segment -
  exact ⟨_, rfl, isSortingResult_mergeSort CompareFun.int segment⟩

/-- With `MERGE_SORT` and with `INSERTION_SORT` the result of `psort_r` is that of
`msort_r`, whatever the number of threads and the order of their steps. -/
theorem psortR_eq_msortR (c : CompareFun α) (p : Params α) (base : CArray α)
    (hc : p.compare = c.compare) (hpos : 1 ≤ p.threadCount) (hn : p.threadCount ≤ 2 ^ 30)
    (htype : p.selectedSortType = .mergeSort ∨ p.selectedSortType = .insertionSort) :
    ∃ output, Msort.msortR p.compare base.elems = .ok output ∧
      Correct p (fun _ result => result = output) base.elems := by
  obtain ⟨output, hrun, hstable⟩ := Msort.msortR_stable c base.elems base.length_lt
  have hsort : SortsSegments p (IsStableSort c) base.elems := by
    rcases htype with htype | htype
    · exact msort_segments hc base.length_lt htype
    · exact isort_segments hc htype
  obtain ⟨houtcome, hcompletes⟩ := psortR_correct hc mergeClosed_isStableSort hpos hn hsort
    isStableSort_of_length_le_one
  refine ⟨output, by rw [hc, hrun], ?_, hcompletes⟩
  intro result hresult
  obtain ⟨result', rfl, hstable'⟩ := houtcome result hresult
  exact ⟨result', rfl, hstable'.unique hstable⟩

theorem psortR_eq_msortR_five :
    ∃ output, Msort.msortR CompareFun.int.compare [2, 3, -1, 2] = .ok output ∧
      Correct (intParams 5 .mergeSort) (fun _ result => result = output) [2, 3, -1, 2] :=
  psortR_eq_msortR CompareFun.int (intParams 5 .mergeSort) ⟨[2, 3, -1, 2], by decide⟩ rfl
    (by decide) (by decide) (.inl rfl)

end SysProg.Psort
