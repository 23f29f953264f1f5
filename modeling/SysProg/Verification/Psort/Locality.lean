import SysProg.Library.TreeMerge
import SysProg.Model.Psort
import SysProg.Verification.Shared.MergeLoop

/-! # What an action of a thread touches

`usedSegments` names the segments that a thread reads or writes in a phase. An action
keeps to them: it gives the same result in every memory that agrees there, and it leaves
everything else as it is. -/

namespace SysProg.Psort

open List

variable {α : Type} {p : Params α} {s t s' : Shared α}

/-- The segments that thread `idx` reads or writes in a phase. -/
def usedSegments (threadCount : ℕ) (phase : Phase) (idx : ℕ) : Finset ℕ :=
  match phase with
  | .sort => {idx}
  | .merge step =>
      if idx % (2 * step % 2 ^ 32) = 0 ∧ idx + step < threadCount then {idx, idx + step} else ∅

/-- The slot of the array belongs to segment `k`. -/
def InSegment (s : Shared α) (k q : ℕ) : Prop :=
  ∃ segment ptr, s.segments[k]? = some segment ∧ segment.base = some ptr ∧
    ptr ≤ q ∧ q < ptr + segment.nmemb

/-- Both memories are of the same size and hold the same in the segments of `used`. -/
structure AgreeOn (used : Finset ℕ) (s t : Shared α) : Prop where
  length_eq : s.base.length = t.base.length
  count_eq : s.segments.length = t.segments.length
  segments : ∀ k ∈ used, s.segments[k]? = t.segments[k]?
  base : ∀ k ∈ used, ∀ q, InSegment s k q → s.base[q]? = t.base[q]?

/-- `t'` holds what `s'` holds in the segments of `used` as they are in `s`, and what `t`
holds elsewhere. -/
structure Updated (used : Finset ℕ) (s s' t t' : Shared α) : Prop where
  segments : ∀ k, t'.segments[k]? = if k ∈ used then s'.segments[k]? else t.segments[k]?
  inside : ∀ k ∈ used, ∀ q, InSegment s k q → t'.base[q]? = s'.base[q]?
  outside : ∀ q, (∀ k ∈ used, ¬ InSegment s k q) → t'.base[q]? = t.base[q]?

/-- The action keeps to the segments of `used`. -/
def KeepsTo (used : Finset ℕ) (action : Shared α → Run (Shared α)) (s : Shared α) : Prop :=
  ∀ t, AgreeOn used s t → ∃ s' t', action s = .ok s' ∧ action t = .ok t' ∧
    Updated used s s' t t'

/-! ## Parts of arrays -/

theorem loadRange_eq_ok_iff {xs data : List α} {off n : ℕ} :
    loadRange xs off n = .ok data ↔ off + n ≤ xs.length ∧ (xs.drop off).take n = data := by
  unfold loadRange
  split <;> simp_all

theorem storeRange_eq_ok_iff {xs ys data : List α} {off : ℕ} :
    storeRange xs off data = .ok ys ↔ off + data.length ≤ xs.length ∧
      xs.take off ++ data ++ xs.drop (off + data.length) = ys := by
  unfold storeRange
  split <;> simp_all

/-- Equal parts are read as the same elements. -/
theorem loadRange_congr {xs ys data : List α} {off n : ℕ} (hlength : xs.length = ys.length)
    (heq : ∀ q, off ≤ q → q < off + n → xs[q]? = ys[q]?)
    (h : loadRange xs off n = .ok data) : loadRange ys off n = .ok data := by
  obtain ⟨hle, rfl⟩ := loadRange_eq_ok_iff.mp h
  refine loadRange_eq_ok_iff.mpr ⟨hlength ▸ hle, List.ext_getElem? fun i => ?_⟩
  simp only [List.getElem?_take, List.getElem?_drop]
  split
  · exact (heq (off + i) (by omega) (by omega)).symm
  · rfl

/-- What `storeRange` leaves in a slot. -/
theorem getElem?_storeRange {xs ys data : List α} {off : ℕ}
    (h : storeRange xs off data = .ok ys) (q : ℕ) :
    ys[q]? = if off ≤ q ∧ q < off + data.length then data[q - off]? else xs[q]? := by
  obtain ⟨hle, rfl⟩ := storeRange_eq_ok_iff.mp h
  have htake : (xs.take off).length = off := by
    rw [List.length_take]
    omega
  rw [List.append_assoc]
  by_cases hlow : q < off
  · rw [if_neg (by omega), List.getElem?_append_left (by omega), List.getElem?_take_of_lt hlow]
  · rw [List.getElem?_append_right (by omega), htake]
    by_cases hhigh : q < off + data.length
    · rw [if_pos (by omega), List.getElem?_append_left (by omega)]
    · rw [if_neg (by omega), List.getElem?_append_right (by omega), List.getElem?_drop]
      congr 1
      omega

/-- A store of the same data succeeds in every array of the same length. -/
theorem exists_storeRange {xs ys xs' data : List α} {off : ℕ} (hlength : xs.length = ys.length)
    (h : storeRange xs off data = .ok xs') : ∃ ys', storeRange ys off data = .ok ys' := by
  obtain ⟨hle, -⟩ := storeRange_eq_ok_iff.mp h
  exact ⟨_, storeRange_eq_ok_iff.mpr ⟨hlength ▸ hle, rfl⟩⟩

theorem inSegment_iff {k q ptr n : ℕ} (h : s.segments[k]? = some ⟨some ptr, n⟩) :
    InSegment s k q ↔ ptr ≤ q ∧ q < ptr + n := by
  constructor
  · intro ⟨segment, ptr', hsegment, hptr, hq⟩
    obtain rfl : (⟨some ptr, n⟩ : SortableData) = segment := by
      simpa [h] using hsegment
    obtain rfl : ptr = ptr' := by simpa using hptr
    exact hq
  · intro hq
    exact ⟨_, ptr, h, rfl, hq⟩

/-- A store to slots of the used segments. -/
theorem exists_updated {used : Finset ℕ} {base data : List α} {off : ℕ}
    (hagree : AgreeOn used s t) (hstore : storeRange s.base off data = .ok base)
    (hcover : ∀ q, off ≤ q → q < off + data.length → ∃ k ∈ used, InSegment s k q) :
    ∃ base', storeRange t.base off data = .ok base' ∧ ∀ segments segments',
      (∀ k, segments'[k]? = if k ∈ used then segments[k]? else t.segments[k]?) →
        Updated used s ⟨base, segments⟩ t ⟨base', segments'⟩ := by
  obtain ⟨base', hstore'⟩ := exists_storeRange hagree.length_eq hstore
  refine ⟨base', hstore', fun segments segments' hsegments => ⟨hsegments, ?_, ?_⟩⟩
  · intro k hk q hq
    simp only [getElem?_storeRange hstore, getElem?_storeRange hstore']
    split
    · rfl
    · exact (hagree.base k hk q hq).symm
  · intro q hq
    rw [getElem?_storeRange hstore', if_neg]
    intro ⟨hlow, hhigh⟩
    obtain ⟨k, hk, hin⟩ := hcover q hlow hhigh
    exact hq k hk hin

/-! ## The actions -/

/-- The sort of a segment keeps to it. -/
theorem sortSegment_keepsTo {idx ptr n : ℕ} {xs ys : List α}
    (hsegment : s.segments[idx]? = some ⟨some ptr, n⟩) (hload : loadRange s.base ptr n = .ok xs)
    (hsort : sequentialSort p xs = .ok ys) (hlength : ys.length = n)
    (hfit : ptr + n ≤ s.base.length) : KeepsTo {idx} (sortSegment p idx) s := by
  intro t hagree
  have hin := fun q => inSegment_iff (q := q) hsegment
  have hsegment' : t.segments[idx]? = some ⟨some ptr, n⟩ := by
    rw [← hagree.segments idx (Finset.mem_singleton_self idx), hsegment]
  have hload' : loadRange t.base ptr n = .ok xs :=
    loadRange_congr hagree.length_eq (fun q hlow hhigh =>
      hagree.base idx (Finset.mem_singleton_self idx) q ((hin q).mpr ⟨hlow, hhigh⟩)) hload
  have hstore : storeRange s.base ptr ys = .ok _ :=
    storeRange_eq_ok_iff.mpr ⟨by omega, rfl⟩
  obtain ⟨base', hstore', hupdated⟩ := exists_updated hagree hstore
    fun q hlow hhigh => ⟨idx, Finset.mem_singleton_self idx, (hin q).mpr (by omega)⟩
  refine ⟨⟨_, s.segments⟩, ⟨base', t.segments⟩, ?_, ?_, hupdated _ _ fun k => ?_⟩
  · simp only [sortSegment, load_eq_ok hsegment, Run.ok_bind, segmentBase, onSegment, hload, hsort,
      hstore]
  · simp only [sortSegment, load_eq_ok hsegment', Run.ok_bind, segmentBase, onSegment, hload',
      hsort, hstore']
  · by_cases hk : k = idx
    · subst hk
      rw [if_pos (Finset.mem_singleton_self k), hsegment, hsegment']
    · rw [if_neg (by simpa using hk)]

/-- The merge of two segments, of which the second follows the first, keeps to them. -/
theorem mergeSegments_keepsTo {idx otherIdx ptr m n : ℕ} {xs ys : List α}
    (hsegment : s.segments[idx]? = some ⟨some ptr, m⟩)
    (hother : s.segments[otherIdx]? = some ⟨some (ptr + m), n⟩)
    (hleft : loadRange s.base ptr m = .ok xs) (hright : loadRange s.base (ptr + m) n = .ok ys) :
    KeepsTo {idx, otherIdx} (mergeSegments p idx otherIdx) s := by
  intro t hagree
  have hmem : idx ∈ ({idx, otherIdx} : Finset ℕ) := by simp
  have hmem' : otherIdx ∈ ({idx, otherIdx} : Finset ℕ) := by simp
  have hin := fun q => inSegment_iff (q := q) hsegment
  have hin' := fun q => inSegment_iff (q := q) hother
  have hsegment' : t.segments[idx]? = some ⟨some ptr, m⟩ := by
    rw [← hagree.segments idx hmem, hsegment]
  have hother' : t.segments[otherIdx]? = some ⟨some (ptr + m), n⟩ := by
    rw [← hagree.segments otherIdx hmem', hother]
  have hleft' : loadRange t.base ptr m = .ok xs :=
    loadRange_congr hagree.length_eq (fun q hlow hhigh =>
      hagree.base idx hmem q ((hin q).mpr ⟨hlow, hhigh⟩)) hleft
  have hright' : loadRange t.base (ptr + m) n = .ok ys :=
    loadRange_congr hagree.length_eq (fun q hlow hhigh =>
      hagree.base otherIdx hmem' q ((hin' q).mpr ⟨hlow, hhigh⟩)) hright
  have hfit := (loadRange_eq_ok_iff.mp hright).1
  have hxs : xs.length = m := by
    rw [← (loadRange_eq_ok_iff.mp hleft).2, List.length_take, List.length_drop]
    omega
  have hys : ys.length = n := by
    rw [← (loadRange_eq_ok_iff.mp hright).2, List.length_take, List.length_drop]
    omega
  have hzs : (mergeLoop p.compare xs ys 0 0 []).length = m + n := by
    rw [mergeLoop_eq p.compare xs ys 0 0 [] (Nat.zero_le _) (Nat.zero_le _)]
    simp [hxs, hys]
  have hstore : storeRange s.base ptr (mergeLoop p.compare xs ys 0 0 []) = .ok _ :=
    storeRange_eq_ok_iff.mpr ⟨by omega, rfl⟩
  obtain ⟨base', hstore', hupdated⟩ := exists_updated hagree hstore (by
    intro q hlow hhigh
    by_cases hq : q < ptr + m
    · exact ⟨idx, hmem, (hin q).mpr ⟨hlow, hq⟩⟩
    · exact ⟨otherIdx, hmem', (hin' q).mpr (by omega)⟩)
  refine ⟨⟨_, (s.segments.set idx ⟨some ptr, m + n⟩).set otherIdx ⟨none, 0⟩⟩,
    ⟨base', (t.segments.set idx ⟨some ptr, m + n⟩).set otherIdx ⟨none, 0⟩⟩, ?_, ?_,
    hupdated _ _ fun k => ?_⟩
  · simp only [mergeSegments, load_eq_ok hsegment, load_eq_ok hother, Run.ok_bind, segmentBase,
      hleft, hright, hstore]
  · simp only [mergeSegments, load_eq_ok hsegment', load_eq_ok hother', Run.ok_bind, segmentBase,
      hleft', hright', hstore']
  · simp only [List.getElem?_set, List.length_set, hagree.count_eq]
    by_cases hk : k ∈ ({idx, otherIdx} : Finset ℕ)
    · rw [if_pos hk, hagree.segments k hk]
    · have hk' : ¬ otherIdx = k ∧ ¬ idx = k := by
        simp only [Finset.mem_insert, Finset.mem_singleton, not_or] at hk
        exact ⟨Ne.symm hk.2, Ne.symm hk.1⟩
      rw [if_neg hk, if_neg hk'.1, if_neg hk'.2]

/-- A thread that has nothing to merge keeps to no segment at all. -/
theorem pure_keepsTo : KeepsTo ∅ (fun s : Shared α => .ok s) s := by
  intro t _
  refine ⟨s, t, rfl, rfl, ?_, ?_, ?_⟩ <;> simp

/-- In a phase different threads use different segments. -/
theorem usedSegments_disjoint {n : ℕ} {phase : Phase} {i j : ℕ} (hn : n ≤ 2 ^ 30)
    (hphase : ∀ step, phase = .merge step → 0 < step ∧ step < n) (hne : i ≠ j) :
    Disjoint (usedSegments n phase i) (usedSegments n phase j) := by
  cases phase with
  | sort => simpa [usedSegments] using hne
  | merge step =>
      obtain ⟨hpos, hlt⟩ := hphase step rfl
      simp only [usedSegments, Nat.mod_eq_of_lt (by omega : 2 * step < 2 ^ 32)]
      by_cases hi : TreeMerge.Active n step i
      · by_cases hj : TreeMerge.Active n step j
        · obtain ⟨h₁, h₂, h₃⟩ := hi.disjoint hj hpos hne
          rw [if_pos (show i % (2 * step) = 0 ∧ i + step < n from hi),
            if_pos (show j % (2 * step) = 0 ∧ j + step < n from hj)]
          simp only [Finset.disjoint_insert_left, Finset.disjoint_singleton_left,
            Finset.mem_insert, Finset.mem_singleton, not_or]
          exact ⟨⟨hne, h₁⟩, h₂, h₃⟩
        · rw [if_neg (show ¬ (j % (2 * step) = 0 ∧ j + step < n) from hj)]
          exact Finset.disjoint_empty_right _
      · rw [if_neg (show ¬ (i % (2 * step) = 0 ∧ i + step < n) from hi)]
        exact Finset.disjoint_empty_left _

end SysProg.Psort
