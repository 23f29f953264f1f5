import SysProg.Verification.Fsort.Permutation
import SysProg.Verification.Heap.Correctness
import SysProg.Verification.Isort.Correctness

/-! # Correctness of flash sort -/

namespace SysProg.Fsort

open List

variable {α : Type} {c : CompareFun α} {cls : α → ℕ} {lsize : ℕ} {input : List α}

/-! ## Preparing the classes -/

theorem calculateK_eq (factor value : ℚ) (lsize : ℕ) :
    calculateK factor value lsize =
      ⌊min (max (factor * value + 1 / 10 ^ 9) 0) ((lsize : ℚ) - 1)⌋₊ := by
  have hlow : ∀ x : ℚ, (if x < 0 then 0 else x) = max x 0 := by
    intro x
    split
    · next h => exact (max_eq_right h.le).symm
    · next h => exact (max_eq_left (not_lt.mp h)).symm
  have hhigh : ∀ x y : ℚ, (if x > y then y else x) = min x y := by
    intro x y
    split
    · next h => exact (min_eq_right h.le).symm
    · next h => exact (min_eq_left (not_lt.mp h)).symm
  simp only [calculateK, hlow, hhigh]

theorem calculateK_lt {factor value : ℚ} (hsize : 0 < lsize) :
    calculateK factor value lsize < lsize := by
  have hcast : (lsize : ℚ) - 1 = ((lsize - 1 : ℕ) : ℚ) := by
    rw [Nat.cast_sub hsize, Nat.cast_one]
  have hle : calculateK factor value lsize ≤ lsize - 1 := by
    rw [calculateK_eq, hcast]
    exact Nat.floor_le_of_le (min_le_right _ _)
  omega

/-- A greater metric does not lead to a smaller class. -/
theorem calculateK_mono {factor value value' : ℚ} (hfactor : 0 ≤ factor)
    (hvalue : value ≤ value') :
    calculateK factor value lsize ≤ calculateK factor value' lsize := by
  rw [calculateK_eq, calculateK_eq]
  gcongr

/-- The scan for the extremes finds a least and a greatest element. -/
theorem extremes_spec (base : List α) (i amin amax : ℕ) (hmin : amin < base.length)
    (hmax : amax < base.length)
    (hseen : ∀ p (_ : p < i) (h : p < base.length),
      c.le base[amin] base[p] ∧ c.le base[p] base[amax]) :
    ∃ p q, ∃ (hp : p < base.length) (hq : q < base.length),
      extremes c.compare base i amin amax = .ok (p, q) ∧
      ∀ x ∈ base, c.le base[p] x ∧ c.le x base[q] := by
  rw [extremes]
  by_cases hi : i < base.length
  · rw [if_pos hi, load_of_lt hi, load_of_lt hmin, load_of_lt hmax]
    simp only [Run.ok_bind]
    refine extremes_spec base (i + 1) _ _ (by split <;> assumption) (by split <;> assumption) ?_
    intro p hp hpl
    constructor
    · by_cases hless : c.compare base[i] base[amin] < 0
      · simp only [hless, ite_true]
        rcases Nat.lt_succ_iff_lt_or_eq.mp hp with hp | rfl
        · exact c.le_trans (c.le_of_lt hless) (hseen p hp hpl).1
        · exact c.le_refl _
      · simp only [hless, ite_false]
        rcases Nat.lt_succ_iff_lt_or_eq.mp hp with hp | rfl
        · exact (hseen p hp hpl).1
        · exact c.le_of_not_lt hless
    · by_cases hmore : c.compare base[i] base[amax] > 0
      · simp only [hmore, ite_true]
        have hlt : c.compare base[amax] base[i] < 0 := (c.neg_iff _ _).mpr hmore
        rcases Nat.lt_succ_iff_lt_or_eq.mp hp with hp | rfl
        · exact c.le_trans (hseen p hp hpl).2 (c.le_of_lt hlt)
        · exact c.le_refl _
      · simp only [hmore, ite_false]
        rcases Nat.lt_succ_iff_lt_or_eq.mp hp with hp | rfl
        · exact (hseen p hp hpl).2
        · exact not_lt.mp hmore
  · rw [if_neg hi]
    refine ⟨amin, amax, hmin, hmax, rfl, ?_⟩
    intro x hx
    obtain ⟨p, hp, rfl⟩ := List.getElem_of_mem hx
    exact hseen p (by omega) hp
termination_by base.length - i

theorem countClasses_spec {rest : List α} {counts : ℕ → ℕ}
    (hcls : ∀ x ∈ rest, cls x < lsize) :
    countClasses cls rest (endsList lsize counts) =
      .ok (endsList lsize fun k => counts k + rest.countP fun x => decide (cls x = k)) := by
  induction rest generalizing counts with
  | nil => simp [countClasses]
  | cons x rest ih =>
      have hx : cls x < lsize := hcls x (by simp)
      rw [countClasses, load_endsList rfl hx]
      simp only [Run.ok_bind]
      rw [endsList_set hx, ih (fun y hy => hcls y (by simp [hy]))]
      congr 2
      funext k
      rw [List.countP_cons]
      by_cases hk : k = cls x
      · subst hk
        simp only [Function.update_self, decide_true, ite_true]
        omega
      · rw [Function.update_of_ne hk, if_neg (by simpa using Ne.symm hk)]
        rfl

theorem endsList_succ (n : ℕ) (ends : ℕ → ℕ) :
    endsList n ends ++ [ends n] = endsList (n + 1) ends := by
  simp [endsList, List.range_succ]

/-- Class `k` ends where class `k + 1` starts. -/
theorem cumulate_spec {k : ℕ} {l : List ℕ} (hk : 1 ≤ k) (hkl : k ≤ lsize)
    (hl : l = endsList lsize fun i => if i < k then startOf cls input (i + 1)
      else input.countP fun x => decide (cls x = i)) :
    cumulate lsize k l (endsList (k + 1) (startOf cls input)) =
      .ok (endsList lsize fun i => startOf cls input (i + 1),
        endsList (lsize + 1) (startOf cls input)) := by
  rw [cumulate]
  by_cases hlt : k < lsize
  · rw [if_pos hlt, load_endsList hl hlt, load_endsList hl (by omega : k - 1 < lsize)]
    simp only [Run.ok_bind, lt_irrefl, ite_false, show k - 1 < k by omega, ite_true,
      show k - 1 + 1 = k by omega]
    have hnext : (input.countP fun x => decide (cls x = k)) + startOf cls input k =
        startOf cls input (k + 1) := by
      rw [startOf_succ]
      omega
    rw [hnext, endsList_succ]
    refine cumulate_spec (by omega) hlt ?_
    rw [hl, endsList_set hlt]
    congr 1
    funext i
    by_cases hik : i = k
    · subst hik
      simp
    · rw [Function.update_of_ne hik]
      by_cases hi : i < k
      · rw [if_pos hi, if_pos (by omega)]
      · rw [if_neg hi, if_neg (by omega)]
  · obtain rfl : k = lsize := by omega
    rw [if_neg hlt, hl]
    congr 2
    refine List.map_congr_left fun i hi => ?_
    rw [if_pos (List.mem_range.mp hi)]
termination_by lsize - k

/-- Before the permutation every slot is free. -/
theorem filling_start (hcls : ∀ x ∈ input, cls x < lsize) {v : List α} (hperm : v ~ input) :
    Filling cls lsize input v (fun k => startOf cls input (k + 1)) ∧
      freeSlots cls lsize input (fun k => startOf cls input (k + 1)) = input.length := by
  constructor
  · refine ⟨hperm, fun k _ => startOf_mono cls input (by omega), fun k _ => le_rfl, ?_⟩
    intro k _ p x hp hp'
    omega
  · rw [← startOf_eq_length hcls, freeSlots,
      Finset.sum_range_tsub fun _ _ h => startOf_mono cls input h, startOf_zero]
    rfl

/-! ## Sorting the classes -/

theorem sortClass_spec (front segment back : List α) {first n : ℕ}
    (hfirst : first = front.length) (hn : n = segment.length) :
    ∃ sorted, sortClass c.compare (front ++ segment ++ back) first n =
        .ok (front ++ sorted ++ back) ∧ IsSortingResult c segment sorted := by
  unfold sortClass
  by_cases hlong : n > 7
  · obtain ⟨sorted, hrun, hsorted⟩ := HeapSort.hsortR_sorts c segment
    refine ⟨sorted, ?_, hsorted⟩
    rw [if_pos hlong]
    exact onSegment_append hfirst hn hrun hsorted.length_eq
  · by_cases hshort : n > 1
    · obtain ⟨sorted, hrun, hsorted⟩ := Isort.isortR_stable c segment
      refine ⟨sorted, ?_, hsorted.toIsSortingResult⟩
      rw [if_neg hlong, if_pos hshort]
      exact onSegment_append hfirst hn hrun hsorted.length_eq
    · refine ⟨segment, by rw [if_neg hlong, if_neg hshort], ?_⟩
      exact (isStableSort_of_length_le_one (by omega)).toIsSortingResult

/-- Every element stands in the slots of its class. -/
def InClasses (cls : α → ℕ) (input v : List α) : Prop :=
  ∀ p x, v[p]? = some x → startOf cls input (cls x) ≤ p ∧ p < startOf cls input (cls x + 1)

theorem InClasses.of_mem_take {v : List α} (h : InClasses cls input v) {k : ℕ} {x : α}
    (hx : x ∈ v.take (startOf cls input k)) : cls x < k := by
  obtain ⟨p, hp⟩ := List.mem_iff_getElem?.mp hx
  rw [List.getElem?_take, Option.ite_none_right_eq_some] at hp
  obtain ⟨hlt, hget⟩ := hp
  have hslot := h p x hget
  by_contra hn
  have := startOf_mono cls input (not_lt.mp hn)
  omega

theorem InClasses.of_mem_drop {v : List α} (h : InClasses cls input v) {k : ℕ} {x : α}
    (hx : x ∈ v.drop (startOf cls input k)) : k ≤ cls x := by
  obtain ⟨p, hp⟩ := List.mem_iff_getElem?.mp hx
  rw [List.getElem?_drop] at hp
  have hslot := h _ x hp
  by_contra hn
  have := startOf_mono cls input (show cls x + 1 ≤ k by omega)
  omega

/-- The classes before `k` are sorted, the others as the permutation has left them. -/
theorem sortClasses_spec {v : List α} (hclasses : InClasses cls input v)
    (hcls : ∀ x ∈ input, cls x < lsize) (hv : v ~ input)
    (hmono : ∀ x ∈ input, ∀ y ∈ input, cls x < cls y → c.le x y)
    {k : ℕ} (hk : k ≤ lsize) (front : List α) (hfront : front ~ v.take (startOf cls input k))
    (hsorted : front.Pairwise c.le) :
    ∃ output, sortClasses c.compare input.length lsize
        (endsList (lsize + 1) (startOf cls input)) k (front ++ v.drop (startOf cls input k)) =
          .ok output ∧ IsSortingResult c input output := by
  have hlength : front.length = startOf cls input k := by
    have := startOf_le_length cls input k
    rw [hfront.length_eq, List.length_take, hv.length_eq, min_eq_left this]
  rw [sortClasses]
  by_cases hlt : k < lsize
  · have hmono' : startOf cls input k ≤ startOf cls input (k + 1) :=
      startOf_mono cls input (by omega)
    have hlast := startOf_le_length cls input (k + 1)
    have hback : v.drop (startOf cls input k) =
        (v.drop (startOf cls input k)).take (startOf cls input (k + 1) - startOf cls input k) ++
          v.drop (startOf cls input (k + 1)) := by
      conv_lhs => rw [← List.take_append_drop
        (startOf cls input (k + 1) - startOf cls input k) (v.drop (startOf cls input k))]
      rw [List.drop_drop, Nat.add_sub_cancel' hmono']
    have htake : v.take (startOf cls input (k + 1)) = v.take (startOf cls input k) ++
        (v.drop (startOf cls input k)).take
          (startOf cls input (k + 1) - startOf cls input k) := by
      rw [← List.take_add, Nat.add_sub_cancel' hmono']
    generalize hsegment : (v.drop (startOf cls input k)).take
      (startOf cls input (k + 1) - startOf cls input k) = segment at hback htake
    have hn : startOf cls input (k + 1) - startOf cls input k = segment.length := by
      rw [← hsegment, List.length_take, List.length_drop, hv.length_eq]
      omega
    obtain ⟨sorted, hrun, hresult⟩ := sortClass_spec (c := c) front segment
      (v.drop (startOf cls input (k + 1))) hlength.symm hn
    have hfront' : front ++ sorted ~ v.take (startOf cls input (k + 1)) := by
      rw [htake]
      exact hfront.append hresult.perm
    have hsorted' : (front ++ sorted).Pairwise c.le := by
      refine List.pairwise_append.mpr ⟨hsorted, hresult.sorted, ?_⟩
      intro a ha b hb
      have ha' := hfront.mem_iff.mp ha
      have hb' : b ∈ v.drop (startOf cls input k) := by
        rw [hback]
        exact List.mem_append_left _ (hresult.perm.mem_iff.mp hb)
      have halt := hclasses.of_mem_take ha'
      have hble := hclasses.of_mem_drop hb'
      exact hmono a (hv.mem_iff.mp (List.mem_of_mem_take ha')) b
        (hv.mem_iff.mp (List.mem_of_mem_drop hb')) (by omega)
    rw [if_pos hlt, load_endsList rfl (by omega : k < lsize + 1),
      load_endsList rfl (by omega : k + 1 < lsize + 1)]
    simp only [Run.ok_bind]
    rw [if_neg (by omega : ¬ startOf cls input (k + 1) < startOf cls input k),
      if_neg (by omega), hback, ← List.append_assoc]
    simp only [hrun, Run.ok_bind]
    exact sortClasses_spec hclasses hcls hv hmono (by omega) _ hfront' hsorted'
  · obtain rfl : k = lsize := by omega
    rw [if_neg hlt]
    have hall : startOf cls input k = v.length := by
      rw [startOf_eq_length hcls, hv.length_eq]
    rw [hall, List.take_length] at hfront
    refine ⟨front, by rw [hall, List.drop_length, List.append_nil], hsorted, hfront.trans hv⟩
termination_by lsize - k

/-! ## The whole sort -/

/-- The metric grows with the order, strictly where elements do not compare equal. -/
structure MetricAgrees (c : CompareFun α) (metric : α → ℚ) (base : List α) : Prop where
  mono : ∀ x ∈ base, ∀ y ∈ base, c.le x y → metric x ≤ metric y
  strict : ∀ x ∈ base, ∀ y ∈ base, c.compare x y < 0 → metric x < metric y

theorem MetricAgrees.sublist {metric : α → ℚ} {base base' : List α}
    (h : MetricAgrees c metric base) (hsub : base' ⊆ base) : MetricAgrees c metric base' where
  mono x hx y hy := h.mono x (hsub hx) y (hsub hy)
  strict x hx y hy := h.strict x (hsub hx) y (hsub hy)

/-- The slot of the greatest element is the first one to be looked at. -/
theorem scanned_start (hcls : ∀ x ∈ input, cls x < lsize) (hsize : 0 < lsize)
    (hpos : 0 < input.length) :
    Scanned cls lsize input (fun k => startOf cls input (k + 1)) 0 (lsize - 1) := by
  have hlast : startOf cls input (lsize - 1 + 1) = input.length := by
    rw [Nat.sub_add_cancel hsize, startOf_eq_length hcls]
  refine ⟨by omega, by simp, ?_⟩
  constructor
  · intro _
    rwa [hlast]
  · intro h
    obtain ⟨k, hk, hlow, hhigh⟩ := exists_slot_class h
    exact ⟨k, by omega, hlow, hhigh⟩

theorem distribute_sorts {base : List α} {idxMax : ℕ} (hcls : ∀ x ∈ base, cls x < lsize)
    (hmono : ∀ x ∈ base, ∀ y ∈ base, cls x < cls y → c.le x y) (hlsize : 2 ≤ lsize)
    (hmax : idxMax < base.length) :
    ∃ output, distribute c.compare cls lsize idxMax base = .ok output ∧
      IsSortingResult c base output := by
  have hzero : List.replicate lsize 0 = endsList lsize fun _ => 0 := by
    simp [endsList, List.map_const']
  have hfirst : base.countP (fun x => decide (cls x = 0)) = startOf cls base 1 := by
    rw [startOf_succ, startOf_zero, Nat.zero_add]
  have hends : [0, startOf cls base 1] = endsList 2 (startOf cls base) := by
    simp [endsList, List.range_succ]
  have hcounts : (endsList lsize fun k => base.countP fun x => decide (cls x = k)) =
      endsList lsize fun k => if k < 1 then startOf cls base (k + 1)
        else base.countP fun x => decide (cls x = k) := by
    refine List.map_congr_left fun k _ => ?_
    by_cases hk : k < 1
    · obtain rfl : k = 0 := by omega
      rw [if_pos hk, hfirst]
    · rw [if_neg hk]
  obtain ⟨hfill, hfree⟩ := filling_start hcls (List.swap_perm base 0 idxMax)
  have hscan := scanned_start hcls (by omega) (by omega)
  obtain ⟨s, ends, hpermute, hdone, hone⟩ := permuteLoop_spec hcls base.length
    (s := ⟨base.swap 0 idxMax, endsList lsize fun k => startOf cls base (k + 1), 0,
      lsize - 1, 0⟩) hfill rfl hscan (by simp only; omega) (by simp) (by omega) (by omega)
  obtain ⟨output, hsort, hresult⟩ := sortClasses_spec (c := c) (k := 0)
    (fun p x hx => hdone.classes hcls hone hx) hcls hdone.perm hmono (by omega) [] (by simp)
    (by simp)
  refine ⟨output, ?_, hresult⟩
  simp only [distribute, hzero, countClasses_spec hcls, Run.ok_bind, Nat.zero_add]
  rw [load_endsList rfl (by omega)]
  simp only [Run.ok_bind]
  rw [hfirst, hends, cumulate_spec le_rfl (by omega) hcounts]
  simp only [Run.ok_bind]
  rw [swapElements_eq_ok (by omega) hmax]
  simp only [Run.ok_bind, hpermute]
  simpa using hsort

/-- The least and the greatest element differ in the metric, unless they compare equal. -/
def ExtremesDiffer (c : CompareFun α) (metric : α → ℚ) (base : List α) : Prop :=
  ∀ x ∈ base, ∀ y ∈ base, (∀ z ∈ base, c.le x z ∧ c.le z y) → metric x = metric y → c.equiv x y

theorem MetricAgrees.extremesDiffer {metric : α → ℚ} {base : List α}
    (h : MetricAgrees c metric base) : ExtremesDiffer c metric base := by
  intro x hx y hy hbounds hsame
  by_contra hne
  have hlt : c.compare x y < 0 := lt_of_le_of_ne (hbounds y hy).1 hne
  exact (h.strict x hx y hy hlt).ne hsame

/-- What `fsort_f` does with its array once it has found `amin` and `amax`. -/
theorem fsortF_eq (factor : ℚ) (metric : α → ℚ) {base : List α} (hlong : 1 < base.length) :
    ∃ idxMin idxMax, ∃ (hmin : idxMin < base.length) (hmax : idxMax < base.length),
      (∀ x ∈ base, c.le base[idxMin] x ∧ c.le x base[idxMax]) ∧
      ∃ lsize : ℕ, 2 ≤ lsize ∧ fsortF factor c.compare metric base =
        if c.compare base[idxMin] base[idxMax] = 0 then .ok base
        else if metric base[idxMax] - metric base[idxMin] = 0 then .error .divisionByZero
        else distribute c.compare (fun x => calculateK
          (((lsize : ℚ) - 1) / (metric base[idxMax] - metric base[idxMin]))
          (metric x - metric base[idxMin]) lsize) lsize idxMax base := by
  obtain ⟨p, q, hp, hq, hextremes, hbounds⟩ := extremes_spec (c := c) base 0 0 0
    (by omega) (by omega) (by intro p hp; omega)
  refine ⟨p, q, hp, hq, hbounds, max 2 (calculateK base.length factor base.length + 1),
    le_max_left .., ?_⟩
  simp only [fsortF]
  rw [if_neg (not_le.mpr hlong), hextremes]
  simp only [Run.ok_bind, load_of_lt hp, load_of_lt hq]

/-- `fsort_f` returns a sorted permutation of its array for every `factor`. -/
theorem fsortF_sorts_of_mono (factor : ℚ) {metric : α → ℚ} {base : List α}
    (hmono : ∀ x ∈ base, ∀ y ∈ base, c.le x y → metric x ≤ metric y)
    (hdiffer : ExtremesDiffer c metric base) :
    ∃ output, fsortF factor c.compare metric base = .ok output ∧
      IsSortingResult c base output := by
  by_cases hshort : base.length ≤ 1
  · refine ⟨base, ?_, (isStableSort_of_length_le_one hshort).toIsSortingResult⟩
    simp only [fsortF]
    rw [if_pos hshort]
  · obtain ⟨p, q, hp, hq, hbounds, lsize, hlsize, heq⟩ :=
      fsortF_eq (c := c) factor metric (not_le.mp hshort)
    have hpmem : base[p] ∈ base := List.getElem_mem hp
    have hqmem : base[q] ∈ base := List.getElem_mem hq
    rw [heq]
    by_cases hequal : c.compare base[p] base[q] = 0
    · -- all elements compare equal
      rw [if_pos hequal]
      have hle : c.le base[q] base[p] := ((c.equiv_iff _ _).mp hequal).2
      refine ⟨base, rfl, List.pairwise_of_forall_mem_list ?_, List.Perm.refl base⟩
      intro x hx y hy
      exact c.le_trans (hbounds x hx).2 (c.le_trans hle (hbounds y hy).1)
    · have hstrict : metric base[p] < metric base[q] := by
        refine lt_of_le_of_ne (hmono _ hpmem _ hqmem (hbounds _ hqmem).1) ?_
        intro hsame
        exact hequal (hdiffer _ hpmem _ hqmem hbounds hsame)
      have hone : (0 : ℚ) ≤ (lsize : ℚ) - 1 := by
        have : (2 : ℚ) ≤ lsize := by exact_mod_cast hlsize
        linarith
      have hstep : 0 ≤ ((lsize : ℚ) - 1) / (metric base[q] - metric base[p]) :=
        div_nonneg hone (by linarith)
      rw [if_neg hequal, if_neg (by linarith)]
      generalize ((lsize : ℚ) - 1) / (metric base[q] - metric base[p]) = step at hstep
      generalize hclass : (fun x => calculateK step (metric x - metric base[p]) lsize) = cls
      have hcls : ∀ x ∈ base, cls x < lsize := by
        intro x _
        rw [← hclass]
        exact calculateK_lt (by omega)
      have hclsMono : ∀ x ∈ base, ∀ y ∈ base, cls x < cls y → c.le x y := by
        intro x hx y hy hlt
        by_contra hn
        have hyx := hmono y hy x hx (c.le_of_not_le hn)
        have hle : cls y ≤ cls x := by
          rw [← hclass]
          exact calculateK_mono hstep (by linarith)
        omega
      exact distribute_sorts hcls hclsMono hlsize hq

theorem fsortF_sorts (factor : ℚ) {metric : α → ℚ} {base : List α}
    (hmetric : MetricAgrees c metric base) :
    ∃ output, fsortF factor c.compare metric base = .ok output ∧
      IsSortingResult c base output :=
  fsortF_sorts_of_mono factor hmetric.mono hmetric.extremesDiffer

/-- `fsort_r` returns a sorted permutation of its array. -/
theorem fsortR_sorts {metric : α → ℚ} {base : List α} (hmetric : MetricAgrees c metric base) :
    ∃ output, fsortR c.compare metric base = .ok output ∧ IsSortingResult c base output :=
  fsortF_sorts _ hmetric

end SysProg.Fsort
