import SysProg.Library.DaryHeap
import SysProg.Model.HeapSort

/-! # Correctness of both heap sorts

The loops are verified for any arity and any choice of the largest child; the two
files then only have to show that their choice is one. -/

namespace SysProg.HeapSort

open List

variable {α : Type} {c : CompareFun α} {d : ℕ}

/-- The choice finds the largest of a parent with a left child and its children. -/
def SelectSpec (c : CompareFun α) (d : ℕ) (select : List α → ℕ → ℕ → Run ℕ) : Prop :=
  ∀ base root last, d * root + 1 ≤ last → last < base.length →
    ∃ s, select base root last = .ok s ∧ IsLargest c d base last root s

/-- Sifting down orders the heap, moves only entries up to `last` and only among
themselves. -/
structure SiftSpec (c : CompareFun α) (d : ℕ) (base output : List α) (start last : ℕ) :
    Prop where
  ordered : HeapOrdered c d output start last
  perm : output ~ base
  above : ∀ k, last < k → output[k]? = base[k]?
  within : ∀ k, k ≤ last → ∃ k', k' ≤ last ∧ output[k]? = base[k']?

/-- What a `sift_down` has to do for the loops around it. -/
def SiftsDown (c : CompareFun α) (d : ℕ) (sift : List α → ℕ → ℕ → Run (List α)) : Prop :=
  ∀ base root start last, HeapExcept c d base start last root → start ≤ root →
    root ≤ last → last < base.length →
    ∃ output, sift base root last = .ok output ∧ SiftSpec c d base output start last

/-! ## Sifting down -/

theorem SiftSpec.swap {base output : List α} {start last root s : ℕ}
    (h : SiftSpec c d (base.swap root s) output start last) (hr : root ≤ last)
    (hs : s ≤ last) (hlast : last < base.length) : SiftSpec c d base output start last := by
  have hget := getElem?_swap base (hr.trans_lt hlast) (hs.trans_lt hlast)
  refine ⟨h.ordered, h.perm.trans (List.swap_perm base root s), ?_, ?_⟩
  · intro k hk
    rw [h.above k hk, hget, if_neg (by omega), if_neg (by omega)]
  · intro k hk
    obtain ⟨k', hk', hout⟩ := h.within k hk
    rw [hget] at hout
    split at hout
    · exact ⟨s, hs, hout⟩
    · split at hout
      · exact ⟨root, hr, hout⟩
      · exact ⟨k', hk', hout⟩

theorem siftSpec_refl {base : List α} {start last : ℕ}
    (h : HeapOrdered c d base start last) : SiftSpec c d base base start last :=
  ⟨h, List.Perm.refl base, fun _ _ => rfl, fun k hk => ⟨k, hk, rfl⟩⟩

theorem siftLoop_spec {select : List α → ℕ → ℕ → Run ℕ} (hselect : SelectSpec c d select)
    {start last : ℕ} (fuel : ℕ) (base : List α) (root : ℕ)
    (h : HeapExcept c d base start last root) (hstart : start ≤ root) (hroot : root ≤ last)
    (hlast : last < base.length) (hfuel : last < root + fuel) :
    ∃ output, siftLoop d select last fuel base root = .ok output ∧
      SiftSpec c d base output start last := by
  induction fuel generalizing base root with
  | zero => omega
  | succ fuel ih =>
      rw [siftLoop]
      by_cases hleaf : d * root + 1 > last
      · refine ⟨base, by rw [if_pos hleaf], siftSpec_refl (h.finish_leaf ?_)⟩
        intro i hi0 hpar
        have hmul : d * root ≤ i - 1 := by
          rw [← hpar, parent, Nat.mul_comm]
          exact Nat.div_mul_le_self _ _
        omega
      · rw [if_neg hleaf]
        obtain ⟨s, hsel, hlarge⟩ := hselect base root last (by omega) hlast
        simp only [hsel, Run.ok_bind]
        by_cases hne : s = root
        · subst hne
          exact ⟨base, by simp, siftSpec_refl (h.finish hlarge)⟩
        · obtain ⟨hs0, hsp⟩ := hlarge.family.resolve_left hne
          have hrs : root < s := hsp ▸ parent_lt hs0
          have hs : s ≤ last := hlarge.bound
          have hmove := h.move hlarge hne hstart hlast
          obtain ⟨output, hrun, hspec⟩ := ih (base.swap root s) s hmove (by omega) hs
            (by simpa using hlast) (by omega)
          refine ⟨output, ?_, hspec.swap hroot hs hlast⟩
          rw [if_pos hne, swapElements_eq_ok (by omega) (by omega), Run.ok_bind, hrun]

theorem siftDownWith_spec {select : List α → ℕ → ℕ → Run ℕ}
    (hselect : SelectSpec c d select) :
    SiftsDown c d (siftDownWith d select) := by
  intro base root start last h hstart hroot hlast
  exact siftLoop_spec hselect (last + 1) base root h hstart hroot hlast (by omega)

/-! ## Building the heap -/

theorem heapifyFrom_spec {sift : List α → ℕ → ℕ → Run (List α)} (hsift : SiftsDown c d sift)
    {last : ℕ} (i : ℕ) (base : List α) (h : HeapOrdered c d base (i + 1) last)
    (hi : i ≤ last) (hlast : last < base.length) :
    ∃ output, heapifyFrom sift last i base = .ok output ∧
      HeapOrdered c d output 0 last ∧ output ~ base := by
  induction i generalizing base with
  | zero =>
      obtain ⟨output, hrun, hspec⟩ := hsift base 0 0 last h.extend le_rfl hi hlast
      exact ⟨output, hrun, hspec.ordered, hspec.perm⟩
  | succ i ih =>
      obtain ⟨next, hrun, hspec⟩ :=
        hsift base (i + 1) (i + 1) last h.extend le_rfl hi hlast
      obtain ⟨output, hrest, hordered, hperm⟩ :=
        ih next hspec.ordered (by omega) (by simpa [hspec.perm.length_eq] using hlast)
      refine ⟨output, ?_, hordered, hperm.trans hspec.perm⟩
      rw [heapifyFrom, hrun, Run.ok_bind, hrest]

theorem heapifyWith_spec {sift : List α → ℕ → ℕ → Run (List α)} (hsift : SiftsDown c d sift)
    (base : List α) (hne : 0 < base.length) :
    ∃ output, heapifyWith d sift base = .ok output ∧
      HeapOrdered c d output 0 (base.length - 1) ∧ output ~ base := by
  have hbound : (base.length - 1 - 1) / d ≤ base.length - 1 := by
    have hdiv : (base.length - 1 - 1) / d ≤ base.length - 1 - 1 := Nat.div_le_self _ _
    omega
  exact heapifyFrom_spec hsift _ base (heapOrdered_leaves base (base.length - 1)) hbound
    (by omega)

/-! ## Taking the maximum away -/

/-- Behind `last` the array is sorted and dominates everything before. -/
def SettledAbove (c : CompareFun α) (xs : List α) (last : ℕ) : Prop :=
  ∀ i j, i < j → last < j → LeAt c xs i j

theorem SettledAbove.swap {xs : List α} {last : ℕ} (h : SettledAbove c xs (last + 1))
    (hheap : HeapOrdered c d xs 0 (last + 1)) (hlast : last + 1 < xs.length) :
    SettledAbove c (xs.swap 0 (last + 1)) last := by
  intro i j hij hj
  have hget := getElem?_swap xs (show 0 < xs.length by omega) hlast
  have hj0 : j ≠ 0 := by omega
  simp only [LeAt, hget, hj0, ite_false]
  by_cases hjl : j = last + 1
  · have hil : i ≠ last + 1 := by omega
    rw [if_pos hjl]
    split
    · exact hheap.le_root hlast (last + 1) le_rfl
    · exact hheap.le_root hlast i (by omega)
  · rw [if_neg hjl]
    split
    · exact h (last + 1) j (by omega) (by omega)
    · split
      · exact h 0 j (by omega) (by omega)
      · exact h i j hij (by omega)

theorem SettledAbove.sift {xs ys : List α} {last : ℕ} (h : SettledAbove c xs last)
    (hspec : SiftSpec c d xs ys 0 last) : SettledAbove c ys last := by
  intro i j hij hj
  simp only [LeAt, hspec.above j hj]
  by_cases hi : i ≤ last
  · obtain ⟨k, hk, hout⟩ := hspec.within i hi
    rw [hout]
    exact h k j (by omega) hj
  · rw [hspec.above i (by omega)]
    exact h i j hij hj

theorem SettledAbove.sorted {xs : List α} (h : SettledAbove c xs 0) :
    xs.Pairwise c.le := by
  rw [List.pairwise_iff_getElem]
  intro i j hi hj hij
  exact h i j hij (by omega) _ (by simp [hi]) _ (by simp [hj])

theorem extractFrom_spec {sift : List α → ℕ → ℕ → Run (List α)} (hsift : SiftsDown c d sift)
    (last : ℕ) (base : List α) (hheap : HeapOrdered c d base 0 last)
    (hsettled : SettledAbove c base last) (hlast : last < base.length) :
    ∃ output, extractFrom sift last base = .ok output ∧ IsSortingResult c base output := by
  induction last generalizing base with
  | zero => exact ⟨base, rfl, hsettled.sorted, List.Perm.refl base⟩
  | succ last ih =>
      have hlength : last < (base.swap 0 (last + 1)).length := by
        rw [List.length_swap]
        omega
      obtain ⟨next, hrun, hspec⟩ := hsift (base.swap 0 (last + 1)) 0 0 last
        (hheap.shrink hlast) le_rfl (Nat.zero_le _) hlength
      obtain ⟨output, hrest, hsorted, hperm⟩ := ih next hspec.ordered
        ((hsettled.swap hheap hlast).sift hspec) (by rw [hspec.perm.length_eq]; exact hlength)
      refine ⟨output, ?_, hsorted, hperm.trans (hspec.perm.trans (List.swap_perm _ _ _))⟩
      rw [extractFrom, swapElements_eq_ok (by omega) hlast, Run.ok_bind, hrun, Run.ok_bind,
        hrest]

theorem hsortWith_spec {sift : List α → ℕ → ℕ → Run (List α)} (hsift : SiftsDown c d sift)
    (base : List α) :
    ∃ output, hsortWith d sift base = .ok output ∧ IsSortingResult c base output := by
  unfold hsortWith
  split
  · exact ⟨base, rfl, (isStableSort_of_length_le_one ‹_›).toIsSortingResult⟩
  · obtain ⟨heap, hheapify, hordered, hperm⟩ := heapifyWith_spec hsift base (by omega)
    have hl : heap.length = base.length := hperm.length_eq
    have hsettled : SettledAbove c heap (base.length - 1) := by
      intro i j _ hj x _ y hy
      have hnone : heap[j]? = none := by
        rw [List.getElem?_eq_none_iff]
        omega
      simp [hnone] at hy
    obtain ⟨output, hextract, hsorted, hperm'⟩ :=
      extractFrom_spec hsift (base.length - 1) heap hordered hsettled (by omega)
    refine ⟨output, ?_, hsorted, hperm'.trans hperm⟩
    rw [hheapify, Run.ok_bind, hl, hextract]

/-! ## The two choices -/

/-- The larger of two entries dominates both. -/
theorem largerOf_spec (base : List α) (swap child : ℕ) (hs : swap < base.length)
    (hc : child < base.length) :
    ∃ s, largerOf c.compare base swap child = .ok s ∧ (s = swap ∨ s = child) ∧
      LeAt c base swap s ∧ LeAt c base child s := by
  simp only [largerOf, load_of_lt hs, load_of_lt hc, Run.ok_bind]
  by_cases hlt : c.compare base[swap] base[child] < 0
  · refine ⟨child, by rw [if_pos hlt], .inr rfl, ?_, LeAt.refl base child⟩
    intro x hx y hy
    simp only [hs, hc, getElem?_pos, Option.mem_def, Option.some.injEq] at hx hy
    rw [← hx, ← hy]
    exact c.le_of_lt hlt
  · refine ⟨swap, by rw [if_neg hlt], .inl rfl, LeAt.refl base swap, ?_⟩
    intro x hx y hy
    simp only [hs, hc, getElem?_pos, Option.mem_def, Option.some.injEq] at hx hy
    rw [← hx, ← hy]
    exact c.le_of_not_lt hlt

theorem child_eq {d i root : ℕ} (hd : 0 < d) (hi : 0 < i) (h : parent d i = root) :
    d * root + 1 ≤ i ∧ i < d * root + 1 + d := by
  have hdiv := Nat.div_add_mod (i - 1) d
  have hmod := Nat.mod_lt (i - 1) hd
  rw [parent] at h
  rw [h] at hdiv
  omega

theorem parent_child {d root k : ℕ} (hk : k < d) : parent d (d * root + 1 + k) = root := by
  rw [parent, show d * root + 1 + k - 1 = k + d * root by omega,
    Nat.add_mul_div_left k root (by omega), Nat.div_eq_of_lt hk, Nat.zero_add]

theorem selectChild_spec (c : CompareFun α) : SelectSpec c 2 (selectChild c.compare) := by
  intro base root last hleft hlast
  obtain ⟨s, hs, hcase, hroot, hchild⟩ :=
    largerOf_spec (c := c) base root (2 * root + 1) (by omega) (by omega)
  have hsl : s < base.length := by omega
  simp only [selectChild, hs, Run.ok_bind]
  have hp₁ : parent 2 (2 * root + 1) = root := parent_child (k := 0) (by omega)
  have hp₂ : parent 2 (2 * root + 1 + 1) = root := parent_child (k := 1) (by omega)
  by_cases hright : 2 * root + 1 + 1 ≤ last
  · obtain ⟨t, ht, hcase', hold, hchild'⟩ :=
      largerOf_spec (c := c) base s (2 * root + 1 + 1) hsl (by omega)
    refine ⟨t, by rw [if_pos hright, ht], ?_, by omega, hroot.trans hsl hold, ?_⟩
    · rcases hcase' with rfl | rfl
      · rcases hcase with rfl | rfl
        · exact .inl rfl
        · exact .inr ⟨by omega, hp₁⟩
      · exact .inr ⟨by omega, hp₂⟩
    · intro i hi0 _ hpar
      have hi := child_eq (by omega) hi0 hpar
      obtain rfl | rfl : i = 2 * root + 1 ∨ i = 2 * root + 1 + 1 := by omega
      · exact hchild.trans hsl hold
      · exact hchild'
  · refine ⟨s, by rw [if_neg hright], ?_, by omega, hroot, ?_⟩
    · rcases hcase with rfl | rfl
      · exact .inl rfl
      · exact .inr ⟨by omega, hp₁⟩
    · intro i hi0 hil hpar
      have hi := child_eq (by omega) hi0 hpar
      obtain rfl : i = 2 * root + 1 := by omega
      exact hchild

theorem ternarySelectChild_spec (c : CompareFun α) :
    SelectSpec c 3 (ternarySelectChild c.compare) := by
  intro base root last hleft hlast
  obtain ⟨s, hs, hcase, hroot, hchild⟩ :=
    largerOf_spec (c := c) base root (3 * root + 1) (by omega) (by omega)
  have hsl : s < base.length := by omega
  simp only [ternarySelectChild, hs, Run.ok_bind]
  have hp₁ : parent 3 (3 * root + 1) = root := parent_child (k := 0) (by omega)
  have hp₂ : parent 3 (3 * root + 2) = root := parent_child (k := 1) (by omega)
  have hp₃ : parent 3 (3 * root + 3) = root := parent_child (k := 2) (by omega)
  have hfamily : s = root ∨ 0 < s ∧ parent 3 s = root := by
    rcases hcase with rfl | rfl
    · exact .inl rfl
    · exact .inr ⟨by omega, hp₁⟩
  by_cases hmiddle : 3 * root + 2 ≤ last
  · obtain ⟨t, ht, hcase', hold, hchild'⟩ :=
      largerOf_spec (c := c) base s (3 * root + 2) hsl (by omega)
    have htl : t < base.length := by omega
    have hfamily' : t = root ∨ 0 < t ∧ parent 3 t = root := by
      rcases hcase' with rfl | rfl
      · exact hfamily
      · exact .inr ⟨by omega, hp₂⟩
    simp only [hmiddle, ite_true, ht, Run.ok_bind]
    by_cases hright : 3 * root + 3 ≤ last
    · obtain ⟨u, hu, hcase'', hold', hchild''⟩ :=
        largerOf_spec (c := c) base t (3 * root + 3) htl (by omega)
      refine ⟨u, by rw [if_pos hright, hu], ?_, by omega,
        (hroot.trans hsl hold).trans htl hold', ?_⟩
      · rcases hcase'' with rfl | rfl
        · exact hfamily'
        · exact .inr ⟨by omega, hp₃⟩
      · intro i hi0 _ hpar
        have hi := child_eq (by omega) hi0 hpar
        obtain rfl | rfl | rfl : i = 3 * root + 1 ∨ i = 3 * root + 2 ∨ i = 3 * root + 3 := by
          omega
        · exact (hchild.trans hsl hold).trans htl hold'
        · exact hchild'.trans htl hold'
        · exact hchild''
    · refine ⟨t, by rw [if_neg hright], hfamily', by omega, hroot.trans hsl hold, ?_⟩
      intro i hi0 hil hpar
      have hi := child_eq (by omega) hi0 hpar
      obtain rfl | rfl : i = 3 * root + 1 ∨ i = 3 * root + 2 := by omega
      · exact hchild.trans hsl hold
      · exact hchild'
  · simp only [hmiddle, ite_false]
    refine ⟨s, rfl, hfamily, by omega, hroot, ?_⟩
    intro i hi0 hil hpar
    have hi := child_eq (by omega) hi0 hpar
    obtain rfl : i = 3 * root + 1 := by omega
    exact hchild

/-- `hsort_r` returns a sorted permutation of its array. -/
theorem hsortR_sorts (c : CompareFun α) (base : List α) :
    ∃ output, hsortR c.compare base = .ok output ∧ IsSortingResult c base output :=
  hsortWith_spec (siftDownWith_spec (selectChild_spec c)) base

/-- `ternary_hsort_r` returns a sorted permutation of its array. -/
theorem ternaryHsortR_sorts (c : CompareFun α) (base : List α) :
    ∃ output, ternaryHsortR c.compare base = .ok output ∧ IsSortingResult c base output :=
  hsortWith_spec (siftDownWith_spec (ternarySelectChild_spec c)) base

/-! ## The sorts as a whole -/

theorem hsortR_correct (c : CompareFun α) (base : List α) :
    ∃ output, hsortR c.compare base = .ok output ∧ output.Perm base ∧
      output.Pairwise c.le := by
  obtain ⟨output, hrun, hsorted, hperm⟩ := hsortR_sorts c base
  exact ⟨output, hrun, hperm, hsorted⟩

theorem ternaryHsortR_correct (c : CompareFun α) (base : List α) :
    ∃ output, ternaryHsortR c.compare base = .ok output ∧ output.Perm base ∧
      output.Pairwise c.le := by
  obtain ⟨output, hrun, hsorted, hperm⟩ := ternaryHsortR_sorts c base
  exact ⟨output, hrun, hperm, hsorted⟩

end SysProg.HeapSort
