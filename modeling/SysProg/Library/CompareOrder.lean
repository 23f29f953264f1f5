import Mathlib

/-! # Orders given by a C compare function

A compare function returns a negative number, zero or a positive number. Elements
that compare equal need not be equal, so a sorting result is determined only up to
the order inside each class; a stable result is determined completely. -/

namespace SysProg

open List

/-- A compare function whose sign is a total preorder. -/
structure CompareFun (α : Type*) where
  compare : α → α → ℤ
  neg_iff : ∀ x y, compare x y < 0 ↔ 0 < compare y x
  trans : ∀ x y z, compare x y ≤ 0 → compare y z ≤ 0 → compare x z ≤ 0

namespace CompareFun

variable {α : Type*} (c : CompareFun α)

/-- `x` may stand before `y`. -/
def le (x y : α) : Prop :=
  c.compare x y ≤ 0

/-- `x` and `y` compare equal. -/
def equiv (x y : α) : Prop :=
  c.compare x y = 0

instance (x y : α) : Decidable (c.le x y) :=
  inferInstanceAs (Decidable (_ ≤ _))

instance (x y : α) : Decidable (c.equiv x y) :=
  inferInstanceAs (Decidable (_ = _))

theorem not_le_iff (x y : α) : ¬ c.le x y ↔ c.compare y x < 0 := by
  simp only [le, not_le, c.neg_iff]

theorem le_of_lt {x y : α} (h : c.compare x y < 0) : c.le x y :=
  Int.le_of_lt h

theorem le_of_not_le {x y : α} (h : ¬ c.le x y) : c.le y x :=
  c.le_of_lt ((c.not_le_iff x y).mp h)

theorem le_of_not_lt {x y : α} (h : ¬ c.compare x y < 0) : c.le y x := by
  by_contra hn
  exact h ((c.not_le_iff y x).mp hn)

@[simp] theorem le_refl (x : α) : c.le x x := by
  by_contra h
  have hlt : c.compare x x < 0 := (c.not_le_iff x x).mp h
  exact h (c.le_of_lt hlt)

theorem le_total (x y : α) : c.le x y ∨ c.le y x := by
  by_cases h : c.le x y
  · exact .inl h
  · exact .inr (c.le_of_not_le h)

theorem le_trans {x y z : α} (hxy : c.le x y) (hyz : c.le y z) : c.le x z :=
  c.trans x y z hxy hyz

theorem equiv_iff (x y : α) : c.equiv x y ↔ c.le x y ∧ c.le y x := by
  have h := c.neg_iff x y
  have h' := c.neg_iff y x
  simp only [equiv, le]
  omega

@[simp] theorem equiv_refl (x : α) : c.equiv x x := by
  simp [equiv_iff]

theorem not_le_of_lt {x y : α} (h : c.compare x y < 0) : ¬ c.le y x :=
  (c.not_le_iff y x).mpr h

theorem lt_of_lt_of_le {x y z : α} (hxy : c.compare x y < 0) (hyz : c.le y z) :
    c.compare x z < 0 := by
  rw [← c.not_le_iff]
  intro hzx
  exact c.not_le_of_lt hxy (c.le_trans hyz hzx)

/-- The order of the integers. -/
def int : CompareFun ℤ where
  compare x y := x - y
  neg_iff x y := by omega
  trans x y z hxy hyz := by omega

end CompareFun

variable {α : Type*} {c : CompareFun α}

/-! ## Sorting results -/

/-- The output is a rearrangement of the input that is non-decreasing. -/
structure IsSortingResult (c : CompareFun α) (input output : List α) : Prop where
  sorted : output.Pairwise c.le
  perm : output ~ input

/-- A sorting result that keeps the original order inside each class of elements
that compare equal. -/
structure IsStableSort (c : CompareFun α) (input output : List α) : Prop
    extends IsSortingResult c input output where
  stable : ∀ x, output.filter (fun y => decide (c.equiv x y)) =
    input.filter (fun y => decide (c.equiv x y))

theorem IsSortingResult.length_eq {input output : List α}
    (h : IsSortingResult c input output) : output.length = input.length :=
  h.perm.length_eq

theorem isStableSort_of_length_le_one {xs : List α} (h : xs.length ≤ 1) :
    IsStableSort c xs xs := by
  refine ⟨⟨?_, List.Perm.refl xs⟩, fun _ => rfl⟩
  match xs, h with
  | [], _ => simp
  | [x], _ => simp

/-- Two sorted lists whose classes agree element by element are equal. -/
theorem eq_of_sorted_of_filter_eq {ys zs : List α}
    (hys : ys.Pairwise c.le) (hzs : zs.Pairwise c.le)
    (h : ∀ x, ys.filter (fun y => decide (c.equiv x y)) =
      zs.filter (fun y => decide (c.equiv x y))) : ys = zs := by
  have hmem : ∀ {us ws : List α}, (∀ x, us.filter (fun y => decide (c.equiv x y)) =
      ws.filter (fun y => decide (c.equiv x y))) → ∀ x, x ∈ us ↔ x ∈ ws := by
    intro us ws hclass x
    simpa using congrArg (x ∈ ·) (hclass x)
  induction ys generalizing zs with
  | nil =>
      cases zs with
      | nil => rfl
      | cons z zs => exact absurd ((hmem h z).mpr (by simp)) (by simp)
  | cons y ys ih =>
      cases zs with
      | nil => exact absurd ((hmem h y).mp (by simp)) (by simp)
      | cons z zs =>
          have hyz : c.le y z := by
            rcases List.mem_cons.mp ((hmem h z).mpr (by simp)) with rfl | hz
            · simp
            · exact List.rel_of_pairwise_cons hys hz
          have hzy : c.le z y := by
            rcases List.mem_cons.mp ((hmem h y).mp (by simp)) with rfl | hy
            · simp
            · exact List.rel_of_pairwise_cons hzs hy
          have hequiv : c.equiv y z := (c.equiv_iff y z).mpr ⟨hyz, hzy⟩
          have hhead : y = z := by
            have hclass := h y
            simp only [List.filter_cons, hequiv, c.equiv_refl, decide_true, ite_true,
              List.cons.injEq] at hclass
            exact hclass.1
          subst hhead
          have htail : ∀ x, ys.filter (fun w => decide (c.equiv x w)) =
              zs.filter (fun w => decide (c.equiv x w)) := by
            intro x
            have hclass := h x
            simp only [List.filter_cons] at hclass
            split at hclass
            · exact (List.cons.inj hclass).2
            · exact hclass
          exact congrArg (y :: ·) (ih hys.tail hzs.tail htail)

/-- A stable sort is determined by its input. -/
theorem IsStableSort.unique {xs ys zs : List α} (hy : IsStableSort c xs ys)
    (hz : IsStableSort c xs zs) : ys = zs :=
  eq_of_sorted_of_filter_eq hy.sorted hz.sorted
    (fun x => (hy.stable x).trans (hz.stable x).symm)

/-! ## Merging -/

/-- The test a merge makes: the left element goes first unless it is greater. -/
def CompareFun.leb (c : CompareFun α) (x y : α) : Bool :=
  decide (c.le x y)

theorem merge_sorted {xs ys : List α} (hxs : xs.Pairwise c.le) (hys : ys.Pairwise c.le) :
    (xs.merge ys c.leb).Pairwise c.le := by
  have h := @List.pairwise_merge α c.leb
    (by simpa [CompareFun.leb] using fun x y z => @CompareFun.le_trans α c x y z)
    (by simpa [CompareFun.leb] using c.le_total) xs ys
    (by simpa [CompareFun.leb] using hxs) (by simpa [CompareFun.leb] using hys)
  simpa [CompareFun.leb] using h

/-- Merging keeps the elements of one class in order, those of the left list first. -/
theorem merge_filter {xs ys : List α} (hxs : xs.Pairwise c.le) (x : α) :
    (xs.merge ys c.leb).filter (fun y => decide (c.equiv x y)) =
      xs.filter (fun y => decide (c.equiv x y)) ++
        ys.filter (fun y => decide (c.equiv x y)) := by
  induction xs generalizing ys with
  | nil => simp
  | cons a xs ihx =>
      induction ys with
      | nil => simp
      | cons b ys ihy =>
          by_cases hab : c.le a b
          · have hstep : (a :: xs).merge (b :: ys) c.leb = a :: xs.merge (b :: ys) c.leb := by
              simp [CompareFun.leb, hab]
            rw [hstep, List.filter_cons, ihx hxs.tail]
            by_cases hxa : c.equiv x a <;> simp [List.filter_cons, hxa]
          · have hstep : (a :: xs).merge (b :: ys) c.leb = b :: (a :: xs).merge ys c.leb := by
              simp [CompareFun.leb, hab]
            rw [hstep, List.filter_cons, ihy]
            by_cases hxb : c.equiv x b
            · -- `b` is smaller than every element on the left, so none is in its class
              have hlt : c.compare b a < 0 := (c.not_le_iff a b).mp hab
              have hnone : (a :: xs).filter (fun y => decide (c.equiv x y)) = [] := by
                apply List.filter_eq_nil_iff.mpr
                intro w hw
                have haw : c.le a w := by
                  rcases List.mem_cons.mp hw with rfl | hw
                  · simp
                  · exact List.rel_of_pairwise_cons hxs hw
                have hbw : c.compare b w < 0 := c.lt_of_lt_of_le hlt haw
                simp only [decide_eq_true_eq]
                intro hxw
                have hwx : c.le w x := ((c.equiv_iff x w).mp hxw).2
                have hxb' : c.le x b := ((c.equiv_iff x b).mp hxb).1
                exact c.not_le_of_lt hbw (c.le_trans hwx hxb')
              rw [hnone]
              simp [hxb]
            · simp [hxb]

theorem IsSortingResult.merge {xs ys xs' ys' : List α} (h : IsSortingResult c xs ys)
    (h' : IsSortingResult c xs' ys') :
    IsSortingResult c (xs ++ xs') (ys.merge ys' c.leb) :=
  ⟨merge_sorted h.sorted h'.sorted,
    (List.merge_perm_append c.leb).trans (h.perm.append h'.perm)⟩

theorem IsStableSort.merge {xs ys xs' ys' : List α} (h : IsStableSort c xs ys)
    (h' : IsStableSort c xs' ys') :
    IsStableSort c (xs ++ xs') (ys.merge ys' c.leb) := by
  refine ⟨h.toIsSortingResult.merge h'.toIsSortingResult, ?_⟩
  intro x
  rw [merge_filter h.sorted, h.stable, h'.stable, List.filter_append]

/-- Inserting an element behind all that do not exceed it extends a stable sort. -/
theorem IsStableSort.insert {xs front back : List α} {x : α}
    (h : IsStableSort c xs (front ++ back)) (hfront : ∀ a ∈ front, c.le a x)
    (hback : ∀ a ∈ back, c.compare x a < 0) :
    IsStableSort c (xs ++ [x]) (front ++ x :: back) := by
  have hsorted := List.pairwise_append.mp h.sorted
  refine ⟨⟨?_, ?_⟩, ?_⟩
  · refine List.pairwise_append.mpr ⟨hsorted.1, ?_, ?_⟩
    · exact List.pairwise_cons.mpr ⟨fun a ha => c.le_of_lt (hback a ha), hsorted.2.1⟩
    · intro a ha b hb
      rcases List.mem_cons.mp hb with rfl | hb
      · exact hfront a ha
      · exact hsorted.2.2 a ha b hb
  · calc front ++ x :: back ~ x :: (front ++ back) := List.perm_middle
      _ ~ x :: xs := h.perm.cons x
      _ ~ xs ++ [x] := (List.perm_append_singleton x xs).symm
  · intro y
    have hclass := h.stable y
    rw [List.filter_append] at hclass
    by_cases hyx : c.equiv y x
    · have hnone : back.filter (fun w => decide (c.equiv y w)) = [] := by
        apply List.filter_eq_nil_iff.mpr
        intro a ha
        simp only [decide_eq_true_eq]
        intro hya
        have hay : c.le a y := ((c.equiv_iff y a).mp hya).2
        have hyx' : c.le y x := ((c.equiv_iff y x).mp hyx).1
        exact c.not_le_of_lt (hback a ha) (c.le_trans hay hyx')
      rw [hnone, List.append_nil] at hclass
      simp [List.filter_append, hyx, hnone, hclass]
    · simp [List.filter_append, hyx, ← hclass]

/-- The merge sort of the standard library sorts with a C compare function. -/
theorem isSortingResult_mergeSort (c : CompareFun α) (xs : List α) :
    IsSortingResult c xs (xs.mergeSort fun x y => decide (c.compare x y ≤ 0)) := by
  refine ⟨(List.pairwise_mergeSort ?_ ?_ xs).imp fun h => of_decide_eq_true h,
    List.mergeSort_perm _ _⟩
  · intro x y z hxy hyz
    simp only [decide_eq_true_eq] at hxy hyz ⊢
    exact c.trans x y z hxy hyz
  · intro x y
    simpa using c.le_total x y

end SysProg
