import SysProg.Library.CompareOrder

/-! # An array cut into consecutive parts

`slice xs lo hi` is the part of `xs` from `lo` up to `hi`. Boundaries cut an array into
`n` consecutive parts; what holds of sorted parts carries over to merged ones. -/

namespace SysProg

open List

variable {α : Type*}

def slice (xs : List α) (lo hi : ℕ) : List α :=
  (xs.drop lo).take (hi - lo)

theorem slice_append {xs : List α} {lo mid hi : ℕ} (h : lo ≤ mid) (h' : mid ≤ hi) :
    slice xs lo mid ++ slice xs mid hi = slice xs lo hi := by
  have hmid : xs.drop mid = (xs.drop lo).drop (mid - lo) := by
    rw [List.drop_drop, Nat.add_sub_cancel' h]
  simp only [slice, hmid]
  rw [← List.take_add, show mid - lo + (hi - mid) = hi - lo by omega]

@[simp] theorem slice_all (xs : List α) : slice xs 0 xs.length = xs := by
  simp [slice]

@[simp] theorem slice_self (xs : List α) (lo : ℕ) : slice xs lo lo = [] := by
  simp [slice]

theorem length_slice {xs : List α} {lo hi : ℕ} (h : hi ≤ xs.length) :
    (slice xs lo hi).length = hi - lo := by
  simp only [slice, List.length_take, List.length_drop]
  omega

theorem slice_infix (xs : List α) (lo hi : ℕ) : slice xs lo hi <:+: xs :=
  (List.take_prefix _ _).isInfix.trans (List.drop_suffix _ _).isInfix

/-- The places where an array of `len` elements is cut into `n` parts. -/
structure Boundaries (n len : ℕ) (bound : ℕ → ℕ) : Prop where
  zero : bound 0 = 0
  last : bound n = len
  le_succ : ∀ i < n, bound i ≤ bound (i + 1)

namespace Boundaries

variable {n len : ℕ} {bound : ℕ → ℕ}

theorem mono (h : Boundaries n len bound) {i j : ℕ} (hij : i ≤ j) (hj : j ≤ n) :
    bound i ≤ bound j := by
  induction j, hij using Nat.le_induction with
  | base => exact le_rfl
  | succ j hij ih => exact (ih (by omega)).trans (h.le_succ j (by omega))

theorem le_len (h : Boundaries n len bound) {i : ℕ} (hi : i ≤ n) : bound i ≤ len :=
  h.last ▸ h.mono hi le_rfl

/-- The first `k` parts together are the array up to the boundary `k`. -/
theorem flatten_slices (xs : List α) (h : Boundaries n len bound) {k : ℕ} (hk : k ≤ n) :
    ((List.range k).map fun i => slice xs (bound i) (bound (i + 1))).flatten =
      slice xs 0 (bound k) := by
  induction k with
  | zero => simp [h.zero]
  | succ k ih =>
      rw [List.range_succ, List.map_append, List.flatten_append, ih (by omega)]
      simpa using slice_append (Nat.zero_le _) (h.le_succ k hk)

end Boundaries

/-! ## Relations between an array and its sorted form -/

/-- A relation between input and output that merging two adjacent parts keeps. -/
structure MergeClosed (c : CompareFun α) (R : List α → List α → Prop) : Prop where
  length_eq : ∀ xs ys, R xs ys → ys.length = xs.length
  merge : ∀ xs xs' ys ys', R xs ys → R xs' ys' → R (xs ++ xs') (ys.merge ys' c.leb)

variable {c : CompareFun α}

theorem mergeClosed_isSortingResult : MergeClosed c (IsSortingResult c) where
  length_eq _ _ h := h.length_eq
  merge _ _ _ _ h h' := h.merge h'

theorem mergeClosed_isStableSort : MergeClosed c (IsStableSort c) where
  length_eq _ _ h := h.length_eq
  merge _ _ _ _ h h' := h.merge h'

/-- What a part from one boundary to another one has become. -/
def SortedPart (R : List α → List α → Prop) (xs : List α) (bound : ℕ → ℕ) (lo hi : ℕ)
    (ys : List α) : Prop :=
  R (slice xs (bound lo) (bound hi)) ys

theorem MergeClosed.combine {R : List α → List α → Prop} (h : MergeClosed c R)
    {xs : List α} {n len : ℕ} {bound : ℕ → ℕ} (hb : Boundaries n len bound)
    {lo mid hi : ℕ} (hlo : lo ≤ mid) (hmid : mid ≤ hi) (hhi : hi ≤ n) {ys zs : List α}
    (hys : SortedPart R xs bound lo mid ys) (hzs : SortedPart R xs bound mid hi zs) :
    SortedPart R xs bound lo hi (ys.merge zs c.leb) := by
  have hmerge := h.merge _ _ _ _ hys hzs
  rwa [slice_append (hb.mono hlo (by omega)) (hb.mono hmid hhi)] at hmerge

/-! ## Cells

While parts are merged, a list of cells says what each of the parts holds; a part that
has been merged into another one is `none`. -/

/-- The array of the cells. -/
def contents (cells : List (Option (List α))) : List α :=
  cells.flatMap fun cell => cell.getD []

@[simp] theorem contents_append (front back : List (Option (List α))) :
    contents (front ++ back) = contents front ++ contents back :=
  List.flatMap_append

@[simp] theorem contents_cons_some (xs : List α) (cells : List (Option (List α))) :
    contents (some xs :: cells) = xs ++ contents cells :=
  List.flatMap_cons

@[simp] theorem contents_cons_none (cells : List (Option (List α))) :
    contents (none :: cells) = contents cells :=
  List.flatMap_cons

@[simp] theorem contents_replicate (k : ℕ) :
    contents (List.replicate k (none : Option (List α))) = [] := by
  simp [contents]

/-- A list around one of its entries. -/
theorem exists_split {β : Type*} {xs : List β} {i : ℕ} {x : β} (h : xs[i]? = some x) :
    ∃ front back, xs = front ++ x :: back ∧ front.length = i := by
  obtain ⟨hi, rfl⟩ := List.getElem?_eq_some_iff.mp h
  refine ⟨xs.take i, xs.drop (i + 1), ?_, by simp; omega⟩
  rw [List.getElem_cons_drop, List.take_append_drop]

/-- A table around two of its live entries, with none in between. -/
theorem exists_split_pair {cells : List (Option (List α))} {i step : ℕ} {xs ys : List α}
    (hstep : 0 < step) (hx : cells[i]? = some (some xs))
    (hy : cells[i + step]? = some (some ys))
    (hbetween : ∀ k, i < k → k < i + step → cells[k]? = some none) :
    ∃ front back, cells =
        front ++ some xs :: (List.replicate (step - 1) none ++ some ys :: back) ∧
      front.length = i := by
  obtain ⟨front, rest, rfl, hfront⟩ := exists_split hx
  have hshift : ∀ k, (front ++ some xs :: rest)[i + 1 + k]? = rest[k]? := by
    intro k
    rw [← hfront, List.getElem?_append_right (by omega),
      show front.length + 1 + k - front.length = k + 1 by omega, List.getElem?_cons_succ]
  have hy' : rest[step - 1]? = some (some ys) := by
    rw [← hshift, show i + 1 + (step - 1) = i + step by omega]
    exact hy
  obtain ⟨middle, back, rfl, hmiddle⟩ := exists_split hy'
  refine ⟨front, back, ?_, hfront⟩
  have hnone : middle = List.replicate (step - 1) none := by
    refine List.ext_getElem? fun k => ?_
    by_cases hk : k < step - 1
    · rw [List.getElem?_replicate_of_lt hk, ← hbetween (i + 1 + k) (by omega) (by omega),
        hshift, List.getElem?_append_left (by omega)]
    · rw [List.getElem?_eq_none (by omega), List.getElem?_eq_none (by simp; omega)]
  rw [hnone]

/-- Writing to the two entries. -/
theorem set_pair {β : Type*} {front middle back : List β} {x y x' y' : β} {i j : ℕ}
    (hi : front.length = i) (hj : j = i + 1 + middle.length) :
    ((front ++ x :: (middle ++ y :: back)).set i x').set j y' =
      front ++ x' :: (middle ++ y' :: back) := by
  subst hi
  rw [List.set_append_right _ _ le_rfl, Nat.sub_self, List.set_cons_zero,
    List.set_append_right _ _ (by omega),
    show j - front.length = middle.length + 1 by omega, List.set_cons_succ,
    List.set_append_right _ _ le_rfl, Nat.sub_self, List.set_cons_zero]

/-- The parts before any of them is sorted. -/
def unsorted (n : ℕ) (base : List α) (bound : ℕ → ℕ) : List (Option (List α)) :=
  (List.range n).map fun i => some (slice base (bound i) (bound (i + 1)))

theorem getElem?_unsorted {base : List α} {bound : ℕ → ℕ} {n i : ℕ} (hi : i < n) :
    (unsorted n base bound)[i]? = some (some (slice base (bound i) (bound (i + 1)))) := by
  simp [unsorted, hi]

theorem contents_unsorted {base : List α} {bound : ℕ → ℕ} {n len k : ℕ} (hb : Boundaries n len bound) (hk : k ≤ n) :
    contents (unsorted k base bound) = slice base 0 (bound k) := by
  rw [← hb.flatten_slices base hk, contents, unsorted, List.flatMap_map]
  exact List.flatMap_def

end SysProg
