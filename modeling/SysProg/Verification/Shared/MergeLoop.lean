import SysProg.Library.CompareOrder
import SysProg.Model.MergeLoop

/-! # The merge loop computes the merge -/

namespace SysProg

variable {α : Type}

theorem mergeLoop_eq (compare : α → α → ℤ) (left right : List α) (i j : ℕ)
    (result : List α) (hi : i ≤ left.length) (hj : j ≤ right.length) :
    mergeLoop compare left right i j result =
      result ++ (left.drop i).merge (right.drop j) (fun x y => decide (compare x y ≤ 0)) := by
  fun_induction mergeLoop compare left right i j result with
  | case1 i j result hlt hi' ih =>
      have hil : i = left.length := Nat.le_antisymm hi hi'
      rw [ih hi le_rfl, hil]
      simp
  | case2 i j result hlt hi' hj' ih =>
      have hjr : j = right.length := Nat.le_antisymm hj hj'
      rw [ih le_rfl hj, hjr]
      simp
  | case3 i j result hlt hi' hj' hle ih =>
      rw [ih (by omega) hj, List.drop_eq_getElem_cons (Nat.lt_of_not_le hi'),
        List.drop_eq_getElem_cons (Nat.lt_of_not_le hj'), List.cons_merge_cons]
      simp only [hle, decide_true, ite_true, List.append_assoc, List.singleton_append]
  | case4 i j result hlt hi' hj' hgt ih =>
      rw [ih hi (by omega), List.drop_eq_getElem_cons (Nat.lt_of_not_le hi'),
        List.drop_eq_getElem_cons (Nat.lt_of_not_le hj'), List.cons_merge_cons]
      simp only [hgt, decide_false, Bool.false_eq_true, ite_false, List.append_assoc,
        List.singleton_append]
  | case5 i j result hend =>
      have hil : i = left.length := by omega
      have hjr : j = right.length := by omega
      simp [hil, hjr]

/-- A run of the whole loop merges its two segments, left elements first on ties. -/
theorem mergeLoop_start (c : CompareFun α) (left right : List α) :
    mergeLoop c.compare left right 0 0 [] = left.merge right c.leb := by
  rw [mergeLoop_eq c.compare left right 0 0 [] (Nat.zero_le _) (Nat.zero_le _)]
  rfl

end SysProg
