import SysProg.Library.CompareOrder
import SysProg.Model.Isort

/-! # Correctness of insertion sort -/

namespace SysProg.Isort

open List

variable {α : Type} {c : CompareFun α}

/-! ## One insertion -/

/-- The block move puts the element behind `middle` in front of it. -/
theorem shift_append (front middle rest : List α) (x : α) :
    shift (front ++ middle ++ x :: rest) (front.length + middle.length) front.length =
      .ok (front ++ x :: middle ++ rest) := by
  have hload : load (front ++ middle ++ x :: rest) (front.length + middle.length) = .ok x := by
    rw [← List.length_append]
    exact load_append_length _ _ _
  have hmoved : loadRange (front ++ middle ++ x :: rest) front.length
      (front.length + middle.length - front.length) = .ok middle :=
    loadRange_append rfl (by simp)
  -- one slot further up the block covers the last slot of `middle` and that of `x`
  obtain ⟨y, last, hsplit⟩ : ∃ y last, middle ++ [x] = y :: last := by
    cases middle <;> simp
  have hlength : middle.length = last.length := by
    simpa using congrArg List.length hsplit
  have hbase : front ++ middle ++ x :: rest = (front ++ [y]) ++ last ++ rest := by
    calc front ++ middle ++ x :: rest = front ++ (middle ++ [x]) ++ rest := by simp
      _ = front ++ (y :: last) ++ rest := by rw [hsplit]
      _ = (front ++ [y]) ++ last ++ rest := by simp
  have hstore : storeRange (front ++ middle ++ x :: rest) (front.length + 1) middle =
      .ok (front ++ [y] ++ middle ++ rest) := by
    rw [hbase]
    exact storeRange_append (by simp) hlength
  have hput : storeRange (front ++ [y] ++ middle ++ rest) front.length [x] =
      .ok (front ++ [x] ++ (middle ++ rest)) := by
    rw [List.append_assoc (front ++ [y])]
    exact storeRange_append rfl (by simp)
  simp only [shift, hload, hmoved, Run.ok_bind, hstore, hput]
  simp

/-- The scan splits the elements before `x` where the first greater one stands, if
those it has passed do not exceed `x`. -/
theorem scan_spec (front middle rest : List α) (x : α)
    (hfront : ∀ a ∈ front, c.le a x) (hmiddle : middle.Pairwise c.le) :
    ∃ low high, front ++ middle = low ++ high ∧
      scan c.compare (front ++ middle ++ x :: rest) (front.length + middle.length)
        front.length = .ok (low ++ x :: high ++ rest) ∧
      (∀ a ∈ low, c.le a x) ∧ ∀ a ∈ high, c.compare x a < 0 := by
  induction middle generalizing front with
  | nil =>
      refine ⟨front, [], rfl, ?_, hfront, by simp⟩
      rw [scan]
      simp
  | cons b middle ih =>
      have hlt : front.length < front.length + (b :: middle).length := by simp
      have hb : load (front ++ b :: middle ++ x :: rest) front.length = .ok b := by
        simp only [List.append_assoc, List.cons_append]
        exact load_append_length _ _ _
      have hx : load (front ++ b :: middle ++ x :: rest)
          (front.length + (b :: middle).length) = .ok x := by
        rw [← List.length_append]
        exact load_append_length _ _ _
      rw [scan]
      simp only [hlt, ite_true, hb, hx, Run.ok_bind]
      by_cases hgt : c.compare b x > 0
      · refine ⟨front, b :: middle, rfl, ?_, hfront, ?_⟩
        · simp only [hgt, ite_true]
          exact shift_append front (b :: middle) rest x
        · have hxb : c.compare x b < 0 := (c.neg_iff x b).mpr hgt
          intro a ha
          rcases List.mem_cons.mp ha with rfl | ha
          · exact hxb
          · exact c.lt_of_lt_of_le hxb (List.rel_of_pairwise_cons hmiddle ha)
      · have hpassed : ∀ a ∈ front ++ [b], c.le a x := by
          intro a ha
          rcases List.mem_append.mp ha with ha | ha
          · exact hfront a ha
          · rw [List.mem_singleton.mp ha]
            exact not_lt.mp hgt
        obtain ⟨low, high, hsplit, hscan, hlow, hhigh⟩ :=
          ih (front ++ [b]) hpassed hmiddle.tail
        refine ⟨low, high, by simpa using hsplit, ?_, hlow, hhigh⟩
        simp only [hgt, ite_false]
        simpa [Nat.add_assoc, Nat.add_comm 1] using hscan

/-- Inserting the next element extends a stable sort of the elements before it. -/
theorem scan_stable {done sorted : List α} (rest : List α) (x : α)
    (h : IsStableSort c done sorted) :
    ∃ next, scan c.compare (sorted ++ x :: rest) done.length 0 = .ok (next ++ rest) ∧
      IsStableSort c (done ++ [x]) next := by
  obtain ⟨low, high, hsplit, hscan, hlow, hhigh⟩ :=
    scan_spec [] sorted rest x (by simp) h.sorted
  refine ⟨low ++ x :: high, ?_, ?_⟩
  · simpa [h.length_eq] using hscan
  · rw [List.nil_append] at hsplit
    rw [hsplit] at h
    exact h.insert hlow hhigh

/-! ## The whole sort -/

theorem loop_stable (rest : List α) {done sorted : List α} (h : IsStableSort c done sorted) :
    ∃ output, loop c.compare (done.length + rest.length) (sorted ++ rest) done.length =
        .ok output ∧
      IsStableSort c (done ++ rest) output := by
  induction rest generalizing done sorted with
  | nil =>
      refine ⟨sorted, ?_, by simpa using h⟩
      rw [loop]
      simp
  | cons x rest ih =>
      obtain ⟨next, hscan, hnext⟩ := scan_stable rest x h
      obtain ⟨output, hloop, houtput⟩ := ih hnext
      refine ⟨output, ?_, by simpa using houtput⟩
      rw [loop]
      simp only [List.length_cons, Nat.lt_add_right_iff_pos, Nat.succ_pos, ite_true, hscan,
        Run.ok_bind]
      simpa [Nat.add_assoc, Nat.add_comm 1] using hloop

/-- `isort_r` returns the stable sort of its array. -/
theorem isortR_stable (c : CompareFun α) (base : List α) :
    ∃ output, isortR c.compare base = .ok output ∧ IsStableSort c base output := by
  unfold isortR
  split
  · exact ⟨base, rfl, isStableSort_of_length_le_one ‹_›⟩
  · cases base with
    | nil => simp at *
    | cons x rest =>
        have h : IsStableSort c [x] [x] := isStableSort_of_length_le_one (by simp)
        simpa [Nat.add_comm] using loop_stable rest h

/-- There is only one stable sort, and `isort_r` returns it. -/
theorem isortR_correct (c : CompareFun α) (base : List α) :
    ∃ output, isortR c.compare base = .ok output ∧ IsStableSort c base output ∧
      ∀ other, IsStableSort c base other → other = output := by
  obtain ⟨output, hrun, hstable⟩ := isortR_stable c base
  exact ⟨output, hrun, hstable, fun other hother => hother.unique hstable⟩

end SysProg.Isort
