import Mathlib

/-! # Merging cells along a tree

Of `n` cells each covers first its own index only. In the phase of `step` every index
that is a multiple of `2 * step` takes over the cell `step` further on. What a cell
holds is described by a predicate `Good lo hi` for the indices from `lo` to `hi`. -/

namespace SysProg.TreeMerge

variable {β : Type*} {n : ℕ} {Good : ℕ → ℕ → β → Prop}

/-- Whether an index has a cell to take over. -/
def Active (n step : ℕ) (i : ℕ) : Prop :=
  i % (2 * step) = 0 ∧ i + step < n

instance (n step i : ℕ) : Decidable (Active n step i) :=
  inferInstanceAs (Decidable (_ ∧ _))

/-- The cells in the phase of `step`, when the indices in `done` have acted. -/
structure Cells (Good : ℕ → ℕ → β → Prop) (step : ℕ) (done : Finset (Fin n))
    (cells : List (Option β)) : Prop where
  length_eq : cells.length = n
  gone : ∀ i : Fin n, i % step ≠ 0 → cells[(i : ℕ)]? = some none
  left : ∀ i : Fin n, i % (2 * step) = 0 → ∃ x, cells[(i : ℕ)]? = some (some x) ∧
    Good i (min (i + if i ∈ done then 2 * step else step) n) x
  right : ∀ i j : Fin n, i % (2 * step) = 0 → (j : ℕ) = i + step →
    if i ∈ done then cells[(j : ℕ)]? = some none
    else ∃ y, cells[(j : ℕ)]? = some (some y) ∧ Good j (min (j + step) n) y

variable {step : ℕ} {done : Finset (Fin n)} {cells : List (Option β)}

/-- Cells that each cover their own index are ready for the first phase. -/
theorem Cells.start (hlength : cells.length = n)
    (h : ∀ i : Fin n, ∃ x, cells[(i : ℕ)]? = some (some x) ∧ Good i (i + 1) x) :
    Cells Good 1 (∅ : Finset (Fin n)) cells := by
  have hcell : ∀ i : Fin n, ∃ x, cells[(i : ℕ)]? = some (some x) ∧
      Good i (min (i + 1) n) x := by
    intro i
    rw [min_eq_left i.isLt]
    exact h i
  refine ⟨hlength, ?_, ?_, ?_⟩
  · intro i hi
    exact absurd (Nat.mod_one _) hi
  · intro i _
    simpa using hcell i
  · intro i j _ _
    simpa using hcell j

/-- The cells between an active index and the one it takes over are gone. -/
theorem Cells.between (h : Cells Good step done cells) {i : Fin n} (hi : Active n step i)
    {k : ℕ} (hk : (i : ℕ) < k) (hk' : k < i + step) : cells[k]? = some none := by
  have hmod : (i : ℕ) % step = 0 := by
    rw [← Nat.mod_mul_left_mod i 2 step, hi.1, Nat.zero_mod]
  refine h.gone ⟨k, hk'.trans hi.2⟩ ?_
  simp only
  obtain ⟨q, hq⟩ := Nat.dvd_of_mod_eq_zero hmod
  rw [show k = (k - i) + step * q by omega, Nat.add_mul_mod_self_left,
    Nat.mod_eq_of_lt (by omega)]
  omega

/-- What an active index finds. -/
theorem Cells.pair (h : Cells Good step done cells) {i : Fin n} (hi : Active n step i)
    (hdone : i ∉ done) :
    ∃ x y, cells[(i : ℕ)]? = some (some x) ∧ cells[i + step]? = some (some y) ∧
      Good i (i + step) x ∧ Good (i + step) (min (i + 2 * step) n) y := by
  obtain ⟨x, hx, hgood⟩ := h.left i hi.1
  have hy := h.right i ⟨i + step, hi.2⟩ hi.1 rfl
  rw [if_neg hdone] at hy hgood
  obtain ⟨y, hy, hgood'⟩ := hy
  refine ⟨x, y, hx, hy, ?_, ?_⟩
  · rwa [min_eq_left hi.2.le] at hgood
  · simpa only [show (i : ℕ) + step + step = i + 2 * step by omega] using hgood'

/-- An active index puts the combination into its own cell and clears the other. -/
theorem Cells.act (h : Cells Good step done cells) {i : Fin n} (hi : Active n step i)
    (hstep : 0 < step) {z : β} (hz : Good i (min (i + 2 * step) n) z) :
    Cells Good step (insert i done) ((cells.set i (some z)).set (i + step) none) := by
  have hlen := h.length_eq
  have hin : (i : ℕ) + step < n := hi.2
  have hne : (i : ℕ) + step ≠ i := by omega
  have hother : ∀ k : ℕ, k ≠ i → k ≠ i + step →
      ((cells.set i (some z)).set (i + step) none)[k]? = cells[k]? := by
    intro k hk hk'
    rw [List.getElem?_set_ne hk'.symm, List.getElem?_set_ne hk.symm]
  have hself : ((cells.set i (some z)).set (i + step) none)[(i : ℕ)]? = some (some z) := by
    rw [List.getElem?_set_ne hne, List.getElem?_set_self (by omega)]
  have hcleared : ((cells.set i (some z)).set (i + step) none)[i + step]? = some none :=
    List.getElem?_set_self (by rw [List.length_set]; omega)
  have hshift : ((i : ℕ) + step) % (2 * step) ≠ 0 := by
    obtain ⟨q, hq⟩ := Nat.dvd_of_mod_eq_zero hi.1
    rw [hq, Nat.add_comm, Nat.add_mul_mod_self_left, Nat.mod_eq_of_lt (by omega)]
    omega
  refine ⟨by simp [hlen], ?_, ?_, ?_⟩
  · intro k hk
    by_cases hki : (k : ℕ) = i + step
    · rw [hki]
      exact hcleared
    · have hki' : (k : ℕ) ≠ i := by
        intro heq
        rw [heq, ← Nat.mod_mul_left_mod i 2 step, hi.1] at hk
        exact hk (Nat.zero_mod _)
      rw [hother k hki' hki]
      exact h.gone k hk
  · intro k hk
    by_cases hki : k = i
    · subst hki
      exact ⟨z, hself, by simpa using hz⟩
    · have hki' : (k : ℕ) ≠ i := fun heq => hki (Fin.ext heq)
      have hks : (k : ℕ) ≠ i + step := by
        intro heq
        rw [heq] at hk
        exact hshift hk
      rw [hother k hki' hks]
      simpa [hki] using h.left k hk
  · intro k j hk hj
    by_cases hki : k = i
    · subst hki
      rw [if_pos (Finset.mem_insert_self _ _), hj]
      exact hcleared
    · have hki' : (k : ℕ) ≠ i := fun heq => hki (Fin.ext heq)
      have hji : (j : ℕ) ≠ i := by
        intro heq
        obtain ⟨q, hq⟩ := Nat.dvd_of_mod_eq_zero hk
        have hmod := hi.1
        rw [← heq, hj, hq, Nat.add_comm, Nat.add_mul_mod_self_left,
          Nat.mod_eq_of_lt (by omega)] at hmod
        omega
      rw [hother j hji (by omega)]
      simpa [hki] using h.right k j hk hj

/-- An index without a cell to take over leaves the cells alone. -/
theorem Cells.skip (h : Cells Good step done cells) {i : Fin n} (hi : ¬ Active n step i) :
    Cells Good step (insert i done) cells := by
  refine ⟨h.length_eq, h.gone, ?_, ?_⟩
  · intro k hk
    by_cases hki : k = i
    · subst hki
      obtain ⟨x, hx, hgood⟩ := h.left k hk
      have hend : n ≤ k + step := by
        by_contra hn
        exact hi ⟨hk, by omega⟩
      have hmin : ∀ m, step ≤ m → min ((k : ℕ) + m) n = n := by
        intro m hm
        exact min_eq_right (by omega)
      refine ⟨x, hx, ?_⟩
      split at hgood <;> split <;>
        simpa only [hmin _ le_rfl, hmin (2 * step) (by omega)] using hgood
    · simpa [hki] using h.left k hk
  · intro k j hk hj
    by_cases hki : k = i
    · subst hki
      exact absurd ⟨hk, by omega⟩ hi
    · simpa [hki] using h.right k j hk hj

/-- When all have acted, the cells are ready for the next phase. -/
theorem Cells.next (h : Cells Good step (Finset.univ : Finset (Fin n)) cells)
    (hstep : 0 < step) : Cells Good (2 * step) (∅ : Finset (Fin n)) cells := by
  have hleft : ∀ i : Fin n, (i : ℕ) % (2 * step) = 0 → ∃ x, cells[(i : ℕ)]? = some (some x) ∧
      Good i (min (i + 2 * step) n) x := by
    intro i hi
    simpa using h.left i hi
  refine ⟨h.length_eq, ?_, ?_, ?_⟩
  · intro i hi
    by_cases hmod : (i : ℕ) % step = 0
    · obtain ⟨q, hq⟩ := Nat.dvd_of_mod_eq_zero hmod
      -- an odd multiple of `step` has been taken over
      have hodd : q % 2 = 1 := by
        rw [hq, Nat.mul_comm 2 step, Nat.mul_mod_mul_left] at hi
        rcases Nat.mod_two_eq_zero_or_one q with h0 | h1
        · rw [h0] at hi
          exact absurd (Nat.mul_zero _) hi
        · exact h1
      have hpred : step * (q - 1) + step = i := by
        rw [hq, ← Nat.mul_succ]
        congr 1
        omega
      have heven : step * (q - 1) % (2 * step) = 0 := by
        rw [Nat.mul_comm 2 step, Nat.mul_mod_mul_left, show (q - 1) % 2 = 0 by omega,
          Nat.mul_zero]
      have hi' := i.isLt
      simpa using h.right ⟨step * (q - 1), by omega⟩ i heven hpred.symm
    · exact h.gone i hmod
  · intro i hi
    simpa using hleft i (by
      rw [← Nat.mod_mul_left_mod i 2 (2 * step), hi, Nat.zero_mod])
  · intro i j hi hj
    simp only [Finset.notMem_empty, ite_false]
    refine hleft j ?_
    rw [hj, Nat.add_mod_right, ← Nat.mod_mul_left_mod i 2 (2 * step), hi, Nat.zero_mod]

/-- After the last phase the first cell covers everything and the others are gone. -/
theorem Cells.finish (h : Cells Good step (Finset.univ : Finset (Fin n)) cells)
    (hstep : 0 < step) (hend : n ≤ 2 * step) (hn : 0 < n) :
    ∃ x, cells = some x :: List.replicate (n - 1) none ∧ Good 0 n x := by
  have hnext := h.next hstep
  obtain ⟨x, hx, hgood⟩ := hnext.left ⟨0, hn⟩ (Nat.zero_mod _)
  refine ⟨x, ?_, ?_⟩
  · refine List.ext_getElem? fun k => ?_
    cases k with
    | zero => simpa using hx
    | succ k =>
        by_cases hkn : k + 1 < n
        · have hgone := hnext.gone ⟨k + 1, hkn⟩ (by
            simp only
            rw [Nat.mod_eq_of_lt (by omega)]
            omega)
          simpa [show k < n - 1 by omega] using hgone
        · rw [List.getElem?_eq_none (by rw [h.length_eq]; omega),
            List.getElem?_eq_none (by simp; omega)]
  · simpa [min_eq_right hend] using hgood

/-- Different indices do not act on a common cell. -/
theorem Active.disjoint {i j : ℕ} (hi : Active n step i) (hj : Active n step j)
    (hstep : 0 < step) (hne : i ≠ j) : i ≠ j + step ∧ i + step ≠ j ∧ i + step ≠ j + step := by
  obtain ⟨p, hp⟩ := Nat.dvd_of_mod_eq_zero hi.1
  have hshift : ∀ k, (2 * step * k + step) % (2 * step) = step := by
    intro k
    rw [Nat.mul_add_mod, Nat.mod_eq_of_lt (by omega)]
  obtain ⟨q, hq⟩ := Nat.dvd_of_mod_eq_zero hj.1
  have hi' := hi.1
  have hj' := hj.1
  refine ⟨?_, ?_, by omega⟩
  · intro heq
    rw [heq, hq, hshift] at hi'
    omega
  · intro heq
    rw [← heq, hp, hshift] at hj'
    omega

end SysProg.TreeMerge
