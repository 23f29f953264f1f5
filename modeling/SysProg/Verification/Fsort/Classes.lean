import SysProg.Verification.Fsort.Correctness

/-! # Metrics that do not decrease

`fsort_f` divides by the difference of the metrics of the greatest and the least element, but its
test before that compares the elements. -/

namespace SysProg.Fsort

variable {α : Type} {c : CompareFun α}

/-- A metric that does not decrease along the order. -/
structure Metric (c : CompareFun α) where
  metric : α → ℚ
  mono : ∀ x y, c.le x y → metric x ≤ metric y

/-- Flash sort returns a sorted permutation if the metric tells the extremes apart. -/
theorem fsortF_correct (factor : ℚ) (m : Metric c) (base : List α)
    (hdiffer : ExtremesDiffer c m.metric base) :
    ∃ output, fsortF factor c.compare m.metric base = .ok output ∧
      output.Perm base ∧ output.Pairwise c.le := by
  obtain ⟨output, hrun, hsorted, hperm⟩ :=
    fsortF_sorts_of_mono factor (fun x _ y _ => m.mono x y) hdiffer
  exact ⟨output, hrun, hperm, hsorted⟩

/-- A metric that does not tell the elements of a block of ten apart. -/
def tens : Metric CompareFun.int where
  metric x := (x / 10 : ℤ)
  mono x y h := by
    have hle : x ≤ y := by simpa [CompareFun.le, CompareFun.int] using h
    exact_mod_cast Int.ediv_le_ediv (by decide) hle

theorem fsortF_correct_tens : ∃ output,
    fsortF (1 / 2) CompareFun.int.compare tens.metric [25, 3, 7, 3, 18] = .ok output ∧
      output.Perm [25, 3, 7, 3, 18] ∧ output.Pairwise CompareFun.int.le := by
  refine fsortF_correct (1 / 2) tens [25, 3, 7, 3, 18] ?_
  intro x hx y hy hbounds hsame
  have hlow := (hbounds 3 (by simp)).1
  have hhigh := (hbounds 25 (by simp)).2
  simp only [CompareFun.le, CompareFun.int] at hlow hhigh
  have hsame' : x / 10 = y / 10 := by
    simpa [tens] using hsame
  omega

/-- `step` is a number, and no class is outside of `l`. -/
def ClassesDefined (factor : ℚ) (m : Metric c) (base : List α) : Prop :=
  fsortF factor c.compare m.metric base ≠ .error .divisionByZero ∧
    fsortF factor c.compare m.metric base ≠ .error .index

/-- The classes are defined exactly if the metric tells the extremes apart. -/
theorem classesDefined_iff (factor : ℚ) (m : Metric c) (base : List α) :
    ClassesDefined factor m base ↔ ExtremesDiffer c m.metric base := by
  constructor
  · intro ⟨hdivision, _⟩ x hx y hy hbounds hsame
    by_contra hne
    have hlong : 1 < base.length := by
      by_contra hshort
      obtain ⟨z, rfl⟩ : ∃ z, base = [z] := by
        refine List.length_eq_one_iff.mp ?_
        have := List.length_pos_of_mem hx
        omega
      rw [List.mem_singleton.mp hx, List.mem_singleton.mp hy] at hne
      exact hne (c.equiv_refl z)
    obtain ⟨p, q, hp, hq, hextremes, lsize, -, heq⟩ :=
      fsortF_eq (c := c) factor m.metric hlong
    have hxp := m.mono _ _ (hbounds base[p] (List.getElem_mem hp)).1
    have hpx := m.mono _ _ (hextremes x hx).1
    have hqy := m.mono _ _ (hbounds base[q] (List.getElem_mem hq)).2
    have hyq := m.mono _ _ (hextremes y hy).2
    have hzero : m.metric base[q] - m.metric base[p] = 0 := by linarith
    have hdifferent : c.compare base[p] base[q] ≠ 0 := by
      intro hequal
      have hqp := ((c.equiv_iff _ _).mp hequal).2
      refine hne ((c.equiv_iff x y).mpr ⟨(hbounds y hy).1, ?_⟩)
      exact c.le_trans (hextremes y hy).2 (c.le_trans hqp (hextremes x hx).1)
    rw [heq, if_neg hdifferent, if_pos hzero] at hdivision
    exact hdivision rfl
  · intro hdiffer
    obtain ⟨output, hrun, -⟩ := fsortF_sorts_of_mono factor (fun x _ y _ => m.mono x y) hdiffer
    constructor <;> simp [hrun]

/-- Two different numbers have the same metric. -/
theorem not_classesDefined_two :
    fsortF (42 / 100) CompareFun.int.compare tens.metric [2, 1] = .error .divisionByZero ∧
      ¬ ClassesDefined (42 / 100) tens [2, 1] := by
  have hrun : fsortF (42 / 100) CompareFun.int.compare tens.metric [2, 1] =
      .error .divisionByZero := by
    simp [fsortF, extremes, load, CompareFun.int, tens]
  exact ⟨hrun, fun h => h.1 hrun⟩

end SysProg.Fsort
