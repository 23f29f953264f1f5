import SysProg.Model.Msort
import SysProg.Verification.Shared.MergeLoop

/-! # Correctness of merge sort -/

namespace SysProg.Msort

variable {α : Type} {c : CompareFun α}

/-! ## Sorted runs -/

/-- The output consists of stable sorts of consecutive pieces of the input, each
`step` long, except that the last one may be shorter. -/
inductive SortedRuns (c : CompareFun α) (step : ℕ) : List α → List α → Prop where
  | last {xs ys} : xs.length ≤ step → IsStableSort c xs ys → SortedRuns c step xs ys
  | cons {xs ys xs' ys'} : xs.length = step → IsStableSort c xs ys →
      SortedRuns c step xs' ys' → SortedRuns c step (xs ++ xs') (ys ++ ys')

theorem sortedRuns_one (xs : List α) : SortedRuns c 1 xs xs := by
  induction xs with
  | nil => exact .last (by simp) (isStableSort_of_length_le_one (by simp))
  | cons x xs ih =>
      have hx : IsStableSort c [x] [x] := isStableSort_of_length_le_one (by simp)
      exact .cons rfl hx ih

theorem SortedRuns.length_eq {step : ℕ} {xs ys : List α} (h : SortedRuns c step xs ys) :
    ys.length = xs.length := by
  induction h with
  | last _ hstable => exact hstable.length_eq
  | cons _ hstable _ ih => simp [hstable.length_eq, ih]

/-- One run that is long enough for the whole array is its stable sort. -/
theorem SortedRuns.stable {step : ℕ} {xs ys : List α} (h : SortedRuns c step xs ys)
    (hlength : xs.length ≤ step) : IsStableSort c xs ys := by
  cases h with
  | last _ hstable => exact hstable
  | @cons xs ys xs' ys' hfull hstable hrest =>
      have hnil : xs' = [] := by
        apply List.eq_nil_of_length_eq_zero
        simp only [List.length_append] at hlength
        omega
      have hnil' : ys' = [] := by
        apply List.eq_nil_of_length_eq_zero
        simp [hrest.length_eq, hnil]
      simpa [hnil, hnil'] using hstable

/-! ## One pass -/

/-- The loop body merges the two runs it is at. -/
theorem mergePair_append (done left right rest : List α) {nmemb step : ℕ}
    (hleft : left.length = step) (hright : right.length ≤ step)
    (hlast : right.length < step → rest = [])
    (hn : nmemb = done.length + left.length + right.length + rest.length) :
    mergePair c.compare nmemb step (done ++ left ++ right ++ rest) done.length
      (done.length + step) = .ok (done ++ left.merge right c.leb ++ rest) := by
  have hload : loadRange (done ++ left ++ right ++ rest) done.length step = .ok left := by
    rw [List.append_assoc (done ++ left)]
    exact loadRange_append rfl hleft.symm
  have hcount : (if done.length + step + step > nmemb then nmemb - (done.length + step)
      else step) = right.length := by
    by_cases hshort : right.length < step
    · have hrest : rest.length = 0 := by simp [hlast hshort]
      rw [if_pos (by omega)]
      omega
    · rw [if_neg (by omega)]
      omega
  have hload' : loadRange (done ++ left ++ right ++ rest) (done.length + step)
      right.length = .ok right :=
    loadRange_append (by simp [hleft]) rfl
  have hmerge : (left.merge right c.leb).length = (left ++ right).length :=
    (List.merge_perm_append c.leb).length_eq
  have hstore : storeRange (done ++ left ++ right ++ rest) done.length
      (left.merge right c.leb) = .ok (done ++ left.merge right c.leb ++ rest) := by
    rw [List.append_assoc done]
    exact storeRange_append rfl hmerge
  have hscratch : (left.merge right c.leb).length ≤ nmemb := by
    rw [hmerge, List.length_append]
    omega
  simp only [mergePair, hcount, hload, hload', Run.ok_bind, mergeLoop_start, hscratch,
    ite_true, hstore]

theorem pass_of_not_lt {compare : α → α → ℤ} {nmemb step : ℕ} {base : List α}
    {startLeft startRight : ℕ} (h : ¬ startRight < nmemb) :
    pass compare nmemb step base startLeft startRight = .ok base := by
  rw [pass, if_neg h]

theorem pass_of_lt {compare : α → α → ℤ} {nmemb step : ℕ} {base next : List α}
    {startLeft startRight : ℕ} (h : startRight < nmemb) (hpos : 0 < step)
    (hbound : startRight + 2 * step < 2 ^ 64)
    (hpair : mergePair compare nmemb step base startLeft startRight = .ok next) :
    pass compare nmemb step base startLeft startRight =
      pass compare nmemb step next (startLeft + 2 * step) (startRight + 2 * step) := by
  rw [pass, if_pos h, hpair, Run.ok_bind, if_neg (by omega), if_pos hbound]

/-- A pass over runs of length `step` leaves runs of twice the length. -/
theorem pass_sortedRuns {step : ℕ} (hpos : 0 < step) (hstep : step ≤ 2 ^ 62)
    {xs ys : List α} (h : SortedRuns c step xs ys) (done : List α)
    (hlength : done.length + ys.length < 2 ^ 63) :
    ∃ zs, pass c.compare (done.length + ys.length) step (done ++ ys) done.length
        (done.length + step) = .ok (done ++ zs) ∧
      SortedRuns c (2 * step) xs zs := by
  generalize hn : xs.length = n
  induction n using Nat.strong_induction_on generalizing xs ys done with
  | h n ih =>
    cases h with
    | last hshort hstable =>
        have hl := hstable.length_eq
        exact ⟨ys, pass_of_not_lt (by omega), .last (by omega) hstable⟩
    | @cons xs₁ ys₁ xs' ys' hfull hstable hrest =>
        have hl₁ := hstable.length_eq
        cases hrest with
        | last hshort hstable' =>
            have hl' := hstable'.length_eq
            simp only [List.length_append] at hlength hn ⊢
            by_cases hnil : ys' = []
            · -- no right run is left: the last left run stays as it is
              subst hnil
              have hnil' : xs' = [] := List.eq_nil_of_length_eq_zero hl'.symm
              subst hnil'
              refine ⟨ys₁, ?_, by simpa using SortedRuns.last (by omega) hstable⟩
              simp only [List.append_nil]
              exact pass_of_not_lt (by simp; omega)
            · have hpos' : 0 < ys'.length := List.length_pos_iff.mpr hnil
              have hpair := mergePair_append (c := c) done ys₁ ys' []
                (hl₁.trans hfull) (by omega) (fun _ => rfl)
                (show done.length + (ys₁.length + ys'.length) = _ by simp [Nat.add_assoc])
              simp only [List.append_nil] at hpair
              refine ⟨ys₁.merge ys' c.leb, ?_,
                .last (by simp only [List.length_append]; omega) (hstable.merge hstable')⟩
              rw [← List.append_assoc, pass_of_lt (by omega) hpos (by omega) hpair]
              exact pass_of_not_lt (by omega)
        | @cons xs₂ ys₂ xs₃ ys₃ hfull₂ hstable₂ hrest₃ =>
            have hl₂ := hstable₂.length_eq
            have hmerge : (ys₁.merge ys₂ c.leb).length = ys₁.length + ys₂.length := by
              rw [(List.merge_perm_append c.leb).length_eq, List.length_append]
            simp only [List.length_append] at hlength hn ⊢
            obtain ⟨zs, hpass, hruns⟩ := ih xs₃.length (by omega) hrest₃
              (done ++ ys₁.merge ys₂ c.leb) (by simp only [List.length_append]; omega) rfl
            have hpair := mergePair_append (c := c) done ys₁ ys₂ ys₃
              (hl₁.trans hfull) (by omega) (by omega)
              (show done.length + (ys₁.length + (ys₂.length + ys₃.length)) = _ by omega)
            refine ⟨ys₁.merge ys₂ c.leb ++ zs, ?_, ?_⟩
            · have hbase : done ++ (ys₁ ++ (ys₂ ++ ys₃)) = done ++ ys₁ ++ ys₂ ++ ys₃ := by
                simp
              have hlen : (done ++ ys₁.merge ys₂ c.leb).length = done.length + 2 * step := by
                rw [List.length_append, hmerge]
                omega
              have hnmemb : done.length + (ys₁.length + (ys₂.length + ys₃.length)) =
                  (done ++ ys₁.merge ys₂ c.leb).length + ys₃.length := by omega
              have hright : done.length + step + 2 * step =
                  (done ++ ys₁.merge ys₂ c.leb).length + step := by omega
              rw [hbase, pass_of_lt (by omega) hpos (by omega) hpair, hnmemb, hright, ← hlen,
                hpass, List.append_assoc]
            · rw [← List.append_assoc]
              exact .cons (by simp only [List.length_append]; omega)
                (hstable.merge hstable₂) hruns

/-! ## The whole sort -/

theorem passes_stable (k : ℕ) {xs ys : List α} (h : SortedRuns c (2 ^ k) xs ys)
    (hlength : ys.length < 2 ^ 63) :
    ∃ output, passes c.compare ys.length ys (2 ^ k) = .ok output ∧
      IsStableSort c xs output := by
  generalize hm : ys.length - 2 ^ k = m
  induction m using Nat.strong_induction_on generalizing k ys with
  | h m ih =>
    rw [passes]
    by_cases hlt : 2 ^ k < ys.length
    · have hk : k < 63 := (Nat.pow_lt_pow_iff_right (by norm_num)).mp (hlt.trans hlength)
      have hbound : 2 ^ k ≤ 2 ^ 62 := Nat.pow_le_pow_right (by norm_num) (by omega)
      have hpos : 0 < 2 ^ k := Nat.two_pow_pos k
      obtain ⟨zs, hpass, hruns⟩ := pass_sortedRuns hpos hbound h [] (by simpa using hlength)
      have hzs : zs.length = ys.length := hruns.length_eq.trans h.length_eq.symm
      have hdouble : 2 * 2 ^ k = 2 ^ (k + 1) := by ring
      rw [hdouble] at hruns
      obtain ⟨output, hout, hstable⟩ := ih (zs.length - 2 ^ (k + 1)) (by omega) (k + 1)
        hruns (by omega) rfl
      simp only [List.length_nil, Nat.zero_add, List.nil_append] at hpass
      refine ⟨output, ?_, hstable⟩
      rw [if_pos hlt, hpass, Run.ok_bind, if_neg (by omega), if_pos (by omega), hdouble,
        ← hzs]
      exact hout
    · refine ⟨ys, by rw [if_neg hlt], h.stable ?_⟩
      rw [← h.length_eq]
      omega

/-- `msort_r` returns the stable sort of its array. -/
theorem msortR_stable (c : CompareFun α) (base : List α) (hlength : base.length < 2 ^ 63) :
    ∃ output, msortR c.compare base = .ok output ∧ IsStableSort c base output := by
  unfold msortR
  split
  · exact ⟨base, rfl, isStableSort_of_length_le_one ‹_›⟩
  · simpa using passes_stable 0 (sortedRuns_one (c := c) base) hlength

/-- There is only one stable sort, and `msort_r` returns it. -/
theorem msortR_correct (c : CompareFun α) (base : CArray α) :
    ∃ output, msortR c.compare base.elems = .ok output ∧ IsStableSort c base.elems output ∧
      ∀ other, IsStableSort c base.elems other → other = output := by
  obtain ⟨output, hrun, hstable⟩ := msortR_stable c base.elems base.length_lt
  exact ⟨output, hrun, hstable, fun other hother => hother.unique hstable⟩

end SysProg.Msort
