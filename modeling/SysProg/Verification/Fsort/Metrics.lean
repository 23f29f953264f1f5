import SysProg.Model.FsortMetrics
import SysProg.Verification.Fsort.Correctness

/-! # The metrics of strings agree with `strcmp`

A metric reads a string as the digits of a number. It grows with the order of the
strings if digits are far enough apart for the digits that follow. -/

namespace SysProg

open List

/-! ## The order of strings -/

theorem strcmp_swap (left right : List UInt8) : strcmp right left = -strcmp left right := by
  induction left generalizing right with
  | nil => cases right <;> simp [strcmp]
  | cons a left ih =>
      cases right with
      | nil => simp [strcmp]
      | cons b right =>
          by_cases hab : a = b
          · subst hab
            simpa [strcmp] using ih right
          · simp only [strcmp, if_neg hab, if_neg (Ne.symm hab)]
            omega

theorem strcmp_self (str : List UInt8) : strcmp str str = 0 := by
  have hswap := strcmp_swap str str
  omega

theorem toNat_pos {a : UInt8} (h : a ≠ 0) : 0 < a.toNat := by
  rw [Nat.pos_iff_ne_zero]
  intro hzero
  exact h (UInt8.toNat_inj.mp hzero)

/-- Strings that compare equal are equal. -/
theorem eq_of_strcmp {left right : List UInt8} (hl : 0 ∉ left) (hr : 0 ∉ right)
    (h : strcmp left right = 0) : left = right := by
  induction left generalizing right with
  | nil =>
      cases right with
      | nil => rfl
      | cons b right =>
          have := toNat_pos (a := b) (by rintro rfl; simp at hr)
          simp only [strcmp] at h
          omega
  | cons a left ih =>
      cases right with
      | nil =>
          have := toNat_pos (a := a) (by rintro rfl; simp at hl)
          simp only [strcmp] at h
          omega
      | cons b right =>
          by_cases hab : a = b
          · subst hab
            simp only [strcmp, ite_true] at h
            rw [ih (List.not_mem_of_not_mem_cons hl) (List.not_mem_of_not_mem_cons hr) h]
          · simp only [strcmp, if_neg hab] at h
            exact absurd (UInt8.toNat_inj.mp (by omega)) hab

theorem strcmp_trans {xs ys zs : List UInt8} (hx : 0 ∉ xs) (hxy : strcmp xs ys ≤ 0)
    (hyz : strcmp ys zs ≤ 0) (hy : 0 ∉ ys) : strcmp xs zs ≤ 0 := by
  induction xs generalizing ys zs with
  | nil => cases zs <;> simp [strcmp]
  | cons a xs ih =>
      cases ys with
      | nil =>
          have := toNat_pos (a := a) (by rintro rfl; simp at hx)
          simp only [strcmp] at hxy
          omega
      | cons b ys =>
          cases zs with
          | nil =>
              have := toNat_pos (a := b) (by rintro rfl; simp at hy)
              simp only [strcmp] at hyz
              omega
          | cons c zs =>
              have hne : ∀ u v : UInt8, u ≠ v → u.toNat ≠ v.toNat :=
                fun u v huv heq => huv (UInt8.toNat_inj.mp heq)
              simp only [strcmp] at hxy hyz ⊢
              by_cases hab : a = b
              · subst hab
                by_cases hac : a = c
                · subst hac
                  simp only [ite_true] at hxy hyz ⊢
                  exact ih (List.not_mem_of_not_mem_cons hx) hxy hyz
                    (List.not_mem_of_not_mem_cons hy)
                · rwa [if_neg hac] at hyz ⊢
              · by_cases hbc : b = c
                · subst hbc
                  rwa [if_neg hab] at hxy ⊢
                · have hab' := hne a b hab
                  rw [if_neg hab] at hxy
                  rw [if_neg hbc] at hyz
                  rw [if_neg (by rintro rfl; omega)]
                  omega

/-- The order of the strings. -/
def strOrder : CompareFun CString where
  compare := compareStrFull
  neg_iff x y := by
    simp only [compareStrFull, strcmp_swap x.bytes y.bytes]
    omega
  trans x y z hxy hyz := strcmp_trans x.no_nul hxy hyz y.no_nul

theorem strOrder_antisymm {x y : CString} (hxy : strOrder.le x y) (hyx : strOrder.le y x) :
    x = y := by
  have hzero : strcmp x.bytes y.bytes = 0 := (strOrder.equiv_iff x y).mpr ⟨hxy, hyx⟩
  have hbytes := eq_of_strcmp x.no_nul y.no_nul hzero
  cases x
  cases y
  simpa using hbytes

/-- There is one way only to sort strings. -/
theorem sortedStrings_unique {input output output' : List CString}
    (h : IsSortingResult strOrder input output) (h' : IsSortingResult strOrder input output') :
    output = output' :=
  (h.perm.trans h'.perm.symm).eq_of_pairwise (fun _ _ _ _ => strOrder_antisymm) h.sorted h'.sorted

namespace FsortMetrics

variable {factors : UInt8 → ℚ} {divisor : ℚ}

/-! ## Strings as numbers -/

/-- The number with the given digits. -/
def value (factors : UInt8 → ℚ) (divisor : ℚ) : List UInt8 → ℚ
  | [] => 0
  | c :: rest => factors c + value factors divisor rest / divisor

theorem metricLoop_eq (hdivisor : 0 < divisor) (str : List UInt8) (result : ℚ) {factor : ℚ}
    (hfactor : 0 < factor) :
    metricLoop factors divisor str result factor = result + factor * value factors divisor str := by
  induction str generalizing result factor with
  | nil => simp [metricLoop, value]
  | cons c rest ih =>
      rw [metricLoop, if_pos hfactor, ih _ (div_pos hfactor hdivisor), value]
      ring

/-- Different digits differ by more than all that can follow them. -/
structure Digits (factors : UInt8 → ℚ) (divisor : ℚ) : Prop where
  one_lt : 1 < divisor
  zero : factors 0 = 0
  gap : ∀ a b : UInt8, a.toNat < b.toNat →
    factors 255 ≤ (divisor - 1) * (factors b - factors a)
  max_pos : 0 < factors 255

theorem Digits.mono (h : Digits factors divisor) {a b : UInt8} (hab : a.toNat < b.toNat) :
    factors a < factors b := by
  have hgap := h.gap a b hab
  have hpos : 0 < (divisor - 1) * (factors b - factors a) := h.max_pos.trans_le hgap
  have hd : 0 < divisor - 1 := by linarith [h.one_lt]
  linarith [(pos_iff_pos_of_mul_pos hpos).mp hd]

theorem Digits.le_max (h : Digits factors divisor) (a : UInt8) : factors a ≤ factors 255 := by
  by_cases ha : a = 255
  · rw [ha]
  · have hne : a.toNat ≠ 255 := fun heq => ha (UInt8.toNat_inj.mp heq)
    have hlt := a.toNat_lt
    exact (h.mono (show a.toNat < (255 : UInt8).toNat by simp; omega)).le

theorem Digits.pos (h : Digits factors divisor) {a : UInt8} (ha : a ≠ 0) : 0 < factors a := by
  rw [← h.zero]
  exact h.mono (by simpa using toNat_pos ha)

theorem Digits.nonneg (h : Digits factors divisor) (a : UInt8) : 0 ≤ factors a := by
  by_cases ha : a = 0
  · rw [ha, h.zero]
  · exact (h.pos ha).le

theorem Digits.value_nonneg (h : Digits factors divisor) (str : List UInt8) :
    0 ≤ value factors divisor str := by
  induction str with
  | nil => exact le_rfl
  | cons c rest ih =>
      exact add_nonneg (h.nonneg c) (div_nonneg ih (by linarith [h.one_lt]))

/-- What follows a digit is less than the gap to the next one. -/
theorem Digits.value_lt (h : Digits factors divisor) (str : List UInt8) :
    (divisor - 1) * (value factors divisor str / divisor) < factors 255 := by
  have hd : 0 < divisor := by linarith [h.one_lt]
  induction str with
  | nil => simpa [value] using h.max_pos
  | cons c rest ih =>
      have hc : (divisor - 1) * factors c ≤ (divisor - 1) * factors 255 :=
        mul_le_mul_of_nonneg_left (h.le_max c) (by linarith [h.one_lt])
      rw [value, ← mul_div_assoc, div_lt_iff₀ hd]
      linarith

theorem Digits.strict (h : Digits factors divisor) {left right : List UInt8}
    (hr : 0 ∉ right) (hlt : strcmp left right < 0) :
    value factors divisor left < value factors divisor right := by
  have hd : 0 < divisor := by linarith [h.one_lt]
  induction left generalizing right with
  | nil =>
      cases right with
      | nil => simp [strcmp] at hlt
      | cons b right =>
          have hb := h.pos (a := b) (by rintro rfl; simp at hr)
          exact add_pos_of_pos_of_nonneg hb (div_nonneg (h.value_nonneg right) hd.le)
  | cons a left ih =>
      cases right with
      | nil =>
          simp only [strcmp] at hlt
          omega
      | cons b right =>
          by_cases hab : a = b
          · subst hab
            simp only [strcmp, ite_true] at hlt
            have := ih (List.not_mem_of_not_mem_cons hr) hlt
            simp only [value]
            gcongr
          · simp only [strcmp, if_neg hab] at hlt
            have hgap := h.gap a b (by omega)
            have hd' : 0 < divisor - 1 := by linarith [h.one_lt]
            have hrest : value factors divisor left / divisor < factors b - factors a :=
              lt_of_mul_lt_mul_left ((h.value_lt left).trans_le hgap) hd'.le
            have := div_nonneg (h.value_nonneg right) hd.le
            simp only [value]
            linarith

/-- A metric of digits that are far enough apart agrees with the order of the strings. -/
theorem Digits.agrees (h : Digits factors divisor) (strings : List CString) :
    Fsort.MetricAgrees strOrder (fun str => metricLoop factors divisor str.bytes 0 1) strings := by
  have hvalue : ∀ str : CString, metricLoop factors divisor str.bytes 0 1 =
      value factors divisor str.bytes := by
    intro str
    rw [metricLoop_eq (by linarith [h.one_lt]) _ _ one_pos]
    ring
  have hstrict : ∀ x y : CString, strOrder.compare x y < 0 →
      value factors divisor x.bytes < value factors divisor y.bytes :=
    fun x y hxy => h.strict y.no_nul hxy
  constructor
  · intro x _ y _ hxy
    rw [hvalue, hvalue]
    by_cases hlt : strOrder.compare x y < 0
    · exact (hstrict x y hlt).le
    · rw [strOrder_antisymm hxy (strOrder.le_of_not_lt hlt)]
  · intro x _ y _ hxy
    rw [hvalue, hvalue]
    exact hstrict x y hxy

/-! ## The two metrics -/

theorem metricStrFull_agrees (strings : List CString) :
    Fsort.MetricAgrees strOrder metricStrFull strings := by
  have hmax : (255 : UInt8).toNat = 255 := rfl
  refine Digits.agrees ⟨by norm_num, by simp, ?_, by simp [hmax]⟩ strings
  intro a b hab
  have hcast : (a.toNat : ℚ) + 1 ≤ b.toNat := by exact_mod_cast hab
  rw [hmax]
  push_cast
  linarith

/-- Neighbours in the table are far enough apart. -/
theorem factorsPrintablePref_gap :
    factorsPrintablePref.IsChain fun a b => 92618502647313 + 65535 * a ≤ 65535 * b := by
  decide +kernel

theorem metricBinaryPrintablePref_agrees (strings : List CString) :
    Fsort.MetricAgrees strOrder metricBinaryPrintablePref strings := by
  have hlength : factorsPrintablePref.length = 256 := by decide +kernel
  have hfirst : factorsPrintablePref[(0 : UInt8).toNat]? = some 0 := rfl
  have hmax : factorsPrintablePref[(255 : UInt8).toNat]? = some 92618502647313 := by
    decide +kernel
  have htrans : IsTrans ℕ fun a b => 92618502647313 + 65535 * a ≤ 65535 * b :=
    ⟨fun a b c hab hbc => by omega⟩
  have hpairwise := List.isChain_iff_pairwise.mp factorsPrintablePref_gap
  refine Digits.agrees ⟨by norm_num, by rw [hfirst]; simp, ?_,
    by rw [hmax]; norm_num⟩ strings
  intro a b hab
  have ha : a.toNat < factorsPrintablePref.length := by
    rw [hlength]
    exact a.toNat_lt
  have hb : b.toNat < factorsPrintablePref.length := by
    rw [hlength]
    exact b.toNat_lt
  have hgap := List.pairwise_iff_getElem.mp hpairwise _ _ ha hb hab
  have hcast : (92618502647313 : ℚ) + 65535 * factorsPrintablePref[a.toNat] ≤
      65535 * factorsPrintablePref[b.toNat] := by exact_mod_cast hgap
  rw [hmax, List.getElem?_eq_getElem ha, List.getElem?_eq_getElem hb]
  simp only [Option.getD_some]
  push_cast
  linarith

/-- Where a metric agrees with the order of the strings, it says which of two is the smaller. -/
theorem lt_iff_of_agrees {metric : CString → ℚ}
    (h : ∀ strings, Fsort.MetricAgrees strOrder metric strings) (s t : CString) :
    metric s < metric t ↔ compareStrFull s t < 0 := by
  have hagrees := h [s, t]
  constructor
  · intro hlt
    by_contra hnot
    have hle : strOrder.le t s := strOrder.le_of_not_lt hnot
    exact hlt.not_ge (hagrees.mono t (by simp) s (by simp) hle)
  · exact hagrees.strict s (by simp) t (by simp)

/-- Both metrics are what `fsort_f` needs for strings. -/
theorem metrics_correct :
    (∀ s t, metricStrFull s < metricStrFull t ↔ compareStrFull s t < 0) ∧
      (∀ s t, metricBinaryPrintablePref s < metricBinaryPrintablePref t ↔
        compareStrFull s t < 0) ∧
      ∀ strings, Fsort.MetricAgrees strOrder metricStrFull strings ∧
        Fsort.MetricAgrees strOrder metricBinaryPrintablePref strings := by
  refine ⟨lt_iff_of_agrees metricStrFull_agrees,
    lt_iff_of_agrees metricBinaryPrintablePref_agrees, ?_⟩
  intro strings
  exact ⟨metricStrFull_agrees strings, metricBinaryPrintablePref_agrees strings⟩

end FsortMetrics

end SysProg
