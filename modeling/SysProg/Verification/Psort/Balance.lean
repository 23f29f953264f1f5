import SysProg.Verification.Psort.Correctness

/-! # The segments of the parallel sort

Every thread takes the floor of the average of what is left. The first segments have the
floor of the average of the whole array, and the last `nmemb % thread_count` segments
have one element more. -/

namespace SysProg.Psort

/-! ## Segments one behind the other -/

/-- The index belongs to the segment. -/
def SortableData.Holds (segment : SortableData) (j : ℕ) : Prop :=
  ∃ ptr, segment.base = some ptr ∧ ptr ≤ j ∧ j < ptr + segment.nmemb

/-- Each segment starts where the one before it ends. -/
inductive Consecutive : ℕ → List SortableData → ℕ → Prop where
  | nil (start : ℕ) : Consecutive start [] start
  | cons {start nmemb stop : ℕ} {segments : List SortableData} :
      Consecutive (start + nmemb) segments stop →
        Consecutive start (⟨some start, nmemb⟩ :: segments) stop

variable {segment : SortableData} {segments : List SortableData} {start stop nmemb j : ℕ}

theorem holds_iff : SortableData.Holds ⟨some start, nmemb⟩ j ↔ start ≤ j ∧ j < start + nmemb := by
  simp [SortableData.Holds]

theorem Consecutive.le (h : Consecutive start segments stop) : start ≤ stop := by
  induction h with
  | nil => exact le_rfl
  | cons _ ih => omega

/-- Together the segments hold what lies between the ends. -/
theorem Consecutive.holds (h : Consecutive start segments stop) (j : ℕ) :
    (start ≤ j ∧ j < stop) ↔ ∃ segment ∈ segments, segment.Holds j := by
  induction h with
  | nil start =>
      simp only [List.not_mem_nil, false_and, exists_false, iff_false]
      omega
  | cons h ih =>
      have := h.le
      simp only [List.mem_cons, exists_eq_or_imp, holds_iff, ← ih]
      omega

theorem Consecutive.disjoint (h : Consecutive start segments stop) :
    segments.Pairwise fun a b => ∀ j, ¬ (a.Holds j ∧ b.Holds j) := by
  induction h with
  | nil => exact .nil
  | cons h ih =>
      apply List.Pairwise.cons _ ih
      intro segment hmem j hj
      have := holds_iff.mp hj.1
      have := (h.holds j).mpr ⟨segment, hmem, hj.2⟩
      omega

/-! ## The lengths -/

/-- The invariant that relates both remainders. -/
theorem cut_eq (n len i : ℕ) (hi : i ≤ n) :
    cut n len i = i * (len / n) + (i - (n - len % n)) := by
  induction i with
  | zero => simp [cut]
  | succ i ih =>
      obtain ⟨m, rfl⟩ : ∃ m, n = i + m := ⟨n - i, by omega⟩
      have hm : 0 < m := by omega
      have hlen := Nat.div_add_mod len (i + m)
      have hmod := Nat.mod_lt len (show 0 < i + m by omega)
      rw [cut, ih (by omega), Nat.add_sub_cancel_left, Nat.add_one_mul]
      generalize len / (i + m) = q at hlen ⊢
      generalize len % (i + m) = r at hlen hmod ⊢
      rw [Nat.add_mul] at hlen
      by_cases h : r < m
      · have hrest : len - (i * q + (i - (i + m - r))) = r + m * q := by omega
        rw [hrest, Nat.add_mul_div_left _ _ hm, Nat.div_eq_of_lt h]
        omega
      · have hrest : len - (i * q + (i - (i + m - r))) = m + m * q := by omega
        rw [hrest, Nat.add_mul_div_left _ _ hm, Nat.div_self hm]
        omega

theorem cut_succ_sub (n len i : ℕ) (hi : i < n) :
    cut n len (i + 1) - cut n len i = len / n ∨
      cut n len (i + 1) - cut n len i = len / n + 1 := by
  rw [cut_eq n len (i + 1) hi, cut_eq n len i hi.le, Nat.add_one_mul]
  generalize len / n = q
  omega

/-! ## The loop -/

theorem consecutive_cut (n len i m : ℕ) :
    Consecutive (cut n len i) ((List.range' i m).map fun k =>
      ⟨some (cut n len k), cut n len (k + 1) - cut n len k⟩) (cut n len (i + m)) := by
  induction m generalizing i with
  | zero => exact .nil _
  | succ m ih =>
      have hstep : cut n len i + (cut n len (i + 1) - cut n len i) = cut n len (i + 1) := by
        simp [cut]
      have hrest := ih (i + 1)
      rw [← hstep, show i + 1 + m = i + (m + 1) by omega] at hrest
      rw [List.range'_succ, List.map_cons]
      exact .cons hrest

/-- How `psort_r` is to divide the array among its threads. -/
structure Divides (nmemb threadCount : ℕ) (segments : List SortableData) : Prop where
  length_eq : segments.length = threadCount
  consecutive : Consecutive 0 segments nmemb
  covers : ∀ j, j < nmemb ↔ ∃ segment ∈ segments, segment.Holds j
  disjoint : segments.Pairwise fun a b => ∀ j, ¬ (a.Holds j ∧ b.Holds j)
  balanced : ∀ a ∈ segments, ∀ b ∈ segments, a.nmemb ≤ b.nmemb + 1

/-- The loop neither divides by zero nor fails its assertion, also for more threads than
elements. -/
theorem partitionLoop_divides (nmemb threadCount : ℕ) (hcount : 1 ≤ threadCount) :
    ∃ segments, partitionLoop threadCount 0 threadCount nmemb 0 [] = .ok segments ∧
      Divides nmemb threadCount segments := by
  have hloop := partitionLoop_eq threadCount nmemb 0 (Nat.zero_le _) []
  have hconsecutive := consecutive_cut threadCount nmemb 0 threadCount
  rw [Nat.zero_add, cut_last threadCount nmemb hcount] at hconsecutive
  refine ⟨_, hloop, by simp, hconsecutive, ?_, hconsecutive.disjoint, ?_⟩
  · intro j
    rw [List.nil_append, Nat.sub_zero, ← hconsecutive.holds j]
    simp [cut]
  · intro a ha b hb
    simp only [List.nil_append, Nat.sub_zero, List.mem_map, List.mem_range'_1] at ha hb
    obtain ⟨i, hi, rfl⟩ := ha
    obtain ⟨k, hk, rfl⟩ := hb
    have hlen := cut_succ_sub threadCount nmemb i (by omega)
    have hlen' := cut_succ_sub threadCount nmemb k (by omega)
    show cut threadCount nmemb (i + 1) - cut threadCount nmemb i ≤
      cut threadCount nmemb (k + 1) - cut threadCount nmemb k + 1
    omega

/-- Five threads share three elements. -/
theorem partitionLoop_divides_three : ∃ segments,
    partitionLoop 5 0 5 3 0 [] = .ok segments ∧ Divides 3 5 segments :=
  partitionLoop_divides 3 5 (by decide)

end SysProg.Psort
