import SysProg.Model.ThreadSortShorts
import SysProg.Verification.CountShorts.Loops

/-! # Bytes and shorts

The segments of the threads are counted in bytes, and their pointers go on in shorts. -/

namespace SysProg.ThreadSortShorts

open Transmission CountShorts

/-! ## The segments -/

/-- The byte at offset `k` is in the segment. -/
def ThreadArg.Holds (arg : ThreadArg) (k : ℕ) : Prop :=
  ∃ ptr, arg.data = some ptr ∧ ptr ≤ k ∧ k < ptr + arg.size

/-- The segments lie in a buffer of the size, and each of its bytes is in one of them. -/
def Tiles (arr : List ThreadArg) (size : ℕ) : Prop :=
  (∀ arg ∈ arr, ∃ ptr, arg.data = some ptr ∧ ptr + arg.size ≤ size) ∧
    ∀ k < size, ∃! idx : ℕ, ∃ arg : ThreadArg, arr[idx]? = some arg ∧ arg.Holds k

def sizePerThread (input : Input) : ℕ :=
  sizeT ((dataSize input).tdiv input.threadCount)

/-- What thread `k` gets. -/
def segmentAt (input : Input) (k : ℕ) : ThreadArg :=
  ⟨some (2 * k * sizePerThread input),
    if k = input.threadCount - 1 then sizeT (dataSize input - k * sizePerThread input)
    else sizePerThread input⟩

theorem sizeT_sub (n : ℤ) (k : ℕ) : sizeT (sizeT n - k) = sizeT (n - k) := by
  have hpos : 0 ≤ n % 2 ^ 64 := Int.emod_nonneg _ (by norm_num)
  unfold sizeT
  rw [Int.toNat_of_nonneg hpos, Int.emod_sub_emod]

theorem partitionLoop_eq (input : Input) (n i : ℕ) (arr : List ThreadArg)
    (hn : i + n = input.threadCount) :
    partitionLoop input.threadCount (sizePerThread input) i
        (sizeT (dataSize input - i * sizePerThread input)) (2 * i * sizePerThread input) arr =
      arr ++ (List.range' i n).map (segmentAt input) := by
  induction n generalizing i arr with
  | zero =>
      rw [partitionLoop, if_neg (by omega)]
      simp
  | succ n ih =>
      have hrest : sizeT (sizeT (dataSize input - i * sizePerThread input) - sizePerThread input) =
          sizeT (dataSize input - (i + 1 : ℕ) * sizePerThread input) := by
        rw [sizeT_sub]
        push_cast
        ring_nf
      have hptr : 2 * i * sizePerThread input + 2 * sizePerThread input =
          2 * (i + 1) * sizePerThread input := by
        ring
      rw [partitionLoop, if_pos (by omega)]
      dsimp only
      rw [hrest, hptr, ih (i + 1) _ (by omega), List.range'_succ, List.map_cons, segmentAt,
        List.append_assoc, List.singleton_append]

theorem segments_eq (input : Input) :
    segments input = (List.range input.threadCount).map (segmentAt input) := by
  have h := partitionLoop_eq input input.threadCount 0 [] (Nat.zero_add _)
  rw [Nat.cast_zero, zero_mul, sub_zero, mul_zero, zero_mul, List.nil_append,
    ← List.range_eq_range'] at h
  exact h

/-! ## Their sizes -/

theorem sizeT_of_nonneg {n : ℤ} (hn : 0 ≤ n) (hlt : n < 2 ^ 64) : (sizeT n : ℤ) = n := by
  unfold sizeT
  omega

theorem dataSize_bounds (input : Input) :
    -2 ^ 31 ≤ dataSize input ∧ dataSize input < 2 ^ 31 ∧
      (dataSize input = input.file.length ∨ dataSize input + 2 ^ 32 ≤ input.file.length) := by
  unfold dataSize int32 Int.bmod
  dsimp only
  split <;> omega

/-- A positive size is not exceeded by the equal parts. -/
theorem sizePerThread_of_nonneg {input : Input} (hpos : 0 ≤ dataSize input) :
    sizePerThread input = (dataSize input).toNat / input.threadCount := by
  obtain ⟨-, hlt, -⟩ := dataSize_bounds input
  have hle : (dataSize input).toNat / input.threadCount ≤ (dataSize input).toNat :=
    Nat.div_le_self _ _
  have hdiv : (dataSize input).tdiv input.threadCount =
      ((dataSize input).toNat / input.threadCount : ℕ) := by
    rw [Int.tdiv_eq_ediv_of_nonneg hpos, Int.natCast_ediv, Int.toNat_of_nonneg hpos]
  have hcast := sizeT_of_nonneg (n := ((dataSize input).toNat / input.threadCount : ℕ))
    (Int.natCast_nonneg _) (by exact_mod_cast show _ < 2 ^ 64 by omega)
  rw [sizePerThread, hdiv]
  exact_mod_cast hcast

theorem mul_sizePerThread_le {input : Input} (hpos : 0 ≤ dataSize input) {k : ℕ}
    (hk : k ≤ input.threadCount) : (k * sizePerThread input : ℤ) ≤ dataSize input := by
  have hmul : k * sizePerThread input ≤ (dataSize input).toNat := by
    rw [sizePerThread_of_nonneg hpos]
    exact (Nat.mul_le_mul_right _ hk).trans (Nat.mul_div_le _ _)
  have hcast : ((k * sizePerThread input : ℕ) : ℤ) ≤ dataSize input := by omega
  exact_mod_cast hcast

theorem segmentAt_size (input : Input) (k : ℕ) :
    (segmentAt input k).size =
      if k = input.threadCount - 1 then sizeT (dataSize input - k * sizePerThread input)
      else sizePerThread input :=
  rfl

theorem segmentAt_size_last (input : Input) (hpos : 0 ≤ dataSize input) :
    ((segmentAt input (input.threadCount - 1)).size : ℤ) =
      dataSize input - (input.threadCount - 1 : ℕ) * sizePerThread input := by
  obtain ⟨-, hlt, -⟩ := dataSize_bounds input
  have hle := mul_sizePerThread_le hpos (k := input.threadCount - 1) (Nat.sub_le _ _)
  have hnonneg : (0 : ℤ) ≤ (input.threadCount - 1 : ℕ) * sizePerThread input :=
    mul_nonneg (Int.natCast_nonneg _) (Int.natCast_nonneg _)
  rw [segmentAt_size, if_pos (Eq.refl (input.threadCount - 1)),
    sizeT_of_nonneg (by omega) (by omega)]

end SysProg.ThreadSortShorts
