import SysProg.Library.Simpson
import SysProg.Model.SimpsonIntegration
import SysProg.Verification.Text.Decimal

/-! # Simpson integration of cubic functions

As long as `2 * n` is in the range of `Int`, `integrate` is the sum of Simpson's rule over
`n` intervals, which is exact for cubic functions. -/

namespace SysProg.SimpsonIntegration

open Polynomial Transmission

theorem rangeTo_zero (n : ℕ) :
    rangeTo 0 ((n : ℤ) - 1) = (List.range n).map fun k : ℕ => (k : ℤ) := by
  rw [rangeTo, show ((n : ℤ) - 1 + 1 - 0).toNat = n by omega]
  simp

/-- What the variable `sum` holds after `n` turns. -/
theorem foldl_eq_sum (g : ℕ → ℚ) (n : ℕ) :
    (List.range n).foldl (fun sum i => sum + g i) 0 = ∑ i ∈ Finset.range n, g i := by
  induction n with
  | zero => rfl
  | succ n ih =>
      rw [List.range_succ, List.foldl_append, ih, Finset.sum_range_succ]
      rfl

/-- In the range of the loop `2 * i` does not overflow. -/
theorem cast_int32_two_mul {i : ℕ} (hi : (i : ℤ) < 2 ^ 30) :
    ((int32 (2 * i) : ℤ) : ℚ) = 2 * i := by
  rw [int32_of_mem (by omega) (by omega)]
  push_cast
  rfl

/-- The turn for `i` adds Simpson's rule for its interval. -/
theorem turn_eq (f : ℚ → ℚ) (A step : ℚ) {i : ℕ} (hi : (i : ℤ) < 2 ^ 30) :
    step / 3 * (f (A + int32 (2 * i) * step) + 4 * f (A + int32 (2 * i) * step + step) +
      f (A + int32 (2 * i) * step + step + step)) =
      Simpson.rule f (A + 2 * i * step) step := by
  rw [cast_int32_two_mul hi, Simpson.rule, two_mul step, add_assoc (A + 2 * i * step) step step]

theorem integrate_eq_composite (f : ℚ → ℚ) (A B : ℚ) {n : ℕ} (hn : (n : ℤ) < 2 ^ 30) :
    integrate f A B n = Simpson.composite f A ((B - A) / (2 * n)) n := by
  have hturns (sum : ℚ) (i : ℕ) (hi : i ∈ List.range n) :=
    congrArg (sum + ·) (turn_eq f A ((B - A) / (2 * n)) (show (i : ℤ) < 2 ^ 30 by
      have := List.mem_range.mp hi
      omega))
  simp only [integrate]
  rw [cast_int32_two_mul hn, int32_of_mem (by omega) (by omega), rangeTo_zero, List.foldl_map,
    List.foldl_ext _ _ _ hturns]
  exact foldl_eq_sum _ n

/-- For cubic functions the result is the exact integral, which every antiderivative gives. -/
theorem integrate_exact (f : ℚ[X]) (hf : f.natDegree ≤ 3) (A B : ℚ) (n : ℤ) (hpos : 1 ≤ n)
    (hn : n < 2 ^ 30) :
    (∃ F : ℚ[X], derivative F = f) ∧
    (∀ F : ℚ[X], derivative F = f → integrate f.eval A B n = F.eval B - F.eval A) ∧
    (integrate f.eval A B n : ℝ) = ∫ x in (A : ℝ)..B, (f.map (algebraMap ℚ ℝ)).eval x := by
  obtain ⟨n, rfl⟩ : ∃ m : ℕ, n = m := ⟨n.toNat, by omega⟩
  have hexact (F : ℚ[X]) (hF : derivative F = f) :
      integrate f.eval A B n = F.eval B - F.eval A := by
    have hne : (n : ℚ) ≠ 0 := by
      have : n ≠ 0 := by omega
      exact_mod_cast this
    have hend : A + 2 * n * ((B - A) / (2 * n)) = B := by
      field_simp
      ring
    rw [integrate_eq_composite f.eval A B hn, Simpson.composite_exact hF hf, hend]
  obtain ⟨F, hF⟩ := Simpson.exists_antiderivative f
  exact ⟨⟨F, hF⟩, hexact, by rw [Simpson.integral_eval hF, hexact F hF]⟩

/-- The cube on three intervals from 2 down to -1. -/
theorem integrate_exact_cube : (∃ F : ℚ[X], derivative F = X ^ 3) ∧
    (∀ F : ℚ[X], derivative F = X ^ 3 →
      integrate (X ^ 3 : ℚ[X]).eval 2 (-1) 3 = F.eval (-1) - F.eval 2) ∧
    (integrate (X ^ 3 : ℚ[X]).eval 2 (-1) 3 : ℝ) =
      ∫ x in ((2 : ℚ) : ℝ)..(-1 : ℚ), ((X ^ 3 : ℚ[X]).map (algebraMap ℚ ℝ)).eval x :=
  integrate_exact (X ^ 3) (natDegree_X_pow_le 3) 2 (-1) 3 (by decide) (by decide)

example : integrate (fun x => x ^ 3) 2 (-1) 3 = -15 / 4 := by decide +kernel

end SysProg.SimpsonIntegration
