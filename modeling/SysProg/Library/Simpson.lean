import Mathlib

/-! # Simpson's rule

The rule is exact for polynomials up to degree three, and so is its sum over neighbouring
intervals. -/

namespace SysProg.Simpson

open Polynomial

variable {K : Type*} [Field K]

/-- Simpson's rule for the interval from `x` to `x + 2 * h`. -/
def rule (f : K → K) (x h : K) : K :=
  h / 3 * (f x + 4 * f (x + h) + f (x + 2 * h))

/-- The rule on `n` intervals of width `2 * h` from `a` on. -/
def composite (f : K → K) (a h : K) (n : ℕ) : K :=
  ∑ i ∈ Finset.range n, rule f (a + 2 * i * h) h

variable [CharZero K] {f F : K[X]}

/-- An antiderivative has one degree more. -/
theorem natDegree_antiderivative (hF : derivative F = f) {n : ℕ} (hf : f.natDegree ≤ n) :
    F.natDegree ≤ n + 1 := by
  rw [natDegree_le_iff_coeff_eq_zero] at hf ⊢
  intro k hk
  obtain ⟨k, rfl⟩ : ∃ m, k = m + 1 := ⟨k - 1, by omega⟩
  have hcoeff := hf k (by omega)
  rw [← hF, coeff_derivative] at hcoeff
  have hk : (k : K) + 1 ≠ 0 := Nat.cast_add_one_ne_zero k
  exact (mul_eq_zero.mp hcoeff).resolve_right hk

/-- Every polynomial has an antiderivative. -/
theorem exists_antiderivative (f : K[X]) : ∃ F : K[X], derivative F = f := by
  induction f using Polynomial.induction_on' with
  | add f g hf hg =>
      obtain ⟨F, hF⟩ := hf
      obtain ⟨G, hG⟩ := hg
      exact ⟨F + G, by rw [derivative_add, hF, hG]⟩
  | monomial n a =>
      have hn : (n : K) + 1 ≠ 0 := Nat.cast_add_one_ne_zero n
      refine ⟨monomial (n + 1) (a / (n + 1)), ?_⟩
      rw [derivative_monomial, Nat.add_sub_cancel, Nat.cast_add_one, div_mul_cancel₀ a hn]

/-- The rule is exact on one interval. -/
theorem rule_exact (hF : derivative F = f) (hf : f.natDegree ≤ 3) (x h : K) :
    rule f.eval x h = F.eval (x + 2 * h) - F.eval x := by
  have hdegree := natDegree_antiderivative hF hf
  have hcoeff (k : ℕ) : f.coeff k = F.coeff (k + 1) * (k + 1) := by
    rw [← hF, coeff_derivative]
  rw [rule]
  simp only [eval_eq_sum_range' (show f.natDegree < 4 by omega),
    eval_eq_sum_range' (show F.natDegree < 5 by omega), Finset.sum_range_succ,
    Finset.sum_range_zero, hcoeff]
  field_simp
  push_cast
  ring

/-- The exact values of the intervals telescope. -/
theorem composite_exact (hF : derivative F = f) (hf : f.natDegree ≤ 3) (a h : K) (n : ℕ) :
    composite f.eval a h n = F.eval (a + 2 * n * h) - F.eval a := by
  have hinterval (i : ℕ) : rule f.eval (a + 2 * i * h) h =
      F.eval (a + 2 * (i + 1 : ℕ) * h) - F.eval (a + 2 * i * h) := by
    rw [rule_exact hF hf]
    congr 2
    push_cast
    ring
  simp only [composite, hinterval]
  rw [Finset.sum_range_sub fun i : ℕ => F.eval (a + 2 * i * h)]
  simp

/-- What an antiderivative gives is the integral. -/
theorem integral_eval {f F : ℚ[X]} (hF : derivative F = f) (A B : ℚ) :
    ∫ x in (A : ℝ)..B, (f.map (algebraMap ℚ ℝ)).eval x = (F.eval B - F.eval A : ℚ) := by
  have heval (x : ℚ) : (F.map (algebraMap ℚ ℝ)).eval (x : ℝ) = (F.eval x : ℚ) :=
    eval_map_apply (algebraMap ℚ ℝ) x
  have hderiv (x : ℝ) : HasDerivAt (F.map (algebraMap ℚ ℝ)).eval
      ((f.map (algebraMap ℚ ℝ)).eval x) x := by
    rw [← hF, ← derivative_map]
    exact (F.map (algebraMap ℚ ℝ)).hasDerivAt x
  rw [intervalIntegral.integral_eq_sub_of_hasDerivAt (fun x _ => hderiv x)
    ((f.map (algebraMap ℚ ℝ)).continuous.intervalIntegrable _ _), heval, heval,
    Rat.cast_sub]

end SysProg.Simpson
