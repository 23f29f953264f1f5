import Mathlib

/-! # Counts in machine words

A counter of 64 bits goes round. It is read back exactly if its last value fits, whatever it has
been on the way. -/

namespace SysProg

/-- A `long`. -/
abbrev Long :=
  BitVec 64

theorem toInt_intCast {k : ℤ} (hle : -2 ^ 63 ≤ k) (hlt : k < 2 ^ 63) : (k : Long).toInt = k := by
  rw [show (k : Long) = BitVec.ofInt 64 k from rfl, BitVec.toInt_ofInt]
  exact Int.bmod_eq_of_le_mul_two (by omega) (by omega)

theorem toInt_natCast {k : ℕ} (hk : k < 2 ^ 63) : (k : Long).toInt = k := by
  have hcast : (k : Long) = ((k : ℤ) : Long) := (Int.cast_natCast k).symm
  rw [hcast, toInt_intCast (by omega) (by exact_mod_cast hk)]

@[simp] theorem intCast_toInt (x : Long) : ((x.toInt : ℤ) : Long) = x :=
  BitVec.ofInt_toInt

/-- The counter has gone up by `k`: modulo `2 ^ 64`, and exactly if a `long` can hold the sum. -/
structure Raised (before after : Long) (k : ℕ) : Prop where
  wraps : after = before + k
  exact : before.toInt + k < 2 ^ 63 → after.toInt = before.toInt + k

theorem raised_add (before : Long) (k : ℕ) : Raised before (before + k) k := by
  refine ⟨rfl, ?_⟩
  intro hlt
  have hle := BitVec.le_toInt before
  have hsum : before + (k : Long) = ((before.toInt + k : ℤ) : Long) := by
    rw [Int.cast_add, intCast_toInt, Int.cast_natCast]
  rw [hsum, toInt_intCast (by omega) hlt]

end SysProg
