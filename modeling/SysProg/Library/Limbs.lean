import Mathlib

/-! # Numbers of several limbs

An operation on two limbs with a carry is chained along two lists of limbs, the least
significant limb first. What it computes of one limb, the chain computes of the numbers. -/

namespace SysProg.Limbs

variable {α κ : Type*}

/-- The operation on one limb after the other; each of them passes its carry on. -/
def chain (op : α → α → κ → α × κ) : List α → List α → κ → List α × κ
  | x :: xs, y :: ys, carry =>
      let limb := op x y carry
      let rest := chain op xs ys limb.2
      (limb.1 :: rest.1, rest.2)
  | _, _, carry => ([], carry)

/-- The number of the limbs in base `b`. -/
def value (b : ℕ) (digit : α → ℕ) (xs : List α) : ℕ :=
  Nat.ofDigits b (xs.map digit)

/-- Addition (`sign = 1`) or subtraction (`sign = -1`) of limbs. The carry counts `b`, and it
is 0 or 1. -/
structure Computes (sign : ℤ) (b : ℕ) (digit : α → ℕ) (flag : κ → ℕ)
    (op : α → α → κ → α × κ) : Prop where
  flag_le : ∀ x y carry, flag carry ≤ 1 → flag (op x y carry).2 ≤ 1
  digit_eq : ∀ x y carry, flag carry ≤ 1 →
    (digit (op x y carry).1 : ℤ) =
      digit x + sign * (digit y + flag carry - b * flag (op x y carry).2)

variable {sign : ℤ} {b : ℕ} {digit : α → ℕ} {flag : κ → ℕ} {op op' : α → α → κ → α × κ}

@[simp] theorem value_nil : value b digit [] = 0 :=
  rfl

@[simp] theorem value_cons (x : α) (xs : List α) :
    value b digit (x :: xs) = digit x + b * value b digit xs := by
  simp [value, Nat.ofDigits_cons]

theorem chain_length {xs ys : List α} (hlength : xs.length = ys.length) (carry : κ) :
    (chain op xs ys carry).1.length = xs.length := by
  induction xs generalizing ys carry with
  | nil => cases ys <;> rfl
  | cons x xs ih =>
      cases ys with
      | nil => cases hlength
      | cons y ys => simp [chain, ih (Nat.succ.inj hlength)]

theorem Computes.chain_flag (h : Computes sign b digit flag op) {xs ys : List α}
    {carry : κ} (hcarry : flag carry ≤ 1) : flag (chain op xs ys carry).2 ≤ 1 := by
  induction xs generalizing ys carry with
  | nil => simpa only [chain] using hcarry
  | cons x xs ih =>
      cases ys with
      | nil => simpa only [chain] using hcarry
      | cons y ys => exact ih (h.flag_le x y carry hcarry)

/-- The carry of the chain counts the base of the whole number. -/
theorem Computes.chain_value (h : Computes sign b digit flag op) {xs ys : List α}
    (hlength : xs.length = ys.length) {carry : κ} (hcarry : flag carry ≤ 1) :
    (value b digit (chain op xs ys carry).1 : ℤ) = value b digit xs +
      sign * (value b digit ys + flag carry - b ^ xs.length * flag (chain op xs ys carry).2) := by
  induction xs generalizing ys carry with
  | nil =>
      cases ys with
      | nil => simp [chain]
      | cons y ys => cases hlength
  | cons x xs ih =>
      cases ys with
      | nil => cases hlength
      | cons y ys =>
          have hlimb := h.digit_eq x y carry hcarry
          have hrest := ih (Nat.succ.inj hlength) (h.flag_le x y carry hcarry)
          simp only [chain, value_cons, Nat.cast_add, Nat.cast_mul, List.length_cons, pow_succ]
          rw [hlimb, hrest]
          ring

/-- What undoes the operation limb by limb undoes the chain, and ends with the same carry. -/
theorem chain_undo (valid : κ → Prop)
    (hvalid : ∀ x y carry, valid carry → valid (op x y carry).2)
    (hundo : ∀ x y carry, valid carry → op' (op x y carry).1 y carry = (x, (op x y carry).2))
    {xs ys : List α} (hlength : xs.length = ys.length) {carry : κ} (hcarry : valid carry) :
    chain op' (chain op xs ys carry).1 ys carry = (xs, (chain op xs ys carry).2) := by
  induction xs generalizing ys carry with
  | nil => cases ys <;> simp [chain]
  | cons x xs ih =>
      cases ys with
      | nil => cases hlength
      | cons y ys =>
          have hrest := ih (Nat.succ.inj hlength) (hvalid x y carry hcarry)
          simp only [chain, hundo x y carry hcarry, hrest]

end SysProg.Limbs
