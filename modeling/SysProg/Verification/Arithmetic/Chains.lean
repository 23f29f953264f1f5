import SysProg.Library.Limbs
import SysProg.Model.Arithmetic

/-! # Chains of additions and subtractions

The highest bits of the operands and of the result tell whether the operation on a limb
has left the range of its type. From that `adc` and `sbb` are exact on numbers of any
length. -/

namespace SysProg.Arithmetic

/-! ## One limb -/

theorem CHECK_HIGHEST_BIT_eq (x : UInt64) :
    CHECK_HIGHEST_BIT x = if 2 ^ 63 ≤ x.toNat then 1 else 0 := by
  have hsign : x.toInt64 < 0 ↔ 2 ^ 63 ≤ x.toNat := by
    rw [Int64.lt_iff_toInt_lt]
    change x.toBitVec.toInt < 0 ↔ _
    rw [BitVec.toInt_neg_iff]
    change 2 ^ 64 ≤ 2 * x.toNat ↔ _
    omega
  simp only [CHECK_HIGHEST_BIT, hsign]

/-- If the result has its highest bit, both operands must have theirs for a carry, else one. -/
theorem adc_carry (x y : UInt64) (carry : UInt8) : (adc x y carry).carry.toNat =
    if 2 ^ 63 ≤ (adc x y carry).value.toNat then
      if 2 ^ 63 ≤ x.toNat ∧ 2 ^ 63 ≤ y.toNat then 1 else 0
    else if 2 ^ 63 ≤ x.toNat ∨ 2 ^ 63 ≤ y.toNat then 1 else 0 := by
  simp only [adc, CHECK_HIGHEST_BIT_eq]
  generalize x + y + carry.toUInt64 = z
  by_cases hx : 2 ^ 63 ≤ x.toNat <;> by_cases hy : 2 ^ 63 ≤ y.toNat <;>
    by_cases hz : 2 ^ 63 ≤ z.toNat <;> simp only [hx, hy, hz] <;> rfl

theorem sbb_carry (x y : UInt64) (carry : UInt8) : (sbb x y carry).carry.toNat =
    if 2 ^ 63 ≤ x.toNat then
      if 2 ^ 63 ≤ y.toNat ∧ 2 ^ 63 ≤ (sbb x y carry).value.toNat then 1 else 0
    else if 2 ^ 63 ≤ y.toNat ∨ 2 ^ 63 ≤ (sbb x y carry).value.toNat then 1 else 0 := by
  simp only [sbb, CHECK_HIGHEST_BIT_eq]
  generalize x - y - carry.toUInt64 = z
  by_cases hx : 2 ^ 63 ≤ x.toNat <;> by_cases hy : 2 ^ 63 ≤ y.toNat <;>
    by_cases hz : 2 ^ 63 ≤ z.toNat <;> simp only [hx, hy, hz] <;> rfl

theorem adc_value (x y : UInt64) (carry : UInt8) :
    (adc x y carry).value.toNat = (x.toNat + y.toNat + carry.toNat) % 2 ^ 64 := by
  simp [adc]

theorem sbb_value (x y : UInt64) (carry : UInt8) : (sbb x y carry).value.toNat =
    (2 ^ 64 - carry.toNat + (2 ^ 64 - y.toNat + x.toNat) % 2 ^ 64) % 2 ^ 64 := by
  simp only [sbb, UInt64.toNat_sub, UInt8.toNat_toUInt64]

/-- The check of `add_test`, for all limbs. -/
theorem adc_sum (x y : UInt64) {carry : UInt8} (hcarry : carry.toNat ≤ 1) :
    (adc x y carry).value.toNat + 2 ^ 64 * (adc x y carry).carry.toNat =
      x.toNat + y.toNat + carry.toNat := by
  have hx := x.toNat_lt
  have hy := y.toNat_lt
  have hz := adc_value x y carry
  rw [adc_carry]
  generalize (adc x y carry).value.toNat = z at hz ⊢
  split_ifs <;> omega

/-- The check of `sub_test`, for all limbs. -/
theorem sbb_difference (x y : UInt64) {carry : UInt8} (hcarry : carry.toNat ≤ 1) :
    (sbb x y carry).value.toNat + y.toNat + carry.toNat =
      x.toNat + 2 ^ 64 * (sbb x y carry).carry.toNat := by
  have hx := x.toNat_lt
  have hy := y.toNat_lt
  have hz := sbb_value x y carry
  rw [sbb_carry]
  generalize (sbb x y carry).value.toNat = z at hz ⊢
  split_ifs <;> omega

theorem adc_carry_le (x y : UInt64) (carry : UInt8) : (adc x y carry).carry.toNat ≤ 1 := by
  rw [adc_carry]
  split_ifs <;> decide

theorem sbb_carry_le (x y : UInt64) (carry : UInt8) : (sbb x y carry).carry.toNat ≤ 1 := by
  rw [sbb_carry]
  split_ifs <;> decide

def UnsignedResultWithCarry.pair (result : UnsignedResultWithCarry) : UInt64 × UInt8 :=
  (result.value, result.carry)

/-- `sbb` undoes `adc`. -/
theorem sbb_adc (x y : UInt64) {carry : UInt8} (hcarry : carry.toNat ≤ 1) :
    (sbb (adc x y carry).value y carry).pair = (x, (adc x y carry).carry) := by
  have hx := x.toNat_lt
  have hw := (sbb (adc x y carry).value y carry).value.toNat_lt
  have hsum := adc_sum x y hcarry
  have hdifference := sbb_difference (adc x y carry).value y hcarry
  apply Prod.ext
  · apply UInt64.toNat_inj.mp
    show (sbb (adc x y carry).value y carry).value.toNat = x.toNat
    omega
  · apply UInt8.toNat_inj.mp
    show (sbb (adc x y carry).value y carry).carry.toNat = (adc x y carry).carry.toNat
    omega

/-! ## Many limbs -/

/-- The number of the limbs, the least significant of which is the first one. -/
def number (xs : List UInt64) : ℕ :=
  Limbs.value (2 ^ 64) UInt64.toNat xs

/-- `adc` on one limb after the other. -/
def adcChain : List UInt64 → List UInt64 → UInt8 → List UInt64 × UInt8 :=
  Limbs.chain fun x y carry => (adc x y carry).pair

/-- `sbb` on one limb after the other. -/
def sbbChain : List UInt64 → List UInt64 → UInt8 → List UInt64 × UInt8 :=
  Limbs.chain fun x y carry => (sbb x y carry).pair

theorem adc_computes : Limbs.Computes 1 (2 ^ 64) UInt64.toNat UInt8.toNat
    fun x y carry => (adc x y carry).pair where
  flag_le x y carry _ := adc_carry_le x y carry
  digit_eq x y carry hcarry := by
    have hsum := adc_sum x y hcarry
    simp only [UnsignedResultWithCarry.pair]
    push_cast
    omega

theorem sbb_computes : Limbs.Computes (-1) (2 ^ 64) UInt64.toNat UInt8.toNat
    fun x y carry => (sbb x y carry).pair where
  flag_le x y carry _ := sbb_carry_le x y carry
  digit_eq x y carry hcarry := by
    have hdifference := sbb_difference x y hcarry
    simp only [UnsignedResultWithCarry.pair]
    push_cast
    omega

/-- The laws of the two chains for numbers `xs` and `ys` of `n` limbs. -/
structure ChainLaws (n : ℕ) (xs ys : List UInt64) (carry : UInt8) : Prop where
  sum_length : (adcChain xs ys carry).1.length = n
  sum_carry : (adcChain xs ys carry).2 = 0 ∨ (adcChain xs ys carry).2 = 1
  sum_eq : (number (adcChain xs ys carry).1 : ℤ) + 2 ^ (64 * n) * (adcChain xs ys carry).2.toNat =
    number xs + number ys + carry.toNat
  difference_length : (sbbChain xs ys carry).1.length = n
  difference_borrow : (sbbChain xs ys carry).2 = 0 ∨ (sbbChain xs ys carry).2 = 1
  difference_eq : (number (sbbChain xs ys carry).1 : ℤ) -
    2 ^ (64 * n) * (sbbChain xs ys carry).2.toNat = number xs - number ys - carry.toNat
  restored : sbbChain (adcChain xs ys carry).1 ys carry = (xs, (adcChain xs ys carry).2)

theorem flag_cases {carry : UInt8} (h : carry.toNat ≤ 1) : carry = 0 ∨ carry = 1 := by
  have hflag : carry.toNat = 0 ∨ carry.toNat = 1 := by omega
  cases hflag with
  | inl h => exact .inl (UInt8.toNat_inj.mp h)
  | inr h => exact .inr (UInt8.toNat_inj.mp h)

theorem chain_laws (xs ys : List UInt64) (hlength : xs.length = ys.length) (carry : UInt8)
    (hcarry : carry = 0 ∨ carry = 1) : ChainLaws xs.length xs ys carry := by
  have hflag : carry.toNat ≤ 1 := by
    cases hcarry with
    | inl h => rw [h]; decide
    | inr h => rw [h]; decide
  have hsum := adc_computes.chain_value hlength hflag
  have hdifference := sbb_computes.chain_value hlength hflag
  have hbase : ((2 ^ 64 : ℕ) : ℤ) ^ xs.length = 2 ^ (64 * xs.length) := by
    rw [pow_mul]
    rfl
  rw [hbase] at hsum hdifference
  exact {
    sum_length := Limbs.chain_length hlength carry
    sum_carry := flag_cases (adc_computes.chain_flag hflag)
    sum_eq := by
      simp only [number, adcChain]
      linarith
    difference_length := Limbs.chain_length hlength carry
    difference_borrow := flag_cases (sbb_computes.chain_flag hflag)
    difference_eq := by
      simp only [number, sbbChain]
      linarith
    restored := Limbs.chain_undo (fun carry => carry.toNat ≤ 1)
      (fun x y carry _ => adc_carry_le x y carry)
      (fun x y carry hcarry => sbb_adc x y hcarry) hlength hflag }

/-- The carry goes through all three limbs. -/
theorem chain_laws_three : ChainLaws 3 [2 ^ 64 - 1, 2 ^ 64 - 1, 5] [0, 0, 2 ^ 63] 1 :=
  chain_laws [2 ^ 64 - 1, 2 ^ 64 - 1, 5] [0, 0, 2 ^ 63] rfl 1 (.inr rfl)

end SysProg.Arithmetic
