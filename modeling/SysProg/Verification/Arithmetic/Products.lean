import SysProg.Verification.Arithmetic.Chains

/-! # Products and quotients with a limb

`mul` does not lose anything, and `divx` does not overflow when the upper half of the dividend is
less than the divisor. So numbers of any length can be multiplied by a limb and divided by it. -/

namespace SysProg.Arithmetic

/-! ## One limb -/

theorem lower_toNat (x : BitVec 128) : (lower x).toNat = x.toNat % 2 ^ 64 := by
  simp [lower]

theorem upper_toNat (x : BitVec 128) : (upper x).toNat = x.toNat / 2 ^ 64 := by
  have hx := x.isLt
  simp only [upper, UInt64.toNat_ofBitVec, BitVec.toNat_setWidth, BitVec.toNat_ushiftRight,
    Nat.shiftRight_eq_div_pow]
  omega

theorem lower_add_upper (x : BitVec 128) :
    (lower x).toNat + 2 ^ 64 * (upper x).toNat = x.toNat := by
  rw [lower_toNat, upper_toNat, Nat.mod_add_div]

theorem setWidth_toNat (y : UInt64) : (y.toBitVec.setWidth 128).toNat = y.toNat := by
  have hy := y.toNat_lt
  rw [BitVec.toNat_setWidth, UInt64.toNat_toBitVec]
  omega

theorem mul_toNat (x y : UInt64) : (mul x y).toNat = x.toNat * y.toNat := by
  have hlt : x.toNat * y.toNat < 2 ^ 64 * 2 ^ 64 := by
    have hx := x.toNat_lt
    have hy := y.toNat_lt
    exact Nat.mul_lt_mul'' hx hy
  rw [mul, BitVec.toNat_mul, setWidth_toNat, setWidth_toNat, Nat.mod_eq_of_lt (by omega)]

/-- The quotient fits into a limb exactly if the upper half is less than the divisor. -/
theorem divx_eq (x : BitVec 128) {y : UInt64} (hy : 0 < y.toNat) :
    ∃ result, divx x y = some result ∧
      result.quotient.toNat = x.toNat / y.toNat % 2 ^ 64 ∧
      result.remainder.toNat = x.toNat % y.toNat ∧
      (result.overflow = 0 ↔ (upper x).toNat < y.toNat) := by
  have hne : y ≠ 0 := by
    rintro rfl
    exact absurd hy (by decide)
  have hlt := y.toNat_lt
  refine ⟨_, if_neg hne, ?_, ?_, ?_⟩
  · rw [lower_toNat, BitVec.toNat_udiv, setWidth_toNat]
  · rw [lower_toNat, BitVec.toNat_umod, setWidth_toNat]
    exact Nat.mod_eq_of_lt ((Nat.mod_lt _ hy).trans hlt)
  · have hzero : upper (x / y.toBitVec.setWidth 128) = 0 ↔ (upper x).toNat < y.toNat := by
      rw [← UInt64.toNat_inj, upper_toNat, upper_toNat, BitVec.toNat_udiv, setWidth_toNat,
        Nat.div_div_eq_div_mul, Nat.mul_comm, ← Nat.div_div_eq_div_mul]
      exact Nat.div_eq_zero_iff_lt hy
    rw [← hzero]
    by_cases h : upper (x / y.toBitVec.setWidth 128) = 0 <;> simp [h]

/-! ## Many limbs -/

/-- The number of two limbs. -/
def twoLimbs (high low : UInt64) : BitVec 128 :=
  high.toBitVec ++ low.toBitVec

theorem twoLimbs_toNat (high low : UInt64) :
    (twoLimbs high low).toNat = low.toNat + 2 ^ 64 * high.toNat := by
  have hlow : low.toBitVec.toNat < 2 ^ 64 := low.toNat_lt
  rw [twoLimbs, BitVec.toNat_append, ← Nat.shiftLeft_add_eq_or_of_lt hlow, Nat.shiftLeft_eq]
  simp only [UInt64.toNat_toBitVec]
  ring

/-- `mul` and `add` on one limb after the other, the least significant one first. The carry is a
limb. -/
def mulChain (y : UInt64) : List UInt64 → UInt64 → List UInt64 × UInt64
  | [], carry => ([], carry)
  | x :: xs, carry =>
      let product := mul x y
      let low := add (lower product) carry
      let rest := mulChain y xs (upper product + low.carry.toUInt64)
      (low.value :: rest.1, rest.2)

/-- `divx` on one limb after the other, the most significant one first, until it overflows. -/
def divChain (y : UInt64) : List UInt64 → UInt64 → Option (List UInt64 × UInt64)
  | [], remainder => some ([], remainder)
  | x :: xs, remainder =>
      (divx (twoLimbs remainder x) y).bind fun result =>
        if result.overflow = 0 then
          (divChain y xs result.remainder).map fun rest => (result.quotient :: rest.1, rest.2)
        else none

/-- A limb of the product, and a carry that is a limb again. -/
theorem mul_add_limb (x y carry : UInt64) :
    (add (lower (mul x y)) carry).value.toNat + 2 ^ 64 *
        (upper (mul x y) + (add (lower (mul x y)) carry).carry.toUInt64).toNat =
      x.toNat * y.toNat + carry.toNat := by
  have hsum : (add (lower (mul x y)) carry).value.toNat +
      2 ^ 64 * (add (lower (mul x y)) carry).carry.toNat =
        (lower (mul x y)).toNat + carry.toNat := adc_sum _ _ (Nat.zero_le 1)
  have hhalves := lower_add_upper (mul x y)
  rw [mul_toNat] at hhalves
  have hcarry := carry.toNat_lt
  have hproduct : x.toNat * y.toNat ≤ (2 ^ 64 - 1) * (2 ^ 64 - 1) := by
    have hx := x.toNat_lt
    have hy := y.toNat_lt
    exact Nat.mul_le_mul (by omega) (by omega)
  generalize add (lower (mul x y)) carry = low at hsum ⊢
  rw [UInt64.toNat_add, UInt8.toNat_toUInt64, Nat.mod_eq_of_lt (by omega)]
  omega

theorem mulChain_value (y : UInt64) (xs : List UInt64) (carry : UInt64) :
    number (mulChain y xs carry).1 + 2 ^ (64 * xs.length) * (mulChain y xs carry).2.toNat =
      number xs * y.toNat + carry.toNat := by
  induction xs generalizing carry with
  | nil => simp [mulChain, number]
  | cons x xs ih =>
      have hlimb := mul_add_limb x y carry
      have hrest := ih (upper (mul x y) + (add (lower (mul x y)) carry).carry.toUInt64)
      simp only [number] at hrest
      simp only [number, mulChain, Limbs.value_cons, List.length_cons, Nat.mul_succ, pow_add]
      linear_combination hlimb + 2 ^ 64 * hrest

/-- What is carried from a limb stays below the factor. -/
theorem carry_lt {x y carry : UInt64} (h : carry.toNat < y.toNat) :
    (upper (mul x y) + (add (lower (mul x y)) carry).carry.toUInt64).toNat < y.toNat := by
  have hlimb := mul_add_limb x y carry
  have hproduct : x.toNat * y.toNat ≤ (2 ^ 64 - 1) * y.toNat := by
    have hx := x.toNat_lt
    exact Nat.mul_le_mul_right _ (by omega)
  omega

/-- A step of the division with a remainder from the limbs before. -/
theorem divx_limb {x y remainder : UInt64} (h : remainder.toNat < y.toNat) :
    ∃ result, divx (twoLimbs remainder x) y = some result ∧ result.overflow = 0 ∧
      result.quotient.toNat * y.toNat + result.remainder.toNat =
        x.toNat + 2 ^ 64 * remainder.toNat ∧
      result.remainder.toNat < y.toNat := by
  have hpos : 0 < y.toNat := Nat.zero_lt_of_lt h
  obtain ⟨result, hresult, hquotient, hremainder, hoverflow⟩ := divx_eq (twoLimbs remainder x) hpos
  have hvalue := twoLimbs_toNat remainder x
  have hx := x.toNat_lt
  refine ⟨result, hresult, hoverflow.mpr ?_, ?_, ?_⟩
  · rw [upper_toNat, hvalue]
    omega
  · have hfits : (twoLimbs remainder x).toNat / y.toNat < 2 ^ 64 := by
      rw [Nat.div_lt_iff_lt_mul hpos, hvalue]
      nlinarith
    rw [hquotient, hremainder, Nat.mod_eq_of_lt hfits, ← hvalue]
    exact Nat.div_add_mod' _ _
  · rw [hremainder]
    exact Nat.mod_lt _ hpos

/-- The most significant limb stands at the end. -/
theorem number_concat (xs : List UInt64) (x : UInt64) :
    number (xs ++ [x]) = number xs + 2 ^ (64 * xs.length) * x.toNat := by
  rw [number, Limbs.value, List.map_append, Nat.ofDigits_append, List.length_map, pow_mul]
  simp [number, Limbs.value]

theorem divChain_cons {x y remainder : UInt64} (xs : List UInt64)
    (h : remainder.toNat < y.toNat) :
    ∃ q r, q.toNat * y.toNat + r.toNat = x.toNat + 2 ^ 64 * remainder.toNat ∧
      r.toNat < y.toNat ∧ divChain y (x :: xs) remainder =
        (divChain y xs r).map fun rest => (q :: rest.1, rest.2) := by
  obtain ⟨result, hresult, hoverflow, hvalue, hlt⟩ := divx_limb (x := x) h
  refine ⟨_, _, hvalue, hlt, ?_⟩
  rw [divChain, hresult, Option.bind_some, if_pos hoverflow]

/-- The division of a number of any length does not overflow, and it is exact. -/
theorem divChain_value {y : UInt64} (xs : List UInt64) {remainder : UInt64}
    (h : remainder.toNat < y.toNat) :
    ∃ quotient rest, divChain y xs remainder = some (quotient, rest) ∧
      quotient.length = xs.length ∧ rest.toNat < y.toNat ∧
      number quotient.reverse * y.toNat + rest.toNat =
        number xs.reverse + 2 ^ (64 * xs.length) * remainder.toNat := by
  induction xs generalizing remainder with
  | nil => exact ⟨[], remainder, rfl, rfl, h, by simp [number]⟩
  | cons x xs ih =>
      obtain ⟨q, r, hlimb, hr, hcons⟩ := divChain_cons (x := x) xs h
      obtain ⟨quotient, rest, hrun, hlength, hrest, hvalue⟩ := ih hr
      refine ⟨q :: quotient, rest, by rw [hcons, hrun]; rfl, by simp [hlength], hrest, ?_⟩
      rw [List.reverse_cons, List.reverse_cons, number_concat, number_concat, List.length_reverse,
        List.length_reverse, hlength, List.length_cons, Nat.mul_succ, pow_add]
      linear_combination hvalue + 2 ^ (64 * xs.length) * hlimb

theorem divChain_append {y : UInt64} (xs ys : List UInt64) {remainder : UInt64} :
    divChain y (xs ++ ys) remainder = (divChain y xs remainder).bind fun front =>
      (divChain y ys front.2).map fun back => (front.1 ++ back.1, back.2) := by
  induction xs generalizing remainder with
  | nil => simp [divChain]
  | cons x xs ih =>
      rw [List.cons_append, divChain, divChain]
      cases divx (twoLimbs remainder x) y with
      | none => rfl
      | some result =>
          rw [Option.bind_some, Option.bind_some]
          split
          · rw [ih]
            cases divChain y xs result.remainder with
            | none => rfl
            | some front =>
                rw [Option.bind_some, Option.map_some, Option.bind_some, Option.map_map]
                rfl
          · rfl

theorem quotient_unique {q r x y c : UInt64}
    (heq : q.toNat * y.toNat + r.toNat = x.toNat * y.toNat + c.toNat) (hr : r.toNat < y.toNat)
    (hc : c.toNat < y.toNat) : q = x ∧ r = c := by
  have hpos := Nat.zero_lt_of_lt hr
  have hq : q.toNat = x.toNat := by
    have hdiv := congrArg (· / y.toNat) heq
    simp only [Nat.mul_comm _ y.toNat] at hdiv
    rwa [Nat.mul_add_div hpos, Nat.mul_add_div hpos, Nat.div_eq_of_lt hr, Nat.div_eq_of_lt hc,
      Nat.add_zero, Nat.add_zero] at hdiv
  rw [hq] at heq
  exact ⟨UInt64.toNat_inj.mp hq, UInt64.toNat_inj.mp (Nat.add_left_cancel heq)⟩

/-- Division gives back what has been multiplied, and what has been added to it. -/
theorem divChain_mulChain {y : UInt64} (xs : List UInt64) {carry : UInt64}
    (h : carry.toNat < y.toNat) :
    divChain y (mulChain y xs carry).1.reverse (mulChain y xs carry).2 = some (xs.reverse, carry) := by
  induction xs generalizing carry with
  | nil => rfl
  | cons x xs ih =>
      simp only [mulChain, List.reverse_cons]
      rw [divChain_append, ih (carry_lt h), Option.bind_some]
      -- the last limb gives the quotient `x` and the remainder `carry`, since these are unique
      obtain ⟨q, r, hlimb, hr, hcons⟩ :=
        divChain_cons (x := (add (lower (mul x y)) carry).value) [] (carry_lt (x := x) h)
      rw [mul_add_limb] at hlimb
      obtain ⟨hq, hc⟩ := quotient_unique hlimb hr h
      rw [hcons, divChain, hq, hc]
      rfl

/-! ## The laws -/

/-- The product of a number of `n` limbs by a limb, with a carry, and its way back; and the
quotient of such a number with a remainder before it. -/
structure ProductLaws (n : ℕ) (xs : List UInt64) (y carry : UInt64) : Prop where
  product_length : (mulChain y xs carry).1.length = n
  product_eq : number (mulChain y xs carry).1 + 2 ^ (64 * n) * (mulChain y xs carry).2.toNat =
    number xs * y.toNat + carry.toNat
  restored : divChain y (mulChain y xs carry).1.reverse (mulChain y xs carry).2 =
    some (xs.reverse, carry)
  quotient_eq : ∃ quotient rest, divChain y xs carry = some (quotient, rest) ∧
    quotient.length = n ∧ rest.toNat < y.toNat ∧
    number quotient.reverse * y.toNat + rest.toNat =
      number xs.reverse + 2 ^ (64 * n) * carry.toNat

theorem mulChain_length (y : UInt64) (xs : List UInt64) (carry : UInt64) :
    (mulChain y xs carry).1.length = xs.length := by
  induction xs generalizing carry with
  | nil => rfl
  | cons x xs ih => simp [mulChain, ih]

/-- Multiplication and division by a limb are exact, and division undoes multiplication. -/
theorem product_laws (xs : List UInt64) (y carry : UInt64) (hcarry : carry < y) :
    ProductLaws xs.length xs y carry where
  product_length := mulChain_length y xs carry
  product_eq := mulChain_value y xs carry
  restored := divChain_mulChain xs (UInt64.lt_iff_toNat_lt.mp hcarry)
  quotient_eq := divChain_value xs (UInt64.lt_iff_toNat_lt.mp hcarry)

/-- All limbs and the carry are as great as they can be. -/
theorem product_laws_two : ProductLaws 2 [2 ^ 64 - 1, 2 ^ 64 - 1] (2 ^ 64 - 1) (2 ^ 64 - 2) :=
  product_laws [2 ^ 64 - 1, 2 ^ 64 - 1] (2 ^ 64 - 1) (2 ^ 64 - 2) (by decide +kernel)

end SysProg.Arithmetic
