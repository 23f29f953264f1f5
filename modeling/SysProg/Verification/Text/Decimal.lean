import SysProg.Model.Text

/-! # A printed number is read back -/

namespace SysProg.Transmission

/-! ## The type `int` -/

theorem int32_of_mem {n : ℤ} (hlo : -2 ^ 31 ≤ n) (hhi : n < 2 ^ 31) : int32 n = n := by
  unfold int32
  exact Int.bmod_eq_of_le (by norm_num; omega) (by norm_num; omega)

theorem le_int32 (n : ℤ) : -2 ^ 31 ≤ int32 n := by
  have h := Int.le_bmod (x := n) (m := 2 ^ 32) (by norm_num)
  unfold int32
  norm_num at h ⊢
  omega

theorem int32_lt (n : ℤ) : int32 n < 2 ^ 31 := by
  have h := Int.bmod_lt (x := n) (m := 2 ^ 32) (by norm_num)
  unfold int32
  norm_num at h ⊢
  omega

structure IsInt (n : ℤ) : Prop where
  lower : -2 ^ 31 ≤ n
  upper : n < 2 ^ 31

theorem isInt_int32 (n : ℤ) : IsInt (int32 n) :=
  ⟨le_int32 n, int32_lt n⟩

/-! ## Digits -/

theorem isdigit_decimal (n : ℕ) : ∀ b ∈ decimal n, isdigit b = true := by
  intro b hb
  unfold decimal at hb
  split at hb
  · obtain rfl : b = 48 := by simpa using hb
    rfl
  · obtain ⟨d, hd, rfl⟩ := List.mem_map.mp hb
    have hlt : d < 10 := Nat.digits_lt_base (by norm_num) (List.mem_reverse.mp hd)
    interval_cases d <;> rfl

theorem decimal_ne_nil (n : ℕ) : decimal n ≠ [] := by
  unfold decimal
  split
  · simp
  · rename_i h
    simpa [Nat.digits_ne_nil_iff_ne_zero] using h

theorem length_decimal_le {n k : ℕ} (hk : 0 < k) (hn : n < 10 ^ k) : (decimal n).length ≤ k := by
  unfold decimal
  split
  · exact hk
  · rw [List.length_map, List.length_reverse]
    exact (Nat.digits_length_le_iff (by norm_num) n).mpr hn

theorem digitsValue_digits (digits : List ℕ) (hlt : ∀ d ∈ digits, d < 10) :
    digitsValue (digits.reverse.map fun d => UInt8.ofNat (48 + d)) = Nat.ofDigits 10 digits := by
  unfold digitsValue
  rw [List.foldl_map, List.foldl_reverse]
  induction digits with
  | nil => rfl
  | cons d digits ih =>
      have hd : (UInt8.ofNat (48 + d)).toNat - 48 = d := by
        have := hlt d (by simp)
        rw [UInt8.toNat_ofNat']
        omega
      rw [List.foldr_cons, ih fun d hd => hlt d (by simp [hd]), hd, Nat.ofDigits_cons]
      omega

theorem digitsValue_decimal (n : ℕ) : digitsValue (decimal n) = n := by
  unfold decimal
  split
  · rename_i h
    rw [h]
    rfl
  · rw [digitsValue_digits _ fun d hd => Nat.digits_lt_base (by norm_num) hd, Nat.ofDigits_digits]

/-- The digits are read up to the first other character. -/
theorem takeWhile_decimal (n : ℕ) {rest : Bytes} (hrest : ∀ b ∈ rest.head?, isdigit b = false) :
    (decimal n ++ rest).takeWhile isdigit = decimal n := by
  rw [List.takeWhile_append_of_pos (isdigit_decimal n)]
  cases rest with
  | nil => simp
  | cons b rest =>
      have hb : isdigit b = false := hrest b (by simp)
      simp [hb]

/-! ## The formatted number -/

theorem dropWhile_blanks (k : ℕ) {str : Bytes} (h : ∀ b ∈ str.head?, isspace b = false) :
    (List.replicate k 32 ++ str).dropWhile isspace = str := by
  rw [List.dropWhile_append_of_pos fun b hb => by rw [List.eq_of_mem_replicate hb]; rfl]
  cases str with
  | nil => rfl
  | cons b str => simp [h b (by simp)]

theorem isspace_of_isdigit {b : UInt8} (h : isdigit b = true) : isspace b = false := by
  simp only [isdigit, isspace, Bool.and_eq_true, decide_eq_true_eq, UInt8.le_iff_toNat_le,
    Bool.or_eq_false_iff, beq_eq_false_iff_ne, ne_eq, ← UInt8.toNat_inj, Bool.and_eq_false_iff,
    decide_eq_false_iff_not, UInt8.reduceToNat] at h ⊢
  omega

theorem strtol_format12d {n : ℤ} (hlo : -2 ^ 63 ≤ n) (hhi : n < 2 ^ 63) {rest : Bytes}
    (hrest : ∀ b ∈ rest.head?, isdigit b = false) : strtol (format12d n ++ rest) = n := by
  have hdigits := takeWhile_decimal n.natAbs hrest
  rw [format12d, List.append_assoc, strtol]
  by_cases hn : n < 0
  · rw [formatInt, if_pos hn, dropWhile_blanks _ (by simp; rfl)]
    simp only [List.cons_append, hdigits, digitsValue_decimal]
    omega
  · obtain ⟨b, digits, hcons⟩ := List.exists_cons_of_ne_nil (decimal_ne_nil n.natAbs)
    have hb : isdigit b = true := isdigit_decimal n.natAbs b (by simp [hcons])
    rw [formatInt, if_neg hn, dropWhile_blanks]
    · have hvalue := congrArg digitsValue hdigits
      rw [digitsValue_decimal] at hvalue
      rw [hcons] at hvalue ⊢
      split
      · rename_i h
        obtain rfl : b = 45 := by simpa using (List.cons.inj h).1
        exact absurd hb (by decide)
      · rename_i h
        obtain rfl : b = 43 := by simpa using (List.cons.inj h).1
        exact absurd hb (by decide)
      · rw [hvalue]
        omega
    · simp [hcons, isspace_of_isdigit hb]

/-- What `%12d` prints of an `int` is read back by `atoi`. -/
theorem atoi_format12d {n : ℤ} (h : IsInt n) {rest : Bytes}
    (hrest : ∀ b ∈ rest.head?, isdigit b = false) : atoi (format12d n ++ rest) = n := by
  obtain ⟨hlo, hhi⟩ := h
  rw [atoi, strtol_format12d (by omega) (by omega) hrest, int32_of_mem hlo hhi]

theorem length_formatInt_le {n : ℤ} (h : IsInt n) : (formatInt n).length ≤ 11 := by
  obtain ⟨hlo, hhi⟩ := h
  have hdecimal : (decimal n.natAbs).length ≤ 10 :=
    length_decimal_le (by norm_num) (by norm_num; omega)
  unfold formatInt
  split
  · rw [List.length_cons]
    omega
  · omega

theorem length_format12d {n : ℤ} (h : IsInt n) : (format12d n).length = 12 := by
  have hle := length_formatInt_le h
  rw [format12d, List.length_append, List.length_replicate]
  omega

theorem byte_of_mem_formatInt {n : ℤ} {b : UInt8} (h : b ∈ formatInt n) :
    b = 45 ∨ isdigit b = true := by
  unfold formatInt at h
  split at h
  · rcases List.mem_cons.mp h with h | h
    · exact .inl h
    · exact .inr (isdigit_decimal _ b h)
  · exact .inr (isdigit_decimal _ b h)

theorem byte_of_mem_format12d {n : ℤ} {b : UInt8} (h : b ∈ format12d n) :
    b = 32 ∨ b = 45 ∨ isdigit b = true := by
  rcases List.mem_append.mp h with h | h
  · exact .inl (List.eq_of_mem_replicate h)
  · exact .inr (byte_of_mem_formatInt h)

theorem notMem_format12d {b : UInt8} (hb : b < 32) (n : ℤ) : b ∉ format12d n := by
  intro h
  rcases byte_of_mem_format12d h with rfl | rfl | hdigit
  · exact absurd hb (by decide)
  · exact absurd hb (by decide)
  · simp only [isdigit, Bool.and_eq_true, decide_eq_true_eq, UInt8.le_iff_toNat_le,
      UInt8.lt_iff_toNat_lt, UInt8.reduceToNat] at hdigit hb
    omega

theorem nul_notMem_format12d (n : ℤ) : 0 ∉ format12d n :=
  notMem_format12d (by decide) n

/-! ## A number whose end is missing -/

theorem digitsValue_append_le (digits rest : Bytes) :
    digitsValue digits * 10 ^ rest.length ≤ digitsValue (digits ++ rest) := by
  induction rest generalizing digits with
  | nil => simp
  | cons b rest ih =>
      have hstep : digitsValue (digits ++ [b]) = 10 * digitsValue digits + (b.toNat - 48) := by
        simp [digitsValue]
      have hrest := ih (digits ++ [b])
      rw [List.append_assoc, List.singleton_append, hstep] at hrest
      calc digitsValue digits * 10 ^ (b :: rest).length
          = 10 * digitsValue digits * 10 ^ rest.length := by rw [List.length_cons, pow_succ]; ring
        _ ≤ (10 * digitsValue digits + (b.toNat - 48)) * 10 ^ rest.length :=
            Nat.mul_le_mul_right _ (Nat.le_add_right _ _)
        _ ≤ digitsValue (digits ++ b :: rest) := hrest

theorem strtol_blanks (k : ℕ) {digits : Bytes} (hdigits : ∀ b ∈ digits, isdigit b = true) :
    strtol (List.replicate k 32 ++ digits) = min (2 ^ 63 - 1) (digitsValue digits : ℤ) := by
  have hall : digits.takeWhile isdigit = digits := List.takeWhile_eq_self_iff.mpr hdigits
  rw [strtol, dropWhile_blanks]
  · split
    · exact absurd (hdigits 45 (by simp)) (by decide)
    · exact absurd (hdigits 43 (by simp)) (by decide)
    · rw [hall]
  · intro b hb
    exact isspace_of_isdigit (hdigits b (List.mem_of_mem_head? hb))

/-- Without its last digits a number has another value, except for zero. -/
theorem atoi_take_format12d {n k : ℕ} (hn : (n : ℤ) < 2 ^ 31) (hk : k < 12) :
    atoi ((format12d n).take k) = n ↔ n = 0 := by
  have hformat : format12d n = List.replicate (12 - (decimal n).length) 32 ++ decimal n := by
    rw [format12d, formatInt, if_neg (by omega), Int.natAbs_natCast]
  have hlength := length_format12d (n := n) ⟨by omega, hn⟩
  have hpos := List.length_pos_iff.mpr (decimal_ne_nil n)
  rw [hformat, List.length_append, List.length_replicate] at hlength
  have hvalue := digitsValue_append_le ((decimal n).take (k - (12 - (decimal n).length)))
    ((decimal n).drop (k - (12 - (decimal n).length)))
  rw [List.take_append_drop, digitsValue_decimal, List.length_drop] at hvalue
  have hten : 10 ^ 1 ≤ 10 ^ ((decimal n).length - (k - (12 - (decimal n).length))) :=
    Nat.pow_le_pow_right (by decide) (by omega)
  have hless := (Nat.mul_le_mul_left _ hten).trans hvalue
  rw [hformat, List.take_append, List.take_replicate, List.length_replicate, atoi, strtol_blanks]
  · generalize digitsValue _ = v at hless ⊢
    rw [min_eq_right (by omega), int32_of_mem (by omega) (by omega)]
    omega
  · intro b hb
    exact isdigit_decimal n b (List.mem_of_mem_take hb)

end SysProg.Transmission
