import SysProg.Library.Interleaving
import SysProg.Model.Least
import SysProg.Verification.Text.Decimal

/-! # The pager for lines

Line-up looks for the newline before the one at `pos - 1`, line-down for the next newline but not
at the last byte. On line starts they are inverse. -/

namespace SysProg.Least

open Pager SplitToArray Transmission

variable {content : Bytes}

/-! ## The searches -/

/-- A position at which a line begins. -/
def LineStart (content : Bytes) (p : ℕ) : Prop :=
  p = 0 ∨ ∃ q, p = q + 1 ∧ content[q]? = some 10

/-- There is no newline from `p` on before `q`. -/
def SameLine (content : Bytes) (p q : ℕ) : Prop :=
  ∀ i, p ≤ i → i < q → content[i]? ≠ some 10

/-- The start of a line is determined by any position of the line. -/
theorem LineStart.unique {p q r : ℕ} (hp : LineStart content p) (hq : LineStart content q)
    (hpr : p ≤ r) (hqr : q ≤ r) (hpline : SameLine content p r) (hqline : SameLine content q r) :
    p = q := by
  rcases lt_trichotomy p q with hlt | heq | hlt
  · obtain ⟨i, rfl, hi⟩ := hq.resolve_left (by omega)
    exact absurd hi (hpline i (by omega) (by omega))
  · exact heq
  · obtain ⟨i, rfl, hi⟩ := hp.resolve_left (by omega)
    exact absurd hi (hqline i (by omega) (by omega))

theorem loadInt_buff {i : ℕ} (hi : i < content.length) :
    loadInt (content ++ [0]) i = .ok content[i] := by
  rw [loadInt, if_pos (Int.natCast_nonneg i), Int.toNat_natCast]
  exact load_eq_ok (by rw [List.getElem?_append_left hi, List.getElem?_eq_getElem hi])

/-- The search from the byte before `n` finds the start of the line with `n`. -/
theorem lineBefore_spec {n : ℕ} (hn : n ≤ content.length) :
    ∃ p, lineBefore (content ++ [0]) ((n : ℤ) - 1) = .ok p ∧ p ≤ n ∧ LineStart content p ∧
      SameLine content p n := by
  induction n with
  | zero =>
      rw [lineBefore, if_neg (by simp)]
      exact ⟨0, rfl, le_rfl, .inl rfl, fun i _ hi => absurd hi (Nat.not_lt_zero i)⟩
  | succ n ih =>
      have hj : ((n + 1 : ℕ) : ℤ) - 1 = n := by omega
      rw [hj, lineBefore, if_pos (Int.natCast_nonneg n), loadInt_buff (by omega), Run.ok_bind]
      by_cases hnl : content[n] = 10
      · rw [if_pos hnl]
        refine ⟨n + 1, congrArg _ (by omega), le_rfl, .inr ⟨n, rfl, ?_⟩, ?_⟩
        · rw [List.getElem?_eq_getElem (by omega), hnl]
        · intro i hi hi'
          omega
      · obtain ⟨p, hp, hle, hstart, hline⟩ := ih (by omega)
        rw [if_neg hnl]
        refine ⟨p, hp, by omega, hstart, fun i hi hi' => ?_⟩
        rcases Nat.lt_succ_iff_lt_or_eq.mp hi' with hlt | rfl
        · exact hline i hi hlt
        · rw [List.getElem?_eq_getElem (by omega)]
          exact fun h => hnl (Option.some.inj h)

/-- The search forward finds the start of the next line, or the end. -/
theorem lineAfter_spec {p : ℕ} (hp : p ≤ content.length) :
    ∃ q, lineAfter (content ++ [0]) content.length p = .ok q ∧ p ≤ q ∧
      (p < content.length → p < q) ∧ SameLine content p (q - 1) ∧
      (q = content.length ∨ LineStart content q ∧ q < content.length) := by
  induction hm : content.length - p generalizing p with
  | zero =>
      rw [lineAfter, if_neg (by omega)]
      refine ⟨content.length, rfl, hp, by omega, fun i hi hi' => ?_, .inl rfl⟩
      omega
  | succ m ih =>
      rw [lineAfter]
      by_cases hlast : p + 1 = content.length
      · rw [if_neg (by omega)]
        refine ⟨content.length, rfl, hp, by omega, fun i hi hi' => ?_, .inl rfl⟩
        omega
      · rw [if_pos (by omega), loadInt_buff (by omega), Run.ok_bind]
        by_cases hnl : content[p] = 10
        · rw [if_pos hnl]
          have hstart : LineStart content (p + 1) := by
            refine .inr ⟨p, rfl, ?_⟩
            rw [List.getElem?_eq_getElem (by omega), hnl]
          refine ⟨p + 1, congrArg _ (by omega), by omega, by omega, fun i hi hi' => ?_,
            .inr ⟨hstart, by omega⟩⟩
          omega
        · obtain ⟨q, hq, hle, hlt, hline, hend⟩ := ih (p := p + 1) (by omega) (by omega)
          have hcast : (p : ℤ) + 1 = (p + 1 : ℕ) := by omega
          rw [if_neg hnl, hcast]
          refine ⟨q, hq, by omega, by omega, fun i hi hi' => ?_, hend⟩
          rcases Nat.lt_or_ge p i with hpi | hpi
          · exact hline i hpi hi'
          · obtain rfl : i = p := by omega
            rw [List.getElem?_eq_getElem (by omega)]
            exact fun h => hnl (Option.some.inj h)

/-! ## The keys -/

/-- The buffer holds the contents, and `pos` is a position in them or the end. -/
structure Holds (content : Bytes) (s : View) : Prop where
  buff_eq : s.buff = content ++ [0]
  pos_le : s.pos ≤ content.length

theorem Holds.display {s : View} (h : Holds content s) (c : UInt8) (off n newPos : ℕ)
    (hline : off + n ≤ content.length) (hnew : newPos ≤ content.length) :
    ∃ t, s.display c off n newPos = .ok t ∧ Holds content t ∧ t.pos = newPos := by
  have hroom : off + n ≤ s.buff.length := by
    rw [h.buff_eq, List.length_append, List.length_singleton]
    omega
  rw [View.display, copyLine, loadRange, if_pos hroom]
  by_cases hn : n > 0
  · rw [if_pos hn]
    exact ⟨_, rfl, ⟨h.buff_eq, hnew⟩, rfl⟩
  · rw [if_neg hn]
    exact ⟨_, rfl, ⟨h.buff_eq, hnew⟩, rfl⟩

/-- The conversion of `pos - 2` to `int` undoes the wrap round below zero. -/
theorem int32_sub_two {p : ℕ} (hp : p ≤ FILE_SIZE) :
    int32 ((p + (2 ^ 64 - 2)) % 2 ^ 64 : ℕ) = (p : ℤ) - 2 := by
  simp only [FILE_SIZE] at hp
  rcases Nat.lt_or_ge p 2 with hlt | hge
  · interval_cases p <;> decide
  · have hmod : (p + (2 ^ 64 - 2)) % 2 ^ 64 = p - 2 := by omega
    rw [hmod, Nat.cast_sub hge]
    exact int32_of_mem (by omega) (by omega)

theorem upper_isUp {key : UInt8} (h : isUp (toUpper key)) :
    isIgnored key = false ∧ isQuit (toUpper key) = false := by
  revert key
  decide +kernel

theorem upper_isDown {key : UInt8} (h : isDown (toUpper key)) :
    isIgnored key = false ∧ isQuit (toUpper key) = false ∧ isUp (toUpper key) = false := by
  revert key
  decide +kernel

/-- Line-up leads to the start of the line with the position before. -/
theorem Holds.press_up {s : View} (h : Holds content s) (hsize : content.length ≤ FILE_SIZE)
    {key : UInt8} (hkey : isUp (toUpper key)) :
    ∃ t, press content.length s key = .ok t ∧ Holds content t ∧ t.pos ≤ s.pos - 1 ∧
      LineStart content t.pos ∧ SameLine content t.pos (s.pos - 1) := by
  have hpos := h.pos_le
  obtain ⟨hnotIgnored, hnotQuit⟩ := upper_isUp hkey
  have hsearch : ∃ p, lineBefore (content ++ [0]) ((s.pos : ℤ) - 2) = .ok p ∧ p ≤ s.pos - 1 ∧
      LineStart content p ∧ SameLine content p (s.pos - 1) := by
    by_cases hzero : s.pos = 0
    · rw [hzero, lineBefore, if_neg (by omega)]
      refine ⟨0, rfl, le_rfl, .inl rfl, fun i _ hi => ?_⟩
      omega
    · have hcast : (s.pos : ℤ) - 2 = (s.pos - 1 : ℕ) - 1 := by omega
      rw [hcast]
      exact lineBefore_spec (by omega)
  obtain ⟨p, hp, hle, hstart, hline⟩ := hsearch
  obtain ⟨t, ht, hholds, htpos⟩ := h.display (toUpper key) p (s.pos - p) p (by omega) (by omega)
  refine ⟨t, ?_, hholds, ?_, ?_, ?_⟩
  · simp only [press, hnotIgnored, hnotQuit, hkey, int32_sub_two (hpos.trans hsize), h.buff_eq, hp,
      Run.ok_bind, ht, if_true, Bool.false_eq_true, if_false]
  all_goals rw [htpos]; assumption

/-- Line-down leads to the start of the next line or to the end. -/
theorem Holds.press_down {s : View} (h : Holds content s) (hsize : content.length ≤ FILE_SIZE)
    {key : UInt8} (hkey : isDown (toUpper key)) :
    ∃ t, press content.length s key = .ok t ∧ Holds content t ∧
      (s.pos < content.length → s.pos < t.pos) ∧ SameLine content s.pos (t.pos - 1) ∧
      (t.pos = content.length ∨ LineStart content t.pos ∧ t.pos < content.length) := by
  have hpos := h.pos_le
  obtain ⟨hnotIgnored, hnotQuit, hnotUp⟩ := upper_isDown hkey
  have hint : int32 s.pos = s.pos := by
    simp only [FILE_SIZE] at hsize
    exact int32_of_mem (by omega) (by omega)
  obtain ⟨p, hp, hle, hlt, hline, hend⟩ := lineAfter_spec hpos
  have hplength : p ≤ content.length := by
    rcases hend with heq | ⟨-, hplt⟩ <;> omega
  obtain ⟨t, ht, hholds, htpos⟩ := h.display (toUpper key) s.pos (p - s.pos) p (by omega)
    hplength
  refine ⟨t, ?_, hholds, ?_, ?_, ?_⟩
  · simp only [press, hnotIgnored, hnotQuit, hnotUp, hkey, hint, h.buff_eq, hp, Run.ok_bind, ht,
      if_true, Bool.false_eq_true, if_false]
  all_goals rw [htpos]; assumption

/-- Every key leads from a position to a position. -/
theorem Holds.press {s : View} (h : Holds content s) (hsize : content.length ≤ FILE_SIZE)
    (key : UInt8) : ∃ t, press content.length s key = .ok t ∧ Holds content t := by
  have hbuff := h.buff_eq
  have hpos := h.pos_le
  have hlt : s.pos < s.buff.length := by
    rw [hbuff, List.length_append, List.length_singleton]
    omega
  by_cases hup : isUp (toUpper key)
  · obtain ⟨t, ht, hholds, -⟩ := h.press_up hsize hup
    exact ⟨t, ht, hholds⟩
  by_cases hdown : isDown (toUpper key)
  · obtain ⟨t, ht, hholds, -⟩ := h.press_down hsize hdown
    exact ⟨t, ht, hholds⟩
  unfold Least.press
  dsimp only
  rw [if_neg hup, if_neg hdown]
  split
  · exact ⟨s, rfl, h⟩
  split
  · exact ⟨_, rfl, hbuff, hpos⟩
  split
  · split
    · rw [load_of_lt (by omega), Run.ok_bind]
      exact ⟨_, rfl, hbuff, by simp only; omega⟩
    · exact ⟨_, rfl, hbuff, hpos⟩
  split
  · split
    · next hless =>
        rw [load_of_lt hlt, Run.ok_bind]
        exact ⟨_, rfl, hbuff, hless⟩
    · exact ⟨_, rfl, hbuff, hpos⟩
  split
  · have hnul : 0 ∈ s.buff.drop s.pos := by
      rw [hbuff, List.drop_append_of_le_length hpos]
      simp
    rw [stringAt, if_pos hnul, Run.ok_bind]
    exact ⟨_, rfl, hbuff, le_rfl⟩
  split
  · have hnul : 0 ∈ (s.buff.set s.pos 0).drop 0 := List.mem_set hlt 0
    rw [load_of_lt hlt, Run.ok_bind, stringAt, if_pos hnul, Run.ok_bind]
    refine ⟨_, rfl, ?_, Nat.zero_le _⟩
    simpa using hbuff
  · exact ⟨_, rfl, hbuff, hpos⟩

/-- What is asked of every state of the pager: the position is in the contents or at their end, the
contents are as they were, and no key leads to an access outside of them and the NUL byte. -/
structure Safe (content : Bytes) (s : View) : Prop where
  pos_le : s.pos ≤ content.length
  buff_eq : s.buff = content ++ [0]
  runs : ∀ key, ∃ t, Least.press content.length s key = .ok t

/-! ## Line-down and line-up -/

/-- From a line start, line-up leads back after line-down. -/
theorem Holds.down_up {s : View} (h : Holds content s) (hsize : content.length ≤ FILE_SIZE)
    (hstart : LineStart content s.pos) (hlt : s.pos < content.length) {down up : UInt8}
    (hdown : isDown (toUpper down)) (hup : isUp (toUpper up)) :
    ∃ t u, Least.press content.length s down = .ok t ∧
      Least.press content.length t up = .ok u ∧ u.pos = s.pos := by
  obtain ⟨t, ht, hholds, hmore, hline, -⟩ := h.press_down hsize hdown
  obtain ⟨u, hu, -, hle, hstart', hline'⟩ := hholds.press_up hsize hup
  have hst := hmore hlt
  exact ⟨t, u, ht, hu, hstart'.unique hstart hle (by omega) hline' hline⟩

/-- From a line start or from the end, line-down leads back after line-up. -/
theorem Holds.up_down {s : View} (h : Holds content s) (hsize : content.length ≤ FILE_SIZE)
    (hstart : LineStart content s.pos ∨ s.pos = content.length) (hpos : 0 < s.pos)
    {up down : UInt8} (hup : isUp (toUpper up)) (hdown : isDown (toUpper down)) :
    ∃ t u, Least.press content.length s up = .ok t ∧
      Least.press content.length t down = .ok u ∧ u.pos = s.pos := by
  obtain ⟨t, ht, hholds, hle, hstartT, hline⟩ := h.press_up hsize hup
  obtain ⟨u, hu, hholds', hmore, hline', hend⟩ := hholds.press_down hsize hdown
  have hple := h.pos_le
  have hule := hholds'.pos_le
  have htu := hmore (by omega)
  refine ⟨t, u, ht, hu, ?_⟩
  -- neither of the two positions is before the end of the line of the other one
  rcases lt_trichotomy u.pos s.pos with hlt | heq | hlt
  · obtain ⟨hstartU, -⟩ := hend.resolve_left (by omega)
    obtain ⟨i, hi, hnl⟩ := hstartU.resolve_left (by omega)
    exact absurd hnl (hline i (by omega) (by omega))
  · exact heq
  · obtain ⟨i, hi, hnl⟩ := (hstart.resolve_right (by omega)).resolve_left (by omega)
    exact absurd hnl (hline' i (by omega) (by omega))

/-- The pager stays in its file, and line-down and line-up undo each other. -/
theorem pager_correct (content : Content) :
    Always (Presses content.bytes.length) (Safe content.bytes) (.initial content) ∧
      ∀ s, Holds content.bytes s → ∀ down up,
        isDown (toUpper down) → isUp (toUpper up) →
          (LineStart content.bytes s.pos → s.pos < content.bytes.length →
            ∃ t u, press content.bytes.length s down = .ok t ∧
              press content.bytes.length t up = .ok u ∧ u.pos = s.pos) ∧
          (LineStart content.bytes s.pos ∨ s.pos = content.bytes.length → 0 < s.pos →
            ∃ t u, press content.bytes.length s up = .ok t ∧
              press content.bytes.length t down = .ok u ∧ u.pos = s.pos) := by
  have hsize := content.length_le
  constructor
  · refine Always.of_invariant (I := Holds content.bytes) ⟨rfl, Nat.zero_le _⟩ ?_ ?_
    · intro s t h ⟨_, key, hkey⟩
      obtain ⟨u, hu, hnext⟩ := h.press hsize key
      obtain rfl := Except.ok.inj (hu.symm.trans hkey)
      exact hnext
    · intro s h
      refine ⟨h.pos_le, h.buff_eq, fun key => ?_⟩
      obtain ⟨t, ht, _⟩ := h.press hsize key
      exact ⟨t, ht⟩
  · intro s h down up hdown hup
    exact ⟨fun hstart hlt => h.down_up hsize hstart hlt hdown hup,
      fun hstart hpos => h.up_down hsize hstart hpos hup hdown⟩

end SysProg.Least
