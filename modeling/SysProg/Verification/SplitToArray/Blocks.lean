import SysProg.Model.SplitToArray

/-! # The blocks are a list of pointers

The pointer with number `k` is at position `k % MAX_BLOCK_SIZE` of block `k / MAX_BLOCK_SIZE`, when
it is stored and when it is copied to the result. -/

namespace SysProg.SplitToArray

/-- The blocks hold the pointers in this order. -/
structure Blocks.Holds (blocks : Blocks) (pointers : List ℕ) : Prop where
  count_eq : blocks.stringCount = pointers.length
  block_eq : blocks.blockPos = pointers.length / MAX_BLOCK_SIZE
  pos_eq : blocks.stringPos = pointers.length % MAX_BLOCK_SIZE
  load_eq : ∀ k p, pointers[k]? = some p →
    blocks.load (k / MAX_BLOCK_SIZE) (k % MAX_BLOCK_SIZE) = .ok p

theorem holds_initial : Blocks.initial.Holds [] :=
  ⟨rfl, rfl, rfl, by simp⟩

theorem Blocks.load_eq_ok_iff {blocks : Blocks} {blockPos stringPos p : ℕ} :
    blocks.load blockPos stringPos = .ok p ↔
      ∃ strings, blocks.strings blockPos = some strings ∧ strings stringPos = some p := by
  unfold Blocks.load
  cases blocks.strings blockPos with
  | none => simp
  | some strings => cases hs : strings stringPos <;> simp [hs]

theorem Blocks.Holds.record {blocks : Blocks} {pointers : List ℕ} (h : blocks.Holds pointers)
    (hroom : pointers.length < MAX_BLOCK_COUNT * MAX_BLOCK_SIZE) (pointer : ℕ) :
    ∃ blocks', blocks.record pointer = .ok blocks' ∧ blocks'.Holds (pointers ++ [pointer]) := by
  have hblock : blocks.blockPos < MAX_BLOCK_COUNT := by
    rw [h.block_eq]
    exact Nat.div_lt_of_lt_mul (by rwa [Nat.mul_comm])
  have hcount := h.count_eq
  have hblockPos := h.block_eq
  have hstringPos := h.pos_eq
  refine ⟨_, if_pos hblock, ?_⟩
  refine ⟨?_, ?_, ?_, ?_⟩
  · simp [h.count_eq]
  · by_cases hfull : MAX_BLOCK_SIZE ≤ blocks.stringPos + 1 <;>
      simp only [hfull, if_true, if_false, List.length_append, List.length_singleton] <;>
      simp only [MAX_BLOCK_SIZE] at hfull hblockPos hstringPos ⊢ <;> omega
  · by_cases hfull : MAX_BLOCK_SIZE ≤ blocks.stringPos + 1 <;>
      simp only [hfull, if_true, if_false, List.length_append, List.length_singleton] <;>
      simp only [MAX_BLOCK_SIZE] at hfull hblockPos hstringPos ⊢ <;> omega
  · intro k p hk
    rw [Blocks.load_eq_ok_iff]
    by_cases hlast : k = pointers.length
    · subst hlast
      rw [List.getElem?_concat_length] at hk
      rw [← hblockPos, ← hstringPos]
      refine ⟨_, Function.update_self _ _ _, ?_⟩
      rw [Function.update_self, Option.some.inj hk]
    · have hlt : k < pointers.length := by
        obtain ⟨hlength, -⟩ := List.getElem?_eq_some_iff.mp hk
        rw [List.length_append, List.length_singleton] at hlength
        omega
      rw [List.getElem?_append_left hlt] at hk
      obtain ⟨strings, hstrings, hp⟩ := Blocks.load_eq_ok_iff.mp (h.load_eq k p hk)
      by_cases hsame : k / MAX_BLOCK_SIZE = blocks.blockPos
      · -- the same block, at another position
        have hpos : k % MAX_BLOCK_SIZE ≠ blocks.stringPos := by
          simp only [MAX_BLOCK_SIZE] at hsame hblockPos hstringPos ⊢
          omega
        rw [hsame] at hstrings ⊢
        refine ⟨_, Function.update_self _ _ _, ?_⟩
        rw [Function.update_of_ne hpos, hstrings]
        exact hp
      · exact ⟨strings, (Function.update_of_ne hsame _ _).trans hstrings, hp⟩

theorem Blocks.Holds.collect {blocks : Blocks} {pointers : List ℕ} (h : blocks.Holds pointers)
    {k count : ℕ} (hcount : k + count = pointers.length) :
    blocks.collect count (k / MAX_BLOCK_SIZE) (k % MAX_BLOCK_SIZE) = .ok (pointers.drop k) := by
  induction count generalizing k with
  | zero =>
      rw [Blocks.collect, List.drop_of_length_le (by omega)]
  | succ count ih =>
      have hlt : k < pointers.length := by omega
      have hload := h.load_eq k pointers[k] (List.getElem?_eq_getElem hlt)
      have hrest := ih (k := k + 1) (by omega)
      rw [Blocks.collect, hload, Run.ok_bind, List.drop_eq_getElem_cons hlt]
      by_cases hfull : MAX_BLOCK_SIZE ≤ k % MAX_BLOCK_SIZE + 1
      · have hblock : (k + 1) / MAX_BLOCK_SIZE = k / MAX_BLOCK_SIZE + 1 := by
          simp only [MAX_BLOCK_SIZE] at hfull ⊢
          omega
        have hpos : (k + 1) % MAX_BLOCK_SIZE = 0 := by
          simp only [MAX_BLOCK_SIZE] at hfull ⊢
          omega
        rw [hblock, hpos] at hrest
        rw [if_pos hfull, hrest, Run.ok_bind]
      · have hblock : (k + 1) / MAX_BLOCK_SIZE = k / MAX_BLOCK_SIZE := by
          simp only [MAX_BLOCK_SIZE] at hfull ⊢
          omega
        have hpos : (k + 1) % MAX_BLOCK_SIZE = k % MAX_BLOCK_SIZE + 1 := by
          simp only [MAX_BLOCK_SIZE] at hfull ⊢
          omega
        rw [hblock, hpos] at hrest
        rw [if_neg hfull, hrest, Run.ok_bind]

end SysProg.SplitToArray
