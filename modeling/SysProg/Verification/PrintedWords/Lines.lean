import SysProg.Model.PrintedWords
import SysProg.Verification.SortedWords.Lines

/-! # What one word does to the line

The bytes of a line stay in memory when it has been printed; only `pos` goes back to its
beginning. -/

namespace SysProg.PrintedWords

open Transmission SortedWords

variable {α β : Type}

theorem Prints.bind_some {m : Prints α} {texts : List (Option Bytes)} {a : α}
    (h : m = (texts, some a)) (f : α → Prints β) : m >>= f = (texts ++ (f a).1, (f a).2) := by
  rw [h]
  rfl

theorem stringAt_append {str : Bytes} (hnul : 0 ∉ str) (rest : List (Option UInt8)) :
    stringAt ((str ++ [0]).map some ++ rest) = some str := by
  induction str with
  | nil => rfl
  | cons b str ih =>
      have hb : b ≠ 0 := by
        rintro rfl
        exact hnul (by simp)
      have hrest := ih (fun h => hnul (by simp [h]))
      rw [List.cons_append, List.map_cons, List.cons_append, stringAt, if_neg hb, hrest]
      rfl

/-- The line has `content`; `shown` is what is printed of its block. -/
structure Line.Holds (line : Line) (content : Bytes) (shown : Option Bytes) : Prop where
  room : line.block.length = 201
  pos : line.pos = content.length
  usedLen : line.usedLen = content.length
  le : content.length ≤ 200
  nul : 0 ∉ content
  block : content.map some <+: line.block
  string_eq : stringAt line.block = shown
  shown_eq : content ≠ [] → shown = some content

theorem start_holds : Line.start.Holds [] none := by
  refine ⟨List.length_replicate, rfl, rfl, Nat.zero_le _, List.not_mem_nil, List.nil_prefix, rfl,
    ?_⟩
  intro hne
  exact absurd rfl hne

/-- A word that has its place in a line. -/
def IsShort (word : Bytes) : Prop :=
  word.length < 200

/-- A word that the test `len > LINE_SIZE+1` finds. -/
def IsLong (word : Bytes) : Prop :=
  int32 (word.length + 1) > LINE_SIZE + 1

instance (word : Bytes) : Decidable (IsShort word) :=
  inferInstanceAs (Decidable (word.length < 200))

instance (word : Bytes) : Decidable (IsLong word) :=
  inferInstanceAs (Decidable (int32 (word.length + 1) > LINE_SIZE + 1))

theorem IsShort.not_long {word : Bytes} (h : IsShort word) : ¬ IsLong word := by
  have hlt : word.length < 200 := h
  have hlen : int32 ((word.length : ℤ) + 1) = word.length + 1 := int32_of_mem (by omega) (by omega)
  rw [IsLong, hlen, LINE_SIZE]
  omega

theorem Line.Holds.flush {line : Line} {content : Bytes} {shown : Option Bytes}
    (h : line.Holds content shown) : Line.Holds ⟨line.block, 0, 0⟩ [] shown := by
  refine ⟨h.room, rfl, rfl, by simp, by simp, List.nil_prefix, h.string_eq, ?_⟩
  intro hne
  exact absurd rfl hne

/-- The word is stored behind the content. -/
theorem Line.Holds.storeWord {line : Line} {content word : Bytes} {shown : Option Bytes}
    (h : line.Holds content shown) (hnul : 0 ∉ word)
    (hfit : content.length + (word.length + 1) ≤ 200) :
    ∃ line' : Line, line.storeWord (word ++ [0]) (word.length + 1 : ℕ) = ([], some line') ∧
      line'.Holds (content ++ 32 :: word) (some (content ++ 32 :: word)) := by
  obtain ⟨rest, hrest⟩ := h.block
  have hlength : (32 :: (word ++ [0])).length = word.length + 2 := by simp
  have hinside : 0 ≤ line.pos ∧ line.pos + (32 :: (word ++ [0])).length ≤ line.block.length := by
    rw [h.pos, h.room, hlength]
    omega
  have hused : sizeT (line.usedLen + (word.length + 1 : ℕ)) =
      content.length + (word.length + 1) := by
    rw [h.usedLen]
    exact sizeT_natCast (n := content.length + (word.length + 1)) (by omega)
  have hnul' : 0 ∉ content ++ 32 :: word := by
    simp [h.nul, hnul]
  have hstore : storeBytes line.block line.pos (32 :: (word ++ [0])) =
      some ((content ++ 32 :: word ++ [0]).map some ++ rest.drop (word.length + 2)) := by
    rw [storeBytes, if_neg (by simp), if_pos hinside, h.pos, Int.toNat_natCast, hlength, ← hrest,
      List.take_left' (by simp), ← List.drop_drop, List.drop_left' (by simp)]
    simp
  refine ⟨⟨(content ++ 32 :: word ++ [0]).map some ++ rest.drop (word.length + 2),
    line.pos + (word.length + 1 : ℕ), content.length + (word.length + 1)⟩, ?_, ?_⟩
  · rw [Line.storeWord, hstore, hused]
    rfl
  · have hroom := h.room
    rw [← hrest, List.length_append, List.length_map] at hroom
    refine ⟨?_, ?_, ?_, ?_, hnul', ?_, stringAt_append hnul' _, fun _ => rfl⟩
    · simp only [List.length_append, List.length_map, List.length_cons, List.length_drop,
        List.length_nil]
      omega
    · rw [h.pos, List.length_append, List.length_cons]
      push_cast
      rfl
    · rw [List.length_append, List.length_cons]
    · rw [List.length_append, List.length_cons]
      exact hfit
    · exact ⟨some 0 :: rest.drop (word.length + 2), by simp⟩

/-- What is printed and how the line goes on when `len` bytes are to be added. -/
theorem Line.Holds.makeRoom {line : Line} {content : Bytes} {shown : Option Bytes}
    (h : line.Holds content shown) (len : ℤ) : line.makeRoom len =
      if sizeT (content.length + len) > LINE_SIZE then
        ([shown.map fun bytes => bytes ++ [10]], some ⟨line.block, 0, 0⟩)
      else ([], some line) := by
  unfold Line.makeRoom
  rw [h.usedLen, h.string_eq]
  split <;> rfl

/-- A word that is longer than a line is printed by itself. -/
theorem append_long {line line' : Line} {str : Bytes} {len : ℤ} {texts : List (Option Bytes)}
    (hroom : line.makeRoom len = (texts, some line')) (hlong : len > LINE_SIZE + 1) :
    line.append str len =
      (texts ++ [(stringAt (str.map some)).map fun bytes => bytes ++ [10]], some line') := by
  rw [Line.append, Prints.bind_some hroom, if_pos hlong]
  rfl

theorem append_short {line line' : Line} {str : Bytes} {len : ℤ} {texts : List (Option Bytes)}
    (hroom : line.makeRoom len = (texts, some line')) (hshort : ¬ len > LINE_SIZE + 1) :
    line.append str len =
      (texts ++ (line'.storeWord str len).1, (line'.storeWord str len).2) := by
  rw [Line.append, Prints.bind_some hroom, if_neg hshort]

/-- A word that has no place behind the content begins a new line. -/
theorem addWord_short {line : Line} {content word : Bytes} {shown : Option Bytes}
    (h : line.Holds content shown) (hnul : 0 ∉ word) (hshort : IsShort word) :
    ∃ texts line' content', line.addWord (word ++ [0]) = (texts, some line') ∧
      line'.Holds content' (some content') ∧
      (texts = [] ∧ content' = content ++ 32 :: word ∨
        texts = [some (content ++ [10])] ∧ content' = 32 :: word) := by
  have hword : word.length < 200 := hshort
  have hle := h.le
  have hlen : int32 (strlen (word ++ [0]) + 1) = (word.length + 1 : ℕ) := by
    rw [strlen_append_nul hnul]
    push_cast
    exact int32_of_mem (by omega) (by omega)
  have hsmall : ¬ ((word.length + 1 : ℕ) : ℤ) > LINE_SIZE + 1 := by
    simp only [LINE_SIZE]
    omega
  have hsize : sizeT (content.length + (word.length + 1 : ℕ)) =
      content.length + (word.length + 1) :=
    sizeT_natCast (n := content.length + (word.length + 1)) (by omega)
  have hroom := h.makeRoom (word.length + 1 : ℕ)
  simp only [hsize, LINE_SIZE] at hroom
  rw [Line.addWord, hlen]
  by_cases hfit : content.length + (word.length + 1) ≤ 200
  · rw [if_neg (by exact_mod_cast not_lt.mpr hfit)] at hroom
    obtain ⟨line', happend, hline'⟩ := h.storeWord hnul hfit
    refine ⟨[], line', _, ?_, hline', .inl ⟨rfl, rfl⟩⟩
    rw [append_short hroom hsmall, happend]
    rfl
  · have hne : content ≠ [] := by
      rintro rfl
      simp only [List.length_nil] at hfit
      omega
    rw [if_pos (by exact_mod_cast not_le.mp hfit), h.shown_eq hne] at hroom
    obtain ⟨line', happend, hline'⟩ := h.flush.storeWord hnul (by simpa using hword)
    refine ⟨_, line', _, ?_, hline', .inr ⟨rfl, rfl⟩⟩
    rw [append_short hroom hsmall, happend]
    rfl

/-- A long word is printed by itself, and what is in the memory of the line before it. -/
theorem addWord_long {line : Line} {content word : Bytes} {shown : Option Bytes}
    (h : line.Holds content shown) (hnul : 0 ∉ word) (hlong : IsLong word) :
    line.addWord (word ++ [0]) =
        ([shown.map fun bytes => bytes ++ [10], some (word ++ [10])], some ⟨line.block, 0, 0⟩) := by
  have hle := h.le
  have hstrlen : int32 (strlen (word ++ [0]) + 1) = int32 (word.length + 1) := by
    rw [strlen_append_nul hnul]
  have hlen : int32 (word.length + 1) > LINE_SIZE + 1 := hlong
  have hmax : int32 (word.length + 1) < 2 ^ 31 := by
    have := Int.bmod_lt (x := (word.length : ℤ) + 1) (m := 2 ^ 32) (by decide)
    simp only [int32]
    omega
  have hsize : sizeT (content.length + int32 (word.length + 1)) > LINE_SIZE := by
    simp only [LINE_SIZE, sizeT] at hlen ⊢
    omega
  have hroom := h.makeRoom (int32 (word.length + 1))
  rw [if_pos hsize] at hroom
  have hword := stringAt_append hnul []
  rw [List.append_nil] at hword
  rw [Line.addWord, hstrlen, append_long hroom hlen, hword]
  rfl

/-- Any other word is stored beyond the end of the line. -/
theorem addWord_outside {line : Line} {content word : Bytes} {shown : Option Bytes}
    (h : line.Holds content shown) (hnul : 0 ∉ word) (hshort : ¬ IsShort word)
    (hlong : ¬ IsLong word) : (line.addWord (word ++ [0])).2 = none := by
  have hword : 200 ≤ word.length := not_lt.mp hshort
  have hstrlen : int32 (strlen (word ++ [0]) + 1) = int32 (word.length + 1) := by
    rw [strlen_append_nul hnul]
  have happend : ∀ (line : Line) len, line.block.length = 201 → 0 ≤ line.pos →
      (line.storeWord (word ++ [0]) len).2 = none := by
    intro line len hroom hpos
    have hinside : ¬ (0 ≤ line.pos ∧
        line.pos + (32 :: (word ++ [0])).length ≤ line.block.length) := by
      rw [hroom]
      simp only [List.length_cons, List.length_append, List.length_nil]
      omega
    rw [Line.storeWord, storeBytes, if_neg (by simp), if_neg hinside]
    rfl
  have hpos : 0 ≤ line.pos := by
    rw [h.pos]
    exact Int.natCast_nonneg _
  have hroom := h.makeRoom (int32 (word.length + 1))
  rw [Line.addWord, hstrlen]
  split at hroom
  · rw [append_short hroom hlong]
    exact happend ⟨line.block, 0, 0⟩ _ h.room le_rfl
  · rw [append_short hroom hlong]
    exact happend line _ h.room hpos

end SysProg.PrintedWords
