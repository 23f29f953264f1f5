import SysProg.Verification.PrintedWords.Stores

/-! # The bytes that the server stores in the line

Here a newline is stored at `pos` before a line is written. -/

namespace SysProg.SortedWords

open Transmission

open PrintedWords (Fits IsShort IsLong strings foldlM_bind_iff)

variable {α β : Type}

theorem result_bind (m : Emits α) (f : α → Emits β) :
    (m >>= f).2 = m.2.bind fun a => (f a).2 := by
  obtain ⟨calls, _ | a⟩ := m <;> rfl

theorem result_foldlM (f : α → β → Emits α) (init : α) (bs : List β) :
    (bs.foldlM f init).2 = bs.foldlM (fun a b => (f a b).2) init := by
  induction bs generalizing init with
  | nil => rfl
  | cons b bs ih =>
      rw [List.foldlM_cons, List.foldlM_cons, result_bind]
      exact congrArg _ (funext ih)

/-- At `pos` there is room for one byte at least. -/
structure Line.Inside (line : Line) : Prop where
  room : line.block.length = 201
  pos : line.pos = line.usedLen
  le : line.usedLen ≤ 200

theorem store_inside {block : Bytes} {n : ℕ} {bytes : Bytes}
    (hfit : n + bytes.length ≤ block.length) :
    ∃ block', (store block n bytes).2 = some block' ∧ block'.length = block.length := by
  have hinside : (0 : ℤ) ≤ n ∧ (n : ℤ) + bytes.length ≤ block.length := by omega
  refine ⟨_, if_pos hinside, ?_⟩
  simp only [Int.toNat_natCast, List.length_append, List.length_take, List.length_drop]
  omega

theorem store_outside {block : Bytes} {pos : ℤ} {bytes : Bytes} (hpos : 0 ≤ pos)
    (hlt : block.length < bytes.length) : (store block pos bytes).2 = none :=
  if_neg (by omega)

theorem flush_inside {line : Line} (h : line.Inside) :
    ∃ flushed : Line, line.flush.2 = some flushed ∧ flushed.block.length = 201 := by
  have hle := h.le
  have hfit : line.usedLen + ([10] : Bytes).length ≤ line.block.length := by
    rw [h.room, List.length_singleton]
    omega
  obtain ⟨block, hstore, hlength⟩ := store_inside hfit
  refine ⟨⟨block, line.pos, sizeT (line.usedLen + 1)⟩, ?_, hlength.trans h.room⟩
  rw [Line.flush, result_bind, h.pos, hstore]
  rfl

/-- After that the line is empty, or `len` more bytes fit. -/
theorem makeRoom_inside {line : Line} (h : line.Inside) (len : ℤ) :
    ∃ line' : Line, (line.makeRoom len).2 = some line' ∧ line'.Inside ∧
      (line'.usedLen = 0 ∨ sizeT (line'.usedLen + len) ≤ LINE_SIZE) := by
  unfold Line.makeRoom
  by_cases hfull : sizeT (line.usedLen + len) > LINE_SIZE
  · obtain ⟨flushed, hflush, hlength⟩ := flush_inside h
    refine ⟨⟨flushed.block, 0, 0⟩, ?_, ⟨hlength, rfl, Nat.zero_le _⟩, .inl rfl⟩
    rw [if_pos hfull, result_bind, hflush]
    rfl
  · rw [if_neg hfull]
    exact ⟨line, rfl, h, .inr (not_lt.mp hfull)⟩

/-- The result when there is room for the word, or when the word is written by itself. -/
theorem result_append {line line' : Line} {str : Bytes} {len : ℤ}
    (hroom : (line.makeRoom len).2 = some line') : (line.append str len).2 =
      if len > LINE_SIZE + 1 then some line'
      else (store line'.block line'.pos (32 :: str)).2.bind fun block =>
        some ⟨block, line'.pos + len, sizeT (line'.usedLen + len)⟩ := by
  rw [Line.append, result_bind, hroom, Option.bind_some]
  split
  · rfl
  · rw [result_bind]
    rfl

theorem addWord_inside {line : Line} (h : line.Inside) {word : CString} (hfits : Fits word.bytes) :
    ∃ line', (line.addWord (word.bytes ++ [0])).2 = some line' ∧ line'.Inside := by
  have hstrlen : strlen (word.bytes ++ [0]) = word.bytes.length := strlen_append_nul word.no_nul []
  obtain ⟨line', hroom, hline', hempty⟩ := makeRoom_inside h (int32 (word.bytes.length + 1))
  rw [Line.addWord, hstrlen, result_append hroom]
  by_cases hlong : int32 (word.bytes.length + 1) > LINE_SIZE + 1
  · rw [if_pos hlong]
    exact ⟨line', rfl, hline'⟩
  · have hshort : word.bytes.length < 200 := hfits.resolve_right hlong
    have hlen : int32 (word.bytes.length + 1) = (word.bytes.length + 1 : ℕ) := by
      push_cast
      exact int32_of_mem (by omega) (by omega)
    have hle := hline'.le
    have hsize : sizeT (line'.usedLen + (word.bytes.length + 1 : ℕ)) =
        line'.usedLen + (word.bytes.length + 1) :=
      sizeT_natCast (n := line'.usedLen + (word.bytes.length + 1)) (by omega)
    have hused : line'.usedLen + (word.bytes.length + 1) ≤ 200 := by
      rw [hlen, hsize] at hempty
      simp only [LINE_SIZE] at hempty
      omega
    have hfit : line'.usedLen + (32 :: (word.bytes ++ [0])).length ≤ line'.block.length := by
      rw [hline'.room]
      simp only [List.length_cons, List.length_append, List.length_nil]
      omega
    obtain ⟨block, hstore, hlength⟩ := store_inside hfit
    rw [if_neg hlong, hlen, hsize, hline'.pos, hstore]
    refine ⟨_, rfl, hlength.trans hline'.room, ?_, hused⟩
    push_cast
    rfl

theorem addWord_outside {line : Line} (h : line.Inside) {word : CString}
    (hfits : ¬ Fits word.bytes) : (line.addWord (word.bytes ++ [0])).2 = none := by
  have hlong : ¬ int32 (word.bytes.length + 1) > LINE_SIZE + 1 := fun h => hfits (.inr h)
  have hlength : 200 ≤ word.bytes.length := not_lt.mp fun h => hfits (.inl h)
  have hstrlen : strlen (word.bytes ++ [0]) = word.bytes.length := strlen_append_nul word.no_nul []
  obtain ⟨line', hroom, hline', -⟩ := makeRoom_inside h (int32 (word.bytes.length + 1))
  have hstore : (store line'.block line'.pos (32 :: (word.bytes ++ [0]))).2 = none := by
    apply store_outside
    · rw [hline'.pos]
      exact Int.natCast_nonneg _
    · rw [hline'.room]
      simp only [List.length_cons, List.length_append, List.length_nil]
      omega
  rw [Line.addWord, hstrlen, result_append hroom, if_neg hlong, hstore]
  rfl

theorem finish_inside {line : Line} (h : line.Inside) : ∃ line', line.finish.2 = some line' := by
  unfold Line.finish
  split
  · obtain ⟨flushed, hflush, -⟩ := flush_inside h
    exact ⟨flushed, hflush⟩
  · exact ⟨line, rfl⟩

theorem result_transmitSortedWords (idx : ℤ) (block : Bytes) (strs : List Bytes) :
    (transmitSortedWords GETX idx block strs).2 =
      (store block 0 (threadTitle idx ++ [0])).2.bind fun block =>
        (strs.foldlM (fun (line : Line) str => (line.addWord str).2) ⟨block, 0, 0⟩).bind
          fun line => line.finish.2.bind fun _ => some () := by
  simp only [← result_foldlM]
  rw [transmitSortedWords, if_pos rfl]
  simp only [result_bind]
  rfl

theorem result_transmitSortedWords_iff {idx : ℤ} (hidx : IsInt idx) {block : Bytes}
    (hroom : block.length = 201) (words : List CString) :
    (transmitSortedWords GETX idx block (strings words)).2 = some () ↔
      ∀ word ∈ words, Fits word.bytes := by
  have htitle : 0 + (threadTitle idx ++ [0]).length ≤ block.length := by
    have := length_threadTitle hidx
    rw [hroom, List.length_append, List.length_singleton]
    omega
  obtain ⟨block', hstore, hlength⟩ := store_inside htitle
  have hstart : Line.Inside ⟨block', 0, 0⟩ := ⟨hlength.trans hroom, rfl, Nat.zero_le _⟩
  rw [Nat.cast_zero] at hstore
  rw [result_transmitSortedWords, hstore, Option.bind_some, strings, List.foldlM_map]
  refine foldlM_bind_iff ?_ ?_ ?_ hstart words
  · intro line word hline hfits
    exact addWord_inside hline hfits
  · intro line word hline hfits
    exact addWord_outside hline hfits
  · intro line hline
    obtain ⟨line', hfinish⟩ := finish_inside hline
    rw [hfinish]
    rfl

/-! ## Both loops -/

theorem isInt_zero : IsInt 0 := by
  constructor <;> decide

/-- No byte is stored outside of `line[LINE_SIZE+1]`, whatever the server's line contains before
and whatever command it has read. -/
def StaysInside (words : List CString) : Prop :=
  ∀ idx, IsInt idx → (PrintedWords.printSortedWords idx (strings words)).2 = some () ∧
    ∀ buff block : Bytes, block.length = LINE_SIZE + 1 →
      (transmitSortedWords buff idx block (strings words)).2 = some ()

/-- It is so exactly for the words that the two tests keep apart. -/
theorem staysInside_iff (words : List CString) :
    StaysInside words ↔ ∀ word ∈ words, Fits word.bytes := by
  constructor
  · intro h
    exact (PrintedWords.result_printSortedWords_iff 0 words).mp (h 0 isInt_zero).1
  · intro h idx hidx
    refine ⟨(PrintedWords.result_printSortedWords_iff idx words).mpr h, ?_⟩
    intro buff block hroom
    by_cases hbuff : buff = GETX
    · rw [hbuff]
      exact (result_transmitSortedWords_iff hidx (Nat.cast_injective (R := ℤ) hroom) words).mpr h
    · rw [transmitSortedWords, if_neg hbuff]
      rfl

def wordOf200 : CString :=
  ⟨List.replicate 200 97, fun h => absurd (List.eq_of_mem_replicate h) (by decide)⟩

theorem not_fits_wordOf200 : ¬ Fits wordOf200.bytes := by
  have hlength : wordOf200.bytes.length = 200 := List.length_replicate
  rw [PrintedWords.fits_iff (by omega)]
  exact not_not.mpr hlength

/-- A word with 200 bytes is stored beyond the end of `line`, by the loop that prints and by the
loop that transmits. -/
theorem not_staysInside_200 : ¬ StaysInside [wordOf200] ∧
    (PrintedWords.printSortedWords 0 (strings [wordOf200])).2 ≠ some () ∧
    (transmitSortedWords GETX 0 (List.replicate 201 0) (strings [wordOf200])).2 ≠ some () := by
  have hprint : (PrintedWords.printSortedWords 0 (strings [wordOf200])).2 ≠ some () := by
    intro h
    have hall := (PrintedWords.result_printSortedWords_iff 0 _).mp h
    exact not_fits_wordOf200 (hall wordOf200 (by simp))
  refine ⟨fun h => hprint (h 0 isInt_zero).1, hprint, ?_⟩
  intro h
  have hall := (result_transmitSortedWords_iff isInt_zero List.length_replicate _).mp h
  exact not_fits_wordOf200 (hall wordOf200 (by simp))

end SysProg.SortedWords
