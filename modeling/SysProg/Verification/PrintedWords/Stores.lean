import SysProg.Model.FsortMetrics
import SysProg.Verification.PrintedWords.Lines

/-! # The bytes that are stored in the line

`sprintf` stores a space, the word and a NUL byte. The space is counted in `len`, the NUL byte is
not: `line` has one byte more than `LINE_SIZE` for it. The test `len > LINE_SIZE+1` lets a word of
`LINE_SIZE` bytes pass. -/

namespace SysProg.PrintedWords

open Transmission SortedWords

variable {α β : Type}

/-! ## Loops whose accesses can fail -/

theorem Prints.result_bind (m : Prints α) (f : α → Prints β) :
    (m >>= f).2 = m.2.bind fun a => (f a).2 := by
  obtain ⟨texts, _ | a⟩ := m <;> rfl

theorem Prints.result_foldlM (f : α → β → Prints α) (init : α) (bs : List β) :
    (bs.foldlM f init).2 = bs.foldlM (fun a b => (f a b).2) init := by
  induction bs generalizing init with
  | nil => rfl
  | cons b bs ih =>
      rw [List.foldlM_cons, List.foldlM_cons, Prints.result_bind]
      exact congrArg _ (funext ih)

/-- A loop has a result if and only if all that it works on is good. -/
theorem foldlM_bind_iff {f : α → β → Option α} {g : α → Option Unit} {Inside : α → Prop}
    {Good : β → Prop} (hgood : ∀ a b, Inside a → Good b → ∃ a', f a b = some a' ∧ Inside a')
    (hbad : ∀ a b, Inside a → ¬ Good b → f a b = none)
    (hend : ∀ a, Inside a → g a = some ()) {init : α} (hinit : Inside init) (bs : List β) :
    (bs.foldlM f init).bind g = some () ↔ ∀ b ∈ bs, Good b := by
  induction bs generalizing init with
  | nil =>
      refine iff_of_true (hend init hinit) ?_
      intro b hb
      cases hb
  | cons b bs ih =>
      rw [List.foldlM_cons, List.forall_mem_cons]
      by_cases hb : Good b
      · obtain ⟨a', hf, ha'⟩ := hgood init b hinit hb
        rw [hf]
        exact (ih ha').trans (and_iff_right hb).symm
      · rw [hbad init b hinit hb]
        refine iff_of_false ?_ fun h => hb h.1
        intro h
        cases h

/-! ## The loop that prints -/

/-- A word that is stored inside of the line, or that is not stored in it. -/
def Fits (word : Bytes) : Prop :=
  IsShort word ∨ IsLong word

/-- Only the words with 200 bytes do not fit, if the lengths are far from the limit of `int`. -/
theorem fits_iff {word : Bytes} (h : word.length + 1 < 2 ^ 31) : Fits word ↔ word.length ≠ 200 := by
  have hlen : int32 ((word.length : ℤ) + 1) = word.length + 1 := int32_of_mem (by omega) (by omega)
  simp only [Fits, IsShort, IsLong, hlen, LINE_SIZE]
  omega

/-- The words in memory, each with its NUL byte. -/
def strings (words : List CString) : List Bytes :=
  words.map fun word => word.bytes ++ [0]

def Line.Inside (line : Line) : Prop :=
  ∃ content shown, line.Holds content shown

theorem addWord_inside {line : Line} (h : line.Inside) {word : CString} (hfits : Fits word.bytes) :
    ∃ line', (line.addWord (word.bytes ++ [0])).2 = some line' ∧ line'.Inside := by
  obtain ⟨content, shown, hline⟩ := h
  rcases hfits with hshort | hlong
  · obtain ⟨texts, line', content', hadd, hline', -⟩ := addWord_short hline word.no_nul hshort
    rw [hadd]
    exact ⟨line', rfl, content', _, hline'⟩
  · rw [addWord_long hline word.no_nul hlong]
    exact ⟨_, rfl, [], shown, hline.flush⟩

theorem result_printSortedWords (idx : ℤ) (strs : List Bytes) :
    (printSortedWords idx strs).2 =
      (strs.foldlM (fun (line : Line) str => (line.addWord str).2) Line.start).bind
        fun line => line.finish.2.bind fun _ => some () := by
  rw [← Prints.result_foldlM]
  simp only [printSortedWords, Prints.result_bind]
  rfl

theorem result_finish (line : Line) : line.finish.2 = some () := by
  unfold Line.finish
  split <;> rfl

theorem result_printSortedWords_iff (idx : ℤ) (words : List CString) :
    (printSortedWords idx (strings words)).2 = some () ↔ ∀ word ∈ words, Fits word.bytes := by
  have hstart : Line.start.Inside := ⟨[], none, start_holds⟩
  rw [result_printSortedWords, strings, List.foldlM_map]
  refine foldlM_bind_iff ?_ ?_ ?_ hstart words
  · intro line word hline hfits
    exact addWord_inside hline hfits
  · intro line word hline hfits
    obtain ⟨content, shown, hline⟩ := hline
    obtain ⟨hshort, hlong⟩ := not_or.mp hfits
    exact addWord_outside hline word.no_nul hshort hlong
  · intro line hline
    rw [result_finish]
    rfl

end SysProg.PrintedWords
