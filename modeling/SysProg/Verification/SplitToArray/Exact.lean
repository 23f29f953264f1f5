import SysProg.Verification.SplitToArray.Memory

/-! # When the array has the words and nothing else -/

namespace SysProg.SplitToArray

/-- `split_to_array` returns the words of a text. -/
def ReturnsWords (text : List UInt8) : Prop :=
  ∃ content pointers, splitToArray (text ++ [0]) text.length = .ok (content, pointers) ∧
    stringsAt content pointers = .ok (words text)

/-- The bytes before the first word are one more string, an empty one. -/
theorem stringsOf_eq_words_iff (text : List UInt8) :
    stringsOf (text ++ [0]) = words text ↔ text.head?.any isStringChar = true := by
  rw [stringsOf_contents]
  by_cases hhead : text.head?.any isStringChar = true
  · simp [hhead]
  · simp [hhead]

theorem ReturnsWords.stringsOf_eq {text : List UInt8} (h : ReturnsWords text) :
    (stringsOf (text ++ [0])).length < 2 ^ 31 ∧ stringsOf (text ++ [0]) = words text := by
  obtain ⟨content, pointers, hsplit, hstrings⟩ := h
  have hcount : (stringsOf (text ++ [0])).length < 2 ^ 31 := by
    by_contra hmany
    obtain ⟨fault, hfault⟩ := splitToArray_fault text (not_lt.mp hmany)
    rw [hsplit] at hfault
    cases hfault
  obtain ⟨content', pointers', hsplit', hstrings'⟩ := splitToArray_eq_stringsOf text hcount
  rw [hsplit] at hsplit'
  cases hsplit'
  rw [hstrings] at hstrings'
  exact ⟨hcount, (Except.ok.inj hstrings').symm⟩

/-- Exactly a text that begins with a word is split into its words, if an `int` can count them. -/
theorem returnsWords_iff (text : List UInt8) :
    ReturnsWords text ↔
      text.head?.any isStringChar = true ∧ (words text).length < 2 ^ 31 := by
  constructor
  · intro h
    obtain ⟨hcount, hwords⟩ := h.stringsOf_eq
    exact ⟨(stringsOf_eq_words_iff text).mp hwords, hwords ▸ hcount⟩
  · intro ⟨hhead, hcount⟩
    have hwords := (stringsOf_eq_words_iff text).mpr hhead
    obtain ⟨content, pointers, hsplit, hstrings⟩ :=
      splitToArray_eq_stringsOf text (hwords ▸ hcount)
    exact ⟨content, pointers, hsplit, hwords ▸ hstrings⟩

/-- The empty file and `" a"` have an empty string in their arrays. -/
theorem not_returnsWords_blank : ¬ ReturnsWords [] ∧ ¬ ReturnsWords [32, 97] := by
  constructor
  · intro h
    have hhead := (stringsOf_eq_words_iff []).mp h.stringsOf_eq.2
    exact absurd hhead (by decide)
  · intro h
    have hhead := (stringsOf_eq_words_iff [32, 97]).mp h.stringsOf_eq.2
    exact absurd hhead (by decide)

end SysProg.SplitToArray
