import SysProg.Library.Tokens
import SysProg.Verification.SplitToArray.Blocks

/-! # The strings of a file are its words

A text that does not begin with a word has the empty string in front of its words. -/

namespace SysProg.SplitToArray

open Transmission

/-! ## The strings as the loops find them -/

/-- The strings of what has still to be read, with the NUL byte at its end. -/
def stringsOf (rest : Bytes) : List Bytes :=
  if rest = [] then []
  else
    rest.takeWhile isStringChar ::
      stringsOf (((rest.dropWhile isStringChar).drop 1).dropWhile fun c => !isStringChar c)
termination_by rest.length
decreasing_by
  have hpos := List.length_pos_iff.mpr ‹¬rest = []›
  have hdrop := (List.dropWhile_sublist (l := rest) isStringChar).length_le
  have hskip := (List.dropWhile_sublist (l := (rest.dropWhile isStringChar).drop 1)
    fun c => !isStringChar c).length_le
  rw [List.length_drop] at hskip
  omega

/-- The rest of the contents ends with the NUL byte, unless all has been read. -/
def Ended (rest : Bytes) : Prop :=
  rest = [] ∨ ∃ text, rest = text ++ [0]

theorem Ended.suffix {read rest : Bytes} (h : Ended (read ++ rest)) : Ended rest := by
  rcases List.eq_nil_or_concat rest with hnil | ⟨text, last, rfl⟩
  · exact .inl hnil
  · rcases h with hnil | ⟨text', heq⟩
    · simp at hnil
    · rw [List.concat_eq_append, ← List.append_assoc] at heq
      obtain ⟨-, hlast⟩ := List.append_inj' heq rfl
      exact .inr ⟨text, by rw [List.concat_eq_append, hlast]⟩

/-- One turn of the outer loop: a string, the byte at its end, and separators. -/
structure Turn (rest : Bytes) where
  string : Bytes
  last : UInt8
  separators : Bytes
  rest' : Bytes
  rest_eq : rest = string ++ last :: (separators ++ rest')
  string_chars : ∀ c ∈ string, isStringChar c = true
  last_separator : isStringChar last = false
  separators_separators : ∀ c ∈ separators, isStringChar c = false
  rest_head : ∀ c ∈ rest'.head?, isStringChar c = true
  stringsOf_eq : stringsOf rest = string :: stringsOf rest'

theorem exists_turn {rest : Bytes} (h : Ended rest) (hne : rest ≠ []) : Nonempty (Turn rest) := by
  have hsplit := List.takeWhile_append_dropWhile (p := isStringChar) (l := rest)
  obtain ⟨text, htext⟩ := h.resolve_left hne
  cases hafter : rest.dropWhile isStringChar with
  | nil =>
      have hall := List.dropWhile_eq_nil_iff.mp hafter 0 (by rw [htext]; simp)
      exact absurd hall (by decide)
  | cons last after =>
      have hlast : isStringChar last = false := by
        have hhead := List.head?_dropWhile_not isStringChar rest
        rwa [hafter] at hhead
      refine ⟨⟨rest.takeWhile isStringChar, last, after.takeWhile fun c => !isStringChar c,
        after.dropWhile fun c => !isStringChar c, ?_, ?_, hlast, ?_, ?_, ?_⟩⟩
      · rw [List.takeWhile_append_dropWhile, ← hafter, hsplit]
      · intro c hc
        exact List.mem_takeWhile_imp hc
      · intro c hc
        simpa using List.mem_takeWhile_imp hc
      · intro c hc
        have hhead := List.head?_dropWhile_not (fun c => !isStringChar c) after
        rw [Option.mem_def.mp hc] at hhead
        simpa using hhead
      · rw [stringsOf, if_neg hne, hafter, List.drop_one, List.tail_cons]

theorem Turn.length_lt {rest : Bytes} (turn : Turn rest) : turn.rest'.length < rest.length := by
  have hlength := congrArg List.length turn.rest_eq
  simp only [List.length_append, List.length_cons] at hlength
  omega

theorem Turn.ended {rest : Bytes} (turn : Turn rest) (h : Ended rest) : Ended turn.rest' := by
  have heq : rest = (turn.string ++ turn.last :: turn.separators) ++ turn.rest' := by
    rw [List.append_assoc, List.cons_append]
    exact turn.rest_eq
  rw [heq] at h
  exact h.suffix

/-- The words of a text: the longest parts of it that have string characters only. -/
def words (text : Bytes) : List Bytes :=
  tokens (fun c => !isStringChar c) text

theorem Turn.words_eq {rest : Bytes} (turn : Turn rest) :
    words rest = [turn.string].filter (fun part => part != []) ++ words turn.rest' := by
  have heq : rest = turn.string ++ (turn.last :: turn.separators) ++ turn.rest' := by
    rw [List.append_assoc, List.cons_append]
    exact turn.rest_eq
  have hseparators : ∀ c ∈ turn.last :: turn.separators, (!isStringChar c) = true := by
    intro c hc
    rcases List.mem_cons.mp hc with rfl | hc
    · simp [turn.last_separator]
    · simp [turn.separators_separators c hc]
  have hword : ∀ c ∈ turn.string, (!isStringChar c) = false := by
    intro c hc
    simp [turn.string_chars c hc]
  rw [words, words, ← tokens_word hword, ← tokens_append _ _ (List.cons_ne_nil _ _) hseparators]
  exact congrArg _ heq

theorem stringsOf_eq_words {rest : Bytes} (h : Ended rest)
    (hhead : ∀ c ∈ rest.head?, isStringChar c = true) : stringsOf rest = words rest := by
  induction hn : rest.length using Nat.strong_induction_on generalizing rest with
  | h n ih =>
    by_cases hne : rest = []
    · rw [hne, stringsOf, if_pos rfl, words, tokens_nil]
    · obtain ⟨turn⟩ := exists_turn h hne
      have hrest := ih turn.rest'.length (hn ▸ turn.length_lt) (turn.ended h) turn.rest_head rfl
      have hstring : turn.string ≠ [] := by
        intro hnil
        have heq := turn.rest_eq
        rw [hnil] at heq
        have hlast : rest.head? = some turn.last := congrArg List.head? heq
        have hchar := hhead turn.last hlast
        rw [turn.last_separator] at hchar
        cases hchar
      rw [turn.stringsOf_eq, turn.words_eq, hrest]
      simp [hstring]

/-- The strings of a file are its words, after an empty string if it does not begin with one. -/
theorem stringsOf_contents (text : Bytes) :
    stringsOf (text ++ [0]) = (if text.head?.any isStringChar then [] else [[]]) ++ words text := by
  have hended : Ended (text ++ [0]) := .inr ⟨text, rfl⟩
  have hwords : words (text ++ [0]) = words text :=
    tokens_append_separators text (by simp [isStringChar])
  by_cases hhead : text.head?.any isStringChar = true
  · rw [if_pos hhead, stringsOf_eq_words hended, hwords, List.nil_append]
    intro c hc
    cases text with
    | nil => simp at hhead
    | cons first text =>
        simp only [List.cons_append, List.head?_cons, Option.mem_some_iff] at hc
        simpa [← hc] using hhead
  · obtain ⟨turn⟩ := exists_turn hended (by simp)
    have hstring : turn.string = [] := by
      have heq := turn.rest_eq
      cases hs : turn.string with
      | nil => rfl
      | cons c string =>
          exfalso
          have hc := turn.string_chars c (by simp [hs])
          rw [hs] at heq
          cases text with
          | nil =>
              obtain ⟨rfl, -⟩ := List.cons.inj heq
              exact absurd hc (by decide)
          | cons first text =>
              obtain ⟨rfl, -⟩ := List.cons.inj heq
              exact hhead (by simpa using hc)
    rw [if_neg hhead, turn.stringsOf_eq, stringsOf_eq_words (turn.ended hended) turn.rest_head,
      ← hwords, turn.words_eq, hstring]
    simp

end SysProg.SplitToArray
