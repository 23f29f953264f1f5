import Mathlib

/-! # The words of a text

A text is split at separators; the words are the parts that are not empty. -/

namespace SysProg

variable {α : Type*} [DecidableEq α] {sep : α → Bool}

def tokens (sep : α → Bool) (text : List α) : List (List α) :=
  (text.splitOnP sep).filter fun part => part != []

theorem tokens_append_cons (text text' : List α) {b : α} (hb : sep b = true) :
    tokens sep (text ++ b :: text') = tokens sep text ++ tokens sep text' := by
  rw [tokens, List.splitOnP_append_cons text text' hb, List.filter_append]
  rfl

theorem tokens_word {word : List α} (hword : ∀ b ∈ word, sep b = false) :
    tokens sep word = [word].filter fun part => part != [] := by
  rw [tokens, List.splitOnP_eq_singleton hword]

@[simp] theorem tokens_nil : tokens sep [] = [] := by
  simp [tokens]

/-- Separators at the end do not matter. -/
theorem tokens_append_separators (text : List α) {separators : List α}
    (h : ∀ b ∈ separators, sep b = true) : tokens sep (text ++ separators) = tokens sep text := by
  induction separators using List.reverseRecOn with
  | nil => rw [List.append_nil]
  | append_singleton separators b ih =>
      rw [← List.append_assoc, tokens_append_cons _ _ (h b (by simp)),
        ih fun c hc => h c (by simp [hc]), tokens_nil, List.append_nil]

/-- A text that goes on with separators and another text. -/
theorem tokens_append (text text' : List α) {separators : List α} (hne : separators ≠ [])
    (h : ∀ b ∈ separators, sep b = true) :
    tokens sep (text ++ separators ++ text') = tokens sep text ++ tokens sep text' := by
  obtain ⟨before, b, rfl⟩ := List.eq_nil_or_concat separators |>.resolve_left hne
  have hbefore : ∀ c ∈ before, sep c = true := fun c hc => h c (by simp [hc])
  rw [List.concat_eq_append, ← List.append_assoc, List.append_assoc _ [b] text',
    List.singleton_append, tokens_append_cons _ _ (h b (by simp)),
    tokens_append_separators text hbefore]

end SysProg
