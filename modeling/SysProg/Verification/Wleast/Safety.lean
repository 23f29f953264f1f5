import SysProg.Library.Interleaving
import SysProg.Model.Wleast
import SysProg.Verification.SplitToArray.Memory

/-! # The pager for words reads only strings of the array

The first turn of the splitter records a string, whatever the contents are. -/

namespace SysProg.Wleast

open SplitToArray Transmission

variable {memory : Bytes} {pointers : List ℕ}

/-- Every pointer of the array leads to its string. -/
theorem forall₂_of_stringsAt {strings : List Bytes} (h : stringsAt memory pointers = .ok strings) :
    List.Forall₂ (fun pointer string => stringAt memory pointer = .ok string) pointers strings := by
  induction pointers generalizing strings with
  | nil =>
      obtain rfl := Except.ok.inj h
      exact .nil
  | cons pointer pointers ih =>
      obtain ⟨string, hstring, h⟩ := Run.bind_eq_ok h
      obtain ⟨rest, hrest, h⟩ := Run.bind_eq_ok h
      obtain rfl := Except.ok.inj h
      exact .cons hstring (ih hrest)

theorem stringsOf_ne_nil (text : Bytes) : stringsOf (text ++ [0]) ≠ [] := by
  rw [stringsOf, if_neg (by simp)]
  exact List.cons_ne_nil _ _

/-- The array has a string, and one at each of its indices. -/
structure Displayable (memory : Bytes) (pointers : List ℕ) : Prop where
  length_pos : 0 < pointers.length
  string : ∀ i, i < pointers.length →
    ∃ pointer string, load pointers i = .ok pointer ∧ stringAt memory pointer = .ok string

theorem displayable_of_stringsAt {text : Bytes}
    (h : stringsAt memory pointers = .ok (stringsOf (text ++ [0]))) :
    Displayable memory pointers := by
  have hpairs := forall₂_of_stringsAt h
  have hlength := hpairs.length_eq
  constructor
  · rw [hlength]
    exact List.length_pos_iff.mpr (stringsOf_ne_nil text)
  · intro i hi
    exact ⟨_, _, load_of_lt hi, hpairs.get hi (hlength ▸ hi)⟩

theorem Displayable.display (h : Displayable memory pointers) (s : View) (c : UInt8)
    (format : String) {newPos : ℕ} (hnew : newPos < pointers.length) (pos : ℕ) :
    ∃ t, s.display memory pointers c format newPos pos = .ok t ∧ t.pos = pos := by
  obtain ⟨pointer, string, hpointer, hstring⟩ := h.string newPos hnew
  refine ⟨{ s with
    pos := pos
    prevC := c
    output := s.output ++ Pager.onChange s.prevC c "\n" ++ [⟨format, string⟩] }, ?_, rfl⟩
  rw [View.display, hpointer, Run.ok_bind, hstring, Run.ok_bind]

/-- A key that is pressed at a position of the array leads to one. -/
theorem Displayable.press (h : Displayable memory pointers) {s : View}
    (hpos : s.pos ≤ pointers.length) (key : UInt8) :
    ∃ t, press memory pointers s key = .ok t ∧ t.pos ≤ pointers.length := by
  have hlength := h.length_pos
  have hdisplay : ∀ c format newPos pos, newPos < pointers.length → pos ≤ pointers.length →
      ∃ t, s.display memory pointers c format newPos pos = .ok t ∧ t.pos ≤ pointers.length := by
    intro c format newPos pos hnew hle
    obtain ⟨t, ht, htpos⟩ := h.display s c format hnew pos
    exact ⟨t, ht, htpos.le.trans hle⟩
  unfold Wleast.press
  dsimp only
  split
  · exact ⟨s, rfl, hpos⟩
  split
  · exact ⟨_, rfl, hpos⟩
  split
  · have hnew : (if s.pos > 0 then s.pos - 1 else 0) < pointers.length := by
      split <;> omega
    exact hdisplay _ _ _ _ hnew hnew.le
  split
  · have hnew : (if s.pos < pointers.length then s.pos else pointers.length - 1) <
        pointers.length := by
      split <;> omega
    exact hdisplay _ _ _ _ hnew hnew
  split
  · exact hdisplay _ _ _ _ (by omega) (by omega)
  split
  · exact hdisplay _ _ _ _ hlength hlength
  · exact ⟨_, rfl, hpos⟩

/-- `pos` is at most `strings.len`, and the next key reads a string of the array. -/
structure Safe (memory : Bytes) (pointers : List ℕ) (s : View) : Prop where
  pos_le : s.pos ≤ pointers.length
  runs : ∀ key, ∃ t, press memory pointers s key = .ok t

theorem Displayable.always_safe (h : Displayable memory pointers) :
    Always (Presses memory pointers) (Safe memory pointers) .initial := by
  refine Always.of_invariant (I := fun s => s.pos ≤ pointers.length) (Nat.zero_le _) ?_ ?_
  · intro s t hpos ⟨_, key, hkey⟩
    obtain ⟨u, hu, hle⟩ := h.press hpos key
    obtain rfl := Except.ok.inj (hu.symm.trans hkey)
    exact hle
  · intro s hpos
    refine ⟨hpos, fun key => ?_⟩
    obtain ⟨t, ht, _⟩ := h.press hpos key
    exact ⟨t, ht⟩

/-- The splitter counts too many strings for an `int`, or it returns an array that the pager never
leaves, whatever keys are pressed. -/
theorem pager_safe (text : Bytes) :
    (2 ^ 31 ≤ (stringsOf (text ++ [0])).length ∧
      ∃ fault, splitToArray (text ++ [0]) text.length = .error fault) ∨
    ∃ memory pointers, splitToArray (text ++ [0]) text.length = .ok (memory, pointers) ∧
      0 < pointers.length ∧
      Always (Presses memory pointers) (Safe memory pointers) .initial := by
  rcases Nat.lt_or_ge (stringsOf (text ++ [0])).length (2 ^ 31) with hcount | hcount
  · obtain ⟨memory, pointers, hsplit, hstrings⟩ := splitToArray_eq_stringsOf text hcount
    have hdisplayable := displayable_of_stringsAt hstrings
    exact .inr ⟨memory, pointers, hsplit, hdisplayable.length_pos, hdisplayable.always_safe⟩
  · exact .inl ⟨hcount, splitToArray_fault text hcount⟩

end SysProg.Wleast
