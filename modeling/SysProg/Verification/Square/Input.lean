import SysProg.Model.Square
import SysProg.Verification.Text.Decimal

/-! # The lines of the input

`fgets` stops at the end of a line or of its buffer, so the numbers that the client sends
depend on the bytes of its input only, and the line `QUIT` is read as a whole. -/

namespace SysProg.Square

open Transmission

/-- The client sends the numbers, one for each line that it reads, and stops. -/
inductive Enters : Bytes → List ℤ → Prop
  | terminated {stdin : Bytes} (hne : (fgets 4096 stdin).1 ≠ [])
      (hline : readLine (fgets 4096 stdin).1 = .terminated) : Enters stdin []
  | ignored {stdin : Bytes} {xs : List ℤ} (hne : (fgets 4096 stdin).1 ≠ [])
      (hline : readLine (fgets 4096 stdin).1 = .ignored) (hrest : Enters (fgets 4096 stdin).2 xs) :
      Enters stdin xs
  | number {stdin : Bytes} {x : ℤ} {xs : List ℤ} (hne : (fgets 4096 stdin).1 ≠ [])
      (hline : readLine (fgets 4096 stdin).1 = .number x)
      (hrest : Enters (fgets 4096 stdin).2 xs) : Enters stdin (x :: xs)

theorem isInt_of_readLine {line : Bytes} {x : ℤ} (h : readLine line = .number x) : IsInt x := by
  unfold readLine at h
  extract_lets first n second at h
  split at h
  · cases h
  · split at h
    · cases h
    · obtain rfl := Line.number.inj h
      exact isInt_int32 _

theorem Enters.isInt {stdin : Bytes} {xs : List ℤ} (h : Enters stdin xs) : ∀ x ∈ xs, IsInt x := by
  induction h with
  | terminated => simp
  | ignored _ _ _ ih => exact ih
  | number _ hline _ ih =>
      intro y hy
      rcases List.mem_cons.mp hy with rfl | hy
      · exact isInt_of_readLine hline
      · exact ih y hy

theorem length_fgets (size : ℕ) (stdin : Bytes) :
    (fgets size stdin).1.length + (fgets size stdin).2.length = stdin.length := by
  fun_induction fgets size stdin with
  | case1 stdin => simp
  | case2 stdin => simp
  | case3 size => simp
  | case4 size stdin =>
      simp only [List.length_cons, List.length_nil]
      omega
  | case5 size b stdin h ih =>
      simp only [List.length_cons]
      omega

/-- A line is not read beyond its end. -/
theorem fgets_append (size : ℕ) {lines : Bytes} (hlines : lines.getLast? = some 10)
    (rest : Bytes) :
    (fgets (size + 2) (lines ++ rest)).1 ≠ [] ∧ ∃ lines', lines' <:+ lines ∧
      (fgets (size + 2) (lines ++ rest)).2 = lines' ++ rest := by
  induction lines generalizing size with
  | nil => simp at hlines
  | cons b lines ih =>
      rw [List.cons_append, fgets]
      by_cases hb : b = 10
      · rw [if_pos hb]
        exact ⟨by simp, lines, List.suffix_cons b lines, rfl⟩
      · rw [if_neg hb]
        refine ⟨by simp, ?_⟩
        have hne : lines ≠ [] := by
          rintro rfl
          exact hb (by simpa using hlines)
        have hlast : lines.getLast? = some 10 := by
          rwa [List.getLast?_cons_of_ne_nil hne] at hlines
        cases size with
        | zero => exact ⟨lines, List.suffix_cons b lines, rfl⟩
        | succ size =>
            obtain ⟨-, lines', hsuffix, heq⟩ := ih size hlast
            exact ⟨lines', hsuffix.trans (List.suffix_cons b lines), heq⟩

/-- The lines that a user enters, the last of which is `QUIT`; `after` is what follows. -/
def input (lines : List Bytes) (after : Bytes) : Bytes :=
  lines.flatMap (fun line => line ++ [10]) ++ [81, 85, 73, 84, 10] ++ after

theorem enters_quit (after : Bytes) : Enters ([81, 85, 73, 84, 10] ++ after) [] := by
  have hline : (fgets 4096 ([81, 85, 73, 84, 10] ++ after)).1 = [81, 85, 73, 84, 10] := by
    simp [fgets]
  apply Enters.terminated
  · rw [hline]
    simp
  · rw [hline]
    decide

theorem enters_lines (lines after : Bytes) (hlines : lines = [] ∨ lines.getLast? = some 10) :
    ∃ xs, Enters (lines ++ ([81, 85, 73, 84, 10] ++ after)) xs := by
  induction hn : lines.length using Nat.strong_induction_on generalizing lines with
  | h n ih =>
    rcases hlines with rfl | hlast
    · exact ⟨[], enters_quit after⟩
    · obtain ⟨hne, lines', hsuffix, heq⟩ :
          (fgets 4096 (lines ++ ([81, 85, 73, 84, 10] ++ after))).1 ≠ [] ∧ _ :=
        fgets_append 4094 hlast _
      have hlength := length_fgets 4096 (lines ++ ([81, 85, 73, 84, 10] ++ after))
      rw [heq] at hlength
      have hpos := List.length_pos_iff.mpr hne
      have hlt : lines'.length < n := by
        simp only [List.length_append] at hlength
        omega
      have hlines' : lines' = [] ∨ lines'.getLast? = some 10 := by
        by_cases hnil : lines' = []
        · exact .inl hnil
        · right
          obtain ⟨before, rfl⟩ := hsuffix
          rwa [List.getLast?_append_of_ne_nil _ hnil] at hlast
      obtain ⟨xs, hxs⟩ := ih lines'.length hlt lines' hlines' rfl
      rw [← heq] at hxs
      cases hline : readLine (fgets 4096 (lines ++ ([81, 85, 73, 84, 10] ++ after))).1 with
      | ignored => exact ⟨xs, .ignored hne hline hxs⟩
      | terminated => exact ⟨[], .terminated hne hline⟩
      | number x => exact ⟨x :: xs, .number hne hline hxs⟩

theorem enters_input (lines : List Bytes) (after : Bytes) :
    ∃ xs, Enters (input lines after) xs := by
  rw [input, List.append_assoc]
  apply enters_lines
  cases lines using List.reverseRecOn with
  | nil => exact .inl rfl
  | append_singleton lines line => right; simp

end SysProg.Square
