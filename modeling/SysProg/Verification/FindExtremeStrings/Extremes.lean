import SysProg.Model.FindExtremeStrings
import SysProg.Verification.Fsort.Metrics
import SysProg.Verification.SplitToArray.Memory

/-! # Which strings are printed as the extremes

The threads skip the empty string, which stands for no word in a file. The loop that merges the
results does not. -/

namespace SysProg.FindExtremeStrings

open Transmission SplitToArray

/-! ## Words -/

theorem words_ne_nil {text word : Bytes} (h : word ∈ words text) : word ≠ [] := by
  simpa using List.of_mem_filter h

theorem nul_notMem_words {text word : Bytes} (h : word ∈ words text) : 0 ∉ word := by
  apply nul_notMem_stringsOf (.inr ⟨text, rfl⟩) word
  rw [stringsOf_contents]
  exact List.mem_append_right _ h

/-- Strings as `split_to_array` gives them: not empty, and without a NUL byte. -/
def IsWord (word : Bytes) : Prop :=
  word ≠ [] ∧ 0 ∉ word

/-- The result has the smallest and the largest of the words. -/
structure Extreme (ws : List Bytes) (result : Result) : Prop where
  min_mem : result.min ∈ ws
  max_mem : result.max ∈ ws
  min_le : ∀ word ∈ ws, strcmp result.min word ≤ 0
  le_max : ∀ word ∈ ws, strcmp word result.max ≤ 0

theorem extreme_singleton (word : Bytes) : Extreme [word] ⟨word, word⟩ := by
  have hself := strcmp_self word
  refine ⟨by simp, by simp, ?_, ?_⟩ <;>
  · intro w hw
    rw [List.mem_singleton.mp hw]
    exact hself.le

/-- The smaller of two smallest words and the larger of two largest words. -/
theorem Extreme.append {ws ws' : List Bytes} {result next : Result} (h : Extreme ws result)
    (h' : Extreme ws' next) (hws : ∀ word ∈ ws ++ ws', 0 ∉ word) :
    Extreme (ws ++ ws')
      { min := if 0 < strcmp result.min next.min then next.min else result.min
        max := if strcmp result.max next.max < 0 then next.max else result.max } := by
  have hmin := hws result.min (List.mem_append_left _ h.min_mem)
  have hmin' := hws next.min (List.mem_append_right _ h'.min_mem)
  have hmax := hws result.max (List.mem_append_left _ h.max_mem)
  have hmax' := hws next.max (List.mem_append_right _ h'.max_mem)
  refine ⟨?_, ?_, ?_, ?_⟩
  · dsimp only
    split
    · exact List.mem_append_right _ h'.min_mem
    · exact List.mem_append_left _ h.min_mem
  · dsimp only
    split
    · exact List.mem_append_right _ h'.max_mem
    · exact List.mem_append_left _ h.max_mem
  · intro word hword
    have hswap := strcmp_swap result.min next.min
    dsimp only
    rcases List.mem_append.mp hword with hw | hw
    · split
      · exact strcmp_trans hmin' (by omega) (h.min_le word hw) hmin
      · exact h.min_le word hw
    · split
      · exact h'.min_le word hw
      · exact strcmp_trans hmin (by omega) (h'.min_le word hw) hmin'
  · intro word hword
    have hswap := strcmp_swap result.max next.max
    have hnul := hws word hword
    dsimp only
    rcases List.mem_append.mp hword with hw | hw
    · split
      · exact strcmp_trans hnul (h.le_max word hw) (by omega) hmax
      · exact h.le_max word hw
    · split
      · exact h'.le_max word hw
      · exact strcmp_trans hnul (h'.le_max word hw) (by omega) hmax'

/-! ## The threads -/

theorem Extreme.update {ws : List Bytes} {result : Result} (h : Extreme ws result)
    (hws : ∀ word ∈ ws, IsWord word) {str : Bytes} (hstr : IsWord str) :
    Extreme (ws ++ [str]) (result.update str) := by
  have hmin := (hws result.min h.min_mem).1
  have hmax := (hws result.max h.max_mem).1
  have happend := h.append (extreme_singleton str) (by
    intro word hword
    rcases List.mem_append.mp hword with hw | hw
    · exact (hws word hw).2
    · rw [List.mem_singleton.mp hw]
      exact hstr.2)
  simpa only [Result.update, hmin, hmax, false_or] using happend

theorem extreme_foldl {ws : List Bytes} {result : Result} (h : Extreme ws result)
    (ws' : List Bytes) (hws : ∀ word ∈ ws ++ ws', IsWord word) :
    Extreme (ws ++ ws') (ws'.foldl Result.update result) := by
  induction ws' generalizing ws result with
  | nil => simpa using h
  | cons str ws' ih =>
      have hnext := h.update (fun word hw => hws word (by simp [hw])) (hws str (by simp))
      have hrest := ih hnext (by simpa using hws)
      simpa using hrest

/-- The result of a thread: the extreme words of its file, or two empty strings. -/
theorem scan_words {ws : List Bytes} (hws : ∀ word ∈ ws, IsWord word) (empty : Bool) :
    scan ((if empty then [[]] else []) ++ ws) = ⟨[], []⟩ ∧ ws = [] ∨
      Extreme ws (scan ((if empty then [[]] else []) ++ ws)) := by
  cases ws with
  | nil => cases empty <;> exact .inl ⟨by simp [scan, Result.update], rfl⟩
  | cons word ws =>
      right
      have hself := strcmp_self word
      have hfold := extreme_foldl (extreme_singleton word) ws (by simpa using hws)
      have hword := (hws word (by simp)).1
      cases empty with
      | false => simpa [scan, Result.update, hword, hself] using hfold
      | true => simpa [scan, Result.update] using hfold

/-- What a thread finds in its file. -/
def Found (file : Bytes) (result : Result) : Prop :=
  result = ⟨[], []⟩ ∧ words file = [] ∨ Extreme (words file) result

theorem run_eq {file : Bytes} (hsize : file.length ≤ MAX_RW_COUNT) :
    ∃ result, run file = .ok (some result) ∧ Found file result := by
  have hlt : file.length + 1 < 2 ^ 31 := by
    rw [MAX_RW_COUNT] at hsize
    omega
  obtain ⟨content, pointers, hsplit, hstrings⟩ := splitToArray_eq file hlt
  have hread : readToArray file = .ok (some (content, pointers)) := by
    rw [readToArray, if_neg (by omega), hsplit, Run.ok_bind]
  have hwords : ∀ word ∈ words file, IsWord word :=
    fun word hword => ⟨words_ne_nil hword, nul_notMem_words hword⟩
  refine ⟨scan (stringsOf (file ++ [0])), ?_, ?_⟩
  · rw [run, hread, Run.ok_bind]
    dsimp only
    rw [hstrings, Run.ok_bind]
  · have hscan := scan_words hwords (!file.head?.any isStringChar)
    rw [stringsOf_contents]
    cases hhead : file.head?.any isStringChar <;> simpa [hhead, Found] using hscan

theorem run_exits {file : Bytes} (hsize : MAX_RW_COUNT < file.length) : run file = .ok none := by
  rw [run, readToArray, if_pos (by omega), Run.ok_bind]

theorem results_eq {files : List Bytes} (hsize : ∀ file ∈ files, file.length ≤ MAX_RW_COUNT) :
    ∃ found, results files = .ok (some found) ∧ List.Forall₂ Found files found := by
  induction files with
  | nil => exact ⟨[], rfl, .nil⟩
  | cons file files ih =>
      obtain ⟨result, hrun, hresult⟩ := run_eq (hsize file (by simp))
      obtain ⟨found, hrest, hfound⟩ := ih fun f hf => hsize f (by simp [hf])
      refine ⟨result :: found, ?_, .cons hresult hfound⟩
      rw [results, hrun, Run.ok_bind, hrest, Run.ok_bind]
      rfl

theorem results_exits {files : List Bytes} {file : Bytes} (hfile : file ∈ files)
    (hsize : MAX_RW_COUNT < file.length) : results files = .ok none := by
  have hok : ∀ files : List Bytes, ∃ found, results files = .ok found := by
    intro files
    induction files with
    | nil => exact ⟨_, rfl⟩
    | cons file files ih =>
        obtain ⟨found, hrest⟩ := ih
        by_cases hle : file.length ≤ MAX_RW_COUNT
        · obtain ⟨result, hrun, -⟩ := run_eq hle
          exact ⟨_, by rw [results, hrun, Run.ok_bind, hrest, Run.ok_bind]⟩
        · exact ⟨_, by rw [results, run_exits (by omega), Run.ok_bind, hrest, Run.ok_bind]⟩
  induction files with
  | nil => cases hfile
  | cons first files ih =>
      rcases List.mem_cons.mp hfile with rfl | hfile
      · obtain ⟨found, hrest⟩ := hok files
        rw [results, run_exits hsize, Run.ok_bind, hrest, Run.ok_bind]
        rfl
      · by_cases hle : first.length ≤ MAX_RW_COUNT
        · obtain ⟨result, hrun, -⟩ := run_eq hle
          rw [results, hrun, Run.ok_bind, ih hfile, Run.ok_bind]
          rfl
        · rw [results, run_exits (by omega), Run.ok_bind, ih hfile, Run.ok_bind]
          rfl

/-! ## The merge -/

theorem extreme_merge {ws : List Bytes} {result : Result} (h : Extreme ws result)
    (hws : ∀ word ∈ ws, 0 ∉ word) {files : List Bytes} {found : List Result}
    (hfound : List.Forall₂ Found files found) (hwords : ∀ file ∈ files, words file ≠ []) :
    ∃ result', found.foldl merge (some result) = some result' ∧
      Extreme (ws ++ files.flatMap words) result' := by
  induction hfound generalizing ws result with
  | nil => exact ⟨result, rfl, by simpa using h⟩
  | @cons file next files found hfile _ ih =>
      have hnext : Extreme (words file) next :=
        hfile.resolve_left fun hempty => hwords file (by simp) hempty.2
      have hnul : ∀ word ∈ ws ++ words file, 0 ∉ word := by
        intro word hword
        rcases List.mem_append.mp hword with hw | hw
        · exact hws word hw
        · exact nul_notMem_words hw
      obtain ⟨result', hfold, hextreme⟩ :=
        ih (h.append hnext hnul) hnul fun f hf => hwords f (by simp [hf])
      refine ⟨result', hfold, ?_⟩
      rwa [List.flatMap_cons, ← List.append_assoc]

theorem strcmp_nil_le (str : Bytes) : strcmp [] str ≤ 0 := by
  cases str <;> simp [strcmp]

theorem strcmp_nil_pos {str : Bytes} (hne : str ≠ []) (hnul : 0 ∉ str) : 0 < strcmp str [] := by
  cases str with
  | nil => exact absurd rfl hne
  | cons a str =>
      have hpos := toNat_pos (a := a) (by rintro rfl; simp at hnul)
      simpa only [strcmp, Int.natCast_pos] using hpos

/-- The minimum stays empty. -/
theorem merge_min_nil {result : Result} (h : result.min = []) (found : List Result) :
    ∃ result', found.foldl merge (some result) = some result' ∧ result'.min = [] := by
  induction found generalizing result with
  | nil => exact ⟨result, rfl, h⟩
  | cons next found ih =>
      apply ih
      rw [h, if_neg (not_lt.mpr (strcmp_nil_le next.min))]

theorem Found.min_nil {file : Bytes} {result : Result} (h : Found file result)
    (hempty : words file = []) : result.min = [] := by
  rcases h with ⟨rfl, -⟩ | hextreme
  · rfl
  · have hmem := hextreme.min_mem
    rw [hempty] at hmem
    cases hmem

theorem Found.nul_notMem {file : Bytes} {result : Result} (h : Found file result) :
    0 ∉ result.min := by
  rcases h with ⟨rfl, -⟩ | hextreme
  · simp
  · exact nul_notMem_words hextreme.min_mem

/-- One file without a word makes the minimum empty. -/
theorem merge_found_nil {files : List Bytes} {found : List Result}
    (hfound : List.Forall₂ Found files found) {file : Bytes} (hfile : file ∈ files)
    (hempty : words file = []) {result : Result} (hnul : 0 ∉ result.min) :
    ∃ result', found.foldl merge (some result) = some result' ∧ result'.min = [] := by
  induction hfound generalizing result with
  | nil => cases hfile
  | @cons first next files found hfirst _ ih =>
      rw [List.foldl_cons, merge]
      rcases List.mem_cons.mp hfile with rfl | hfile
      · apply merge_min_nil
        rw [hfirst.min_nil hempty]
        by_cases hmin : result.min = []
        · rw [hmin, ite_self]
        · rw [if_pos (strcmp_nil_pos hmin hnul)]
      · apply ih hfile
        dsimp only
        split
        · exact hfirst.nul_notMem
        · exact hnul

/-! ## What is printed -/

/-- The program prints the smallest and the largest word of all files. -/
def PrintsExtremes (files : List Bytes) : Prop :=
  ∃ result, findExtremeStrings files = .ok (some result) ∧ Extreme (files.flatMap words) result

theorem prints_of_words {files : List Bytes} (hne : files ≠ [])
    (hwords : ∀ file ∈ files, words file ≠ [])
    (hsize : ∀ file ∈ files, file.length ≤ MAX_RW_COUNT) : PrintsExtremes files := by
  obtain ⟨found, hresults, hfound⟩ := results_eq hsize
  cases hfound with
  | nil => exact absurd rfl hne
  | @cons file first files found hfile hfound =>
      have hfirst : Extreme (words file) first :=
        hfile.resolve_left fun hempty => hwords file (by simp) hempty.2
      obtain ⟨result, hfold, hextreme⟩ := extreme_merge hfirst (fun _ => nul_notMem_words) hfound
        fun f hf => hwords f (by simp [hf])
      refine ⟨result, ?_, hextreme⟩
      rw [findExtremeStrings, hresults, Run.ok_bind]
      dsimp only
      rw [List.foldl_cons, merge, hfold]

theorem prints_nil_of_empty {files : List Bytes} {file : Bytes} (hfile : file ∈ files)
    (hempty : words file = []) (hsize : ∀ file ∈ files, file.length ≤ MAX_RW_COUNT) :
    ∃ result, findExtremeStrings files = .ok (some result) ∧ result.min = [] := by
  obtain ⟨found, hresults, hfound⟩ := results_eq hsize
  cases hfound with
  | nil => cases hfile
  | @cons file' first files found hfirst hfound =>
      have hmin : ∃ result, found.foldl merge (some first) = some result ∧ result.min = [] := by
        rcases List.mem_cons.mp hfile with rfl | hfile
        · exact merge_min_nil (hfirst.min_nil hempty) found
        · exact merge_found_nil hfound hfile hempty hfirst.nul_notMem
      obtain ⟨result, hfold, hnil⟩ := hmin
      refine ⟨result, ?_, hnil⟩
      rw [findExtremeStrings, hresults, Run.ok_bind]
      dsimp only
      rw [List.foldl_cons, merge, hfold]

/-- Files of which at least one contains a word. -/
structure FileList where
  files : List Bytes
  hasWord : ∃ file ∈ files, words file ≠ []

/-- The extreme words are printed if and only if every file contains a word and is read at once. -/
theorem prints_extremes_iff (list : FileList) :
    PrintsExtremes list.files ↔ (∀ file ∈ list.files, words file ≠ []) ∧
      ∀ file ∈ list.files, file.length ≤ MAX_RW_COUNT := by
  constructor
  · intro ⟨result, hprints, hextreme⟩
    have hsize : ∀ file ∈ list.files, file.length ≤ MAX_RW_COUNT := by
      intro file hfile
      by_contra hlt
      rw [findExtremeStrings, results_exits hfile (by omega), Run.ok_bind] at hprints
      cases hprints
    refine ⟨?_, hsize⟩
    intro file hfile hempty
    obtain ⟨result', hprints', hnil⟩ := prints_nil_of_empty hfile hempty hsize
    obtain rfl : result' = result := by
      simpa using hprints'.symm.trans hprints
    obtain ⟨file', -, hword⟩ := List.mem_flatMap.mp hextreme.min_mem
    exact words_ne_nil hword hnil
  · intro ⟨hwords, hsize⟩
    obtain ⟨file, hfile, -⟩ := list.hasWord
    exact prints_of_words (List.ne_nil_of_mem hfile) hwords hsize

/-- For a file with the word `a` and an empty file, the minimum is printed as the empty string. -/
theorem emptyFile_printed :
    (findExtremeStrings [[97], []]).map (Option.map Result.min) = .ok (some []) := by
  have hmem : ([] : Bytes) ∈ [[97], []] := by simp
  obtain ⟨result, hprints, hnil⟩ := prints_nil_of_empty hmem rfl (by simp [MAX_RW_COUNT])
  rw [hprints, ← hnil]
  rfl

end SysProg.FindExtremeStrings
