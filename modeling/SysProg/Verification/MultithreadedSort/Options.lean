import SysProg.Verification.MultithreadedSort.Correctness

/-! # The options of the program that sorts strings

`main` takes `-h` as its first argument for a request of help before it looks at the options, so
that the heap sort runs only with `-p`. With all other options the sorted strings are printed. -/

namespace SysProg.MultithreadedSort

open List

variable {qsortR : (CString → CString → ℤ) → List CString → Run (List CString)}
  {argv : List CString} {options : Options} {content : Content} {text : List UInt8}

/-! ## Which arguments request help -/

theorem selectSort_heapSort {optChar : UInt8} {sortType : MtSortType}
    (h : selectSort optChar = .ok sortType) : sortType = .heapSort ↔ optChar = 104 := by
  constructor
  · rintro rfl
    unfold selectSort at h
    split at h <;> simp_all
  · rintro rfl
    exact (Except.ok.inj h).symm

/-- The options that `parseSort` accepts are a hyphen and a letter of the `switch`. -/
theorem parseSort_ok {threads : Option ℤ} {argvOpt n : CString}
    (h : parseSort threads argvOpt n = .ok options) :
    ∃ optChar, argvOpt.bytes = [45, optChar] ∧
      selectSort optChar = .ok options.selectedMtSortType ∧
      options.psortInternalThreads = threads := by
  unfold parseSort at h
  split at h
  · rename_i optChar hbytes
    cases hselect : selectSort optChar with
    | error wrong => simp [hselect, bind, Except.bind] at h
    | ok sortType =>
        simp only [hselect, bind, Except.bind] at h
        split at h
        · obtain rfl := Except.ok.inj h
          exact ⟨optChar, hbytes, hselect, rfl⟩
        · cases h
  · cases h

theorem strcmp_option (arg : CString) {chars : List Char} (hchars : 0 ∉ option chars) :
    strcmp arg.bytes (option chars) = 0 ↔ arg.bytes = option chars := by
  constructor
  · exact eq_of_strcmp arg.no_nul hchars
  · intro h
    rw [h]
    exact strcmp_self _

/-- The first argument is compared with four options, of which `main` could accept one only. -/
theorem isHelpRequested_cons {argv0 arg : CString} {args : List CString} :
    isHelpRequested (argv0 :: arg :: args) = true ↔
      arg.bytes = option ['-', 'h'] ∨ arg.bytes = option ['-', 'H'] ∨
        arg.bytes = option ['-', 'h', 'e', 'l', 'p'] ∨
          arg.bytes = option ['-', '-', 'h', 'e', 'l', 'p'] := by
  have hcompare (chars : List Char) (hchars : 0 ∉ option chars) :
      decide (strcmp arg.bytes (option chars) = 0) = decide (arg.bytes = option chars) :=
    decide_eq_decide.mpr (strcmp_option arg hchars)
  simp only [isHelpRequested, List.getElem?_cons_succ, List.getElem?_cons_zero]
  rw [hcompare _ (by decide), hcompare _ (by decide), hcompare _ (by decide),
    hcompare _ (by decide)]
  simp only [Bool.or_eq_true, decide_eq_true_eq, or_assoc]

/-- Among the arguments that the checks accept, those for the heap sort without `-p` are taken
for a request of help. -/
theorem isHelpRequested_iff (h : parseArguments argv = .ok options) :
    isHelpRequested argv = true ↔
      options.selectedMtSortType = .heapSort ∧ options.psortInternalThreads = none := by
  unfold parseArguments at h
  split at h
  · rename_i argv0 argvOpt n
    obtain ⟨optChar, hbytes, hselect, hthreads⟩ := parseSort_ok h
    rw [isHelpRequested_cons, selectSort_heapSort hselect, hthreads, hbytes]
    have hcapital : optChar ≠ 72 := by
      rintro rfl
      cases hselect
    simp [option, hcapital]
  · rename_i argv0 p m argvOpt n
    split at h
    · rename_i hp
      obtain ⟨optChar, -, -, hthreads⟩ := parseSort_ok h
      rw [strcmp_option p (by decide)] at hp
      rw [isHelpRequested_cons, hp, hthreads]
      simp [option]
    · cases h
  · cases h

/-! ## What the program prints -/

/-- The inner sort is called with a sensible number of threads, and `qsort_r` sorts. -/
structure Options.Sound (options : Options)
    (qsortR : (CString → CString → ℤ) → List CString → Run (List CString)) : Prop where
  psort_threads : ∀ threads, options.psortInternalThreads = some threads →
    1 ≤ threads ∧ threads ≤ 2 ^ 30
  qsort_sorts : options.selectedMtSortType = .quickSort → ∀ strings, ∃ output,
    qsortR compareStrFull strings = .ok output ∧ IsSortingResult strOrder strings output

/-- All runs of the program with the arguments come to the point where all threads have
returned, print the text and exit with status 0. -/
structure MainPrints (qsortR : (CString → CString → ℤ) → List CString → Run (List CString))
    (argv : List CString) (content : Content) (text : List UInt8) : Prop where
  outcome : ∀ result, MainOutcome qsortR argv content result → result = .ok ⟨text, 0⟩
  returns : ∃ options threads, mainArguments argv = .ok options ∧
    options.psortInternalThreads = threads.map Nat.cast ∧
    Leads (threadRun (options.config threads qsortR)).Step (fun t => ∀ idx, t.pcs idx = .returned)
      (startThreads (options.config threads qsortR) content)

theorem Options.Sound.config (h : options.Sound qsortR) {threads : Option ℕ}
    (hthreads : options.psortInternalThreads = threads.map Nat.cast) :
    (options.config threads qsortR).Sound := by
  refine ⟨?_, h.qsort_sorts⟩
  intro p hp
  have hp' : threads = some p := hp
  rw [hp'] at hthreads
  have hbounds := h.psort_threads p hthreads
  omega

/-- Threads that psort_r can be called with are a natural number. -/
theorem Options.Sound.exists_threads (h : options.Sound qsortR) :
    ∃ threads : Option ℕ, options.psortInternalThreads = threads.map Nat.cast := by
  cases hthreads : options.psortInternalThreads with
  | none => exact ⟨none, rfl⟩
  | some p =>
      obtain ⟨hpos, -⟩ := h.psort_threads p hthreads
      refine ⟨some p.toNat, ?_⟩
      rw [Option.map_some, Int.toNat_of_nonneg (by omega)]

/-- A request of help ends the program before it sorts. -/
theorem not_mainPrints (hhelp : isHelpRequested argv = true) :
    ¬ MainPrints qsortR argv content text := by
  intro h
  obtain ⟨options, -, harguments, -, -⟩ := h.returns
  rw [mainArguments, if_pos hhelp] at harguments
  cases harguments

theorem mainPrints_of_prints (hhelp : isHelpRequested argv = false)
    (hparse : parseArguments argv = .ok options) (hsound : options.Sound qsortR)
    (hprints : ∀ cfg : Config, cfg.Sound → Prints cfg content text) :
    MainPrints qsortR argv content text := by
  have harguments : mainArguments argv = .ok options := by
    rw [mainArguments, hhelp]
    exact hparse
  constructor
  · intro result houtcome
    cases houtcome with
    | usage harguments' hargv =>
        rw [harguments] at harguments'
        cases harguments'
    | @sorted options' threads result harguments' hthreads houtcome =>
        obtain rfl := Except.ok.inj (harguments.symm.trans harguments')
        rw [(hprints _ (hsound.config hthreads)).outcome result houtcome]
        rfl
  · obtain ⟨threads, hthreads⟩ := hsound.exists_threads
    exact ⟨options, threads, harguments, hthreads, (hprints _ (hsound.config hthreads)).returns⟩

/-- For all arguments that pass the checks of `main`, the program prints the strings of its file,
each as often as it occurs there and in the order of `strcmp`, unless they are `-h n`. The text
is the same for all of them. -/
theorem prints_sorted_strings_iff (content : Content) :
    ∃ lines, lines ~ content.strings ∧ lines.Pairwise (fun x y => strcmp x.bytes y.bytes ≤ 0) ∧
      ∀ argv options qsortR, parseArguments argv = .ok options → options.Sound qsortR →
        (MainPrints qsortR argv content (printLines lines) ↔
          ¬ (options.selectedMtSortType = .heapSort ∧ options.psortInternalThreads = none)) := by
  obtain ⟨lines, hperm, hsorted, hprints⟩ := prints_sorted_strings content
  refine ⟨lines, hperm, hsorted, fun argv options qsortR hparse hsound => ?_⟩
  rw [← isHelpRequested_iff hparse, Bool.not_eq_true]
  constructor
  · intro h
    by_contra hhelp
    exact not_mainPrints (Bool.eq_true_of_not_eq_false hhelp) h
  · intro hhelp
    exact mainPrints_of_prints hhelp hparse hsound hprints

/-! ## Two calls -/

def twoStrings : Content where
  strings := [⟨[98, 97], by decide⟩, ⟨[98], by decide⟩]
  len_lt := by decide

/-- `qsort_r` as a merge sort, as in the GNU C library -/
def mergeQsortR (compare : CString → CString → ℤ) (strings : List CString) :
    Run (List CString) :=
  .ok (strings.mergeSort fun x y => decide (compare x y ≤ 0))

def programName : CString :=
  ⟨option ['m', 's', 'o', 'r', 't'], by decide⟩

/-- `-p 2 -q 3` -/
def quickSortArgv : List CString :=
  [programName, ⟨option ['-', 'p'], by decide⟩, ⟨option ['2'], by decide⟩,
    ⟨option ['-', 'q'], by decide⟩, ⟨option ['3'], by decide⟩]

theorem prints_sorted_strings_quickSort :
    ∃ lines, lines ~ twoStrings.strings ∧
      lines.Pairwise (fun x y => strcmp x.bytes y.bytes ≤ 0) ∧
      MainPrints mergeQsortR quickSortArgv twoStrings (printLines lines) := by
  obtain ⟨lines, hperm, hsorted, hprints⟩ := prints_sorted_strings_iff twoStrings
  refine ⟨lines, hperm, hsorted, ?_⟩
  have hparse : parseArguments quickSortArgv =
      .ok ⟨3, by decide, by decide, some 2, .quickSort⟩ := by decide
  refine (hprints _ _ _ hparse ⟨?_, ?_⟩).mpr (by simp)
  · rintro threads hthreads
    obtain rfl := Option.some.inj hthreads
    decide
  · intro _ strings
    exact ⟨_, rfl, isSortingResult_mergeSort strOrder strings⟩

/-- `-h 3` -/
def heapSortArgv : List CString :=
  [programName, ⟨option ['-', 'h'], by decide⟩, ⟨option ['3'], by decide⟩]

/-- With `-h 3`, which `usage` describes as a call, the usage is printed instead of the strings. -/
theorem heapSort_prints_usage :
    parseArguments heapSortArgv = .ok ⟨3, by decide, by decide, none, .heapSort⟩ ∧
      MainOutcome mergeQsortR heapSortArgv twoStrings (.ok ⟨usage programName "", 1⟩) ∧
      ¬ ∃ text, MainPrints mergeQsortR heapSortArgv twoStrings text := by
  have harguments : mainArguments heapSortArgv = .error ⟨[], ""⟩ := by decide
  have houtcome : MainOutcome mergeQsortR heapSortArgv twoStrings
      (.ok ⟨[] ++ usage programName "", 1⟩) := .usage harguments rfl
  rw [List.nil_append] at houtcome
  refine ⟨by decide, houtcome, ?_⟩
  rintro ⟨text, hprints⟩
  exact not_mainPrints (by decide) hprints

end SysProg.MultithreadedSort
