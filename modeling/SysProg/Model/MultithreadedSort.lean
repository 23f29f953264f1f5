import SysProg.Model.FsortMetrics
import SysProg.Model.Psort
import SysProg.Model.Text

/-! # Sorting the strings of a file

`posix/threads/multithreaded-sort.c`. Every thread sorts a part of the strings of the
file, with `psort_r` if the option `-p` is given; then the threads merge the parts, each
merge into a new block of memory. -/

namespace SysProg.MultithreadedSort

open Transmission (atoi formatInt)

/-- `enum mt_sort_type` -/
inductive MtSortType where
  | heapSort
  | ternaryHeapSort
  | quickSort
  | flashSort
  | flashSortBin
  | insertionSort
  | mergeSort
  deriving DecidableEq, Repr

/-- What the threads work with: the arguments that `main` has accepted, and `qsort_r` of the
C library; `psortInternalThreads` is `none` if `use_psort` is not set. -/
structure Config where
  threadCount : ℕ
  threadCount_pos : 1 ≤ threadCount
  threadCount_le : threadCount ≤ 1024
  psortInternalThreads : Option ℕ
  selectedMtSortType : MtSortType
  qsortR : (CString → CString → ℤ) → List CString → Run (List CString)

/-- What `read_to_array` returns; its length is an `int`. -/
structure Content where
  strings : List CString
  len_lt : strings.length < 2 ^ 31

/-- `struct string_array`; `strings` is an offset into a block of memory or `NULL`. -/
structure StringArray where
  strings : Option (ℕ × ℕ)
  len : ℕ

/-- The blocks of memory that hold pointers to strings, the strings of the file first,
and the table of the threads. -/
structure Shared where
  blocks : List (List CString)
  segments : List StringArray

/-! ## Sorting -/

/-- The sort without `use_psort`. -/
def sequentialSort (cfg : Config) (strings : List CString) : Run (List CString) :=
  match cfg.selectedMtSortType with
  | .heapSort => HeapSort.hsortR compareStrFull strings
  | .ternaryHeapSort => HeapSort.ternaryHsortR compareStrFull strings
  | .quickSort => cfg.qsortR compareStrFull strings
  | .flashSort => Fsort.fsortR compareStrFull FsortMetrics.metricStrFull strings
  | .flashSortBin => Fsort.fsortR compareStrFull FsortMetrics.metricBinaryPrintablePref strings
  | .insertionSort => Isort.isortR compareStrFull strings
  | .mergeSort => Msort.msortR compareStrFull strings

/-- The call of `psort_r` behind `parallel_hsort_r` and its siblings. -/
def psortParams (cfg : Config) (threadCount : ℕ) : Psort.Params CString :=
  match cfg.selectedMtSortType with
  | .heapSort => ⟨compareStrFull, none, threadCount, .heapSort, cfg.qsortR⟩
  | .ternaryHeapSort => ⟨compareStrFull, none, threadCount, .ternaryHeapSort, cfg.qsortR⟩
  | .quickSort => ⟨compareStrFull, none, threadCount, .quickSort, cfg.qsortR⟩
  | .flashSort =>
      ⟨compareStrFull, some FsortMetrics.metricStrFull, threadCount, .flashSort, cfg.qsortR⟩
  | .flashSortBin =>
      ⟨compareStrFull, some FsortMetrics.metricBinaryPrintablePref, threadCount, .flashSort,
        cfg.qsortR⟩
  | .insertionSort => ⟨compareStrFull, none, threadCount, .insertionSort, cfg.qsortR⟩
  | .mergeSort => ⟨compareStrFull, none, threadCount, .mergeSort, cfg.qsortR⟩

/-- How the call of the sort function in `thread_run` can end. -/
def SortOutcome (cfg : Config) (strings : List CString) (result : Run (List CString)) : Prop :=
  match cfg.psortInternalThreads with
  | none => result = sequentialSort cfg strings
  | some threads => Psort.Outcome (psortParams cfg threads) strings result

/-- Where an array lies; a `NULL` pointer is not followed. -/
def locate (arr : StringArray) : Run (ℕ × ℕ) :=
  match arr.strings with
  | some ptr => .ok ptr
  | none => .error .nullPointer

def readStrings (s : Shared) (arr : StringArray) : Run (List CString) := do
  let (block, off) ← locate arr
  let strings ← load s.blocks block
  loadRange strings off arr.len

def writeStrings (s : Shared) (arr : StringArray) (data : List CString) : Run Shared := do
  let (block, off) ← locate arr
  let strings ← load s.blocks block
  let strings ← storeRange strings off data
  .ok { s with blocks := s.blocks.set block strings }

/-- The first part of `thread_run`. -/
def SortSegment (cfg : Config) (idx : ℕ) (s : Shared) (s' : Run Shared) : Prop :=
  ∃ sorted, (∀ arr strings, load s.segments idx = .ok arr → readStrings s arr = .ok strings →
      SortOutcome cfg strings sorted) ∧
    s' = do
      let arr ← load s.segments idx
      let _ ← readStrings s arr
      let sorted ← sorted
      writeStrings s arr sorted

/-! ## Merging -/

/-- `while (j < n)`, and likewise for the left array. -/
def copyRest (rest : List CString) (j : ℕ) (strings : List CString) : List CString :=
  if h : j < rest.length then copyRest rest (j + 1) (strings ++ [rest[j]]) else strings
termination_by rest.length - j

/-- `while (i+j < total_len)` -/
def mergeStrings (left right : List CString) (i j : ℕ) (strings : List CString) : List CString :=
  if i + j < left.length + right.length then
    if hi : left.length ≤ i then
      mergeStrings left right i right.length (copyRest right j strings)
    else if hj : right.length ≤ j then
      mergeStrings left right left.length j (copyRest left i strings)
    else if strcmp left[i].bytes right[j].bytes ≤ 0 then
      mergeStrings left right (i + 1) j (strings ++ [left[i]])
    else
      mergeStrings left right i (j + 1) (strings ++ [right[j]])
  else strings
termination_by left.length + right.length - (i + j)

/-- The body of `if (other_idx < thread_count)`. -/
def mergeSegments (idx otherIdx : ℕ) (s : Shared) : Run Shared := do
  let arr ← load s.segments idx
  let other ← load s.segments otherIdx
  let left ← readStrings s arr
  let right ← readStrings s other
  let strings := mergeStrings left right 0 0 []
  .ok ⟨s.blocks ++ [strings],
    (s.segments.set idx ⟨some (s.blocks.length, 0), arr.len + other.len⟩).set otherIdx ⟨none, 0⟩⟩

/-- The body of the loop over `step` after the barrier. -/
def mergeStep (cfg : Config) (step idx : ℕ) (s : Shared) : Run Shared :=
  if idx % (2 * step) = 0 then
    if idx + step < cfg.threadCount then mergeSegments idx (idx + step) s else .ok s
  else .ok s

/-- `thread_run`, divided by the barriers; after a fault nothing happens. -/
def threadRun (cfg : Config) : Barrier.Program Psort.Phase (Run Shared) cfg.threadCount where
  first := .sort
  act phase idx shared shared' :=
    match phase, shared with
    | _, .error e => shared' = .error e
    | .sort, .ok s => SortSegment cfg idx s shared'
    | .merge step, .ok s => shared' = mergeStep cfg step idx s
  next phase :=
    let step := match phase with
      | .sort => 1
      | .merge step => 2 * step
    if step < cfg.threadCount then some (.merge step) else none

/-! ## The main thread -/

/-- The loop of `main` that divides the strings. -/
def partitionLoop (threadCount lenPerThread i restLen ptr : ℕ) (segments : List StringArray) :
    List StringArray :=
  if i < threadCount then
    let len := if i = threadCount - 1 then restLen else lenPerThread
    partitionLoop threadCount lenPerThread (i + 1) (restLen - lenPerThread) (ptr + lenPerThread)
      (segments ++ [⟨some (0, ptr), len⟩])
  else segments
termination_by threadCount - i

def startThreads (cfg : Config) (content : Content) :
    Barrier.State Psort.Phase (Run Shared) cfg.threadCount :=
  let len := content.strings.length
  (threadRun cfg).start (.ok ⟨[content.strings],
    partitionLoop cfg.threadCount (len / cfg.threadCount) 0 len 0 []⟩)

/-- What `printf("%s\n", ..)` writes for the lines. -/
def printLines (lines : List CString) : List UInt8 :=
  lines.flatMap fun str => str.bytes ++ [10]

/-- What `main` prints after it has joined the threads. -/
def printSegment (s : Shared) : Run (List UInt8) := do
  let arr ← load s.segments 0
  let strings ← readStrings s arr
  .ok (printLines strings)

/-- What a complete run of the program can print. -/
inductive Outcome (cfg : Config) (content : Content) : Run (List UInt8) → Prop
  | joined {t : Barrier.State Psort.Phase (Run Shared) cfg.threadCount}
      (hrun : Reaches (threadRun cfg).Step (startThreads cfg content) t)
      (hjoin : ∀ idx, t.pcs idx = .returned) : Outcome cfg content (t.shared >>= printSegment)

/-! ## The arguments -/

/-- The characters of an option. -/
def option (chars : List Char) : List UInt8 :=
  chars.map fun c => UInt8.ofNat c.toNat

/-- `is_help_requested` of `posix/lib/lib.c` -/
def isHelpRequested (argv : List CString) : Bool :=
  match argv[1]? with
  | none => false
  | some arg =>
      strcmp arg.bytes (option ['-', 'h']) = 0 || strcmp arg.bytes (option ['-', 'H']) = 0 ||
        strcmp arg.bytes (option ['-', 'h', 'e', 'l', 'p']) = 0 ||
        strcmp arg.bytes (option ['-', '-', 'h', 'e', 'l', 'p']) = 0

/-- What `main` takes from its arguments, with its check of `thread_count`. -/
structure Options where
  threadCount : ℕ
  threadCount_pos : 1 ≤ threadCount
  threadCount_le : threadCount ≤ 1024
  psortInternalThreads : Option ℤ
  selectedMtSortType : MtSortType
  deriving DecidableEq

/-- What is printed before the call of `usage`, and its parameter `msg`. -/
structure Usage where
  printed : List UInt8
  msg : String
  deriving DecidableEq

def ascii (text : String) : List UInt8 :=
  option text.toList

/-- `switch (opt_char)`, with the cases `h`, `t`, `f`, `b`, `q`, `i` and `m` -/
def selectSort (optChar : UInt8) : Except Usage MtSortType :=
  match optChar with
  | 104 => .ok .heapSort
  | 116 => .ok .ternaryHeapSort
  | 102 => .ok .flashSort
  | 98 => .ok .flashSortBin
  | 113 => .ok .quickSort
  | 105 => .ok .insertionSort
  | 109 => .ok .mergeSort
  | _ => .error ⟨[], "wrong option: only -q and -h supported"⟩

/-- `main` from `argv_opt` on; `n` is `argv[n_idx]`. -/
def parseSort (psortInternalThreads : Option ℤ) (argvOpt n : CString) : Except Usage Options :=
  match argvOpt.bytes with
  | [45, optChar] => do
      let selectedMtSortType ← selectSort optChar
      let threadCount := atoi n.bytes
      if h : 1 ≤ threadCount ∧ threadCount ≤ 1024 then
        .ok ⟨threadCount.toNat, by omega, by omega, psortInternalThreads, selectedMtSortType⟩
      else
        .error ⟨ascii "running with " ++ formatInt threadCount ++ ascii " threads\n",
          "wrong number of threads"⟩
  | _ => .error ⟨[], "wrong option"⟩

/-- The checks of `main` after that for a request of help. -/
def parseArguments (argv : List CString) : Except Usage Options :=
  match argv with
  | [_, argvOpt, n] => parseSort none argvOpt n
  | [_, p, m, argvOpt, n] =>
      if strcmp p.bytes (option ['-', 'p']) = 0 then parseSort (some (atoi m.bytes)) argvOpt n
      else .error ⟨[], "wrong first option"⟩
  | _ =>
      .error ⟨ascii "found " ++ formatInt (argv.length - 1) ++ ascii " arguments\n",
        "wrong number of arguments"⟩

/-- What `main` does before it reads its input. -/
def mainArguments (argv : List CString) : Except Usage Options :=
  if isHelpRequested argv then .error ⟨[], ""⟩ else parseArguments argv

/-- The lines of `usage`, each behind `argv0`. -/
def usageLines : List String :=
  [" -f n\n\tsorts stdin using flashsort in n threads.\n\n",
    " -b n\n\tsorts stdin using flashsort with optimized metric function for binaries in n threads.\n\n",
    " -h n\n\tsorts stdin using heapsort in n threads.\n\n",
    " -t n\n\tsorts stdin using ternary heapsort in n threads.\n\n",
    " -q n\n\tsorts stdin using quicksort in n threads.\n\n",
    " -i n\n\tsorts stdin using insertionsort in n threads.\n\n",
    " -m n\n\tsorts stdin using mergesort in n threads.\n\n",
    " -p m -f n\n\tsorts stdin running psort with m flashsort-threads in n threads.\n\n",
    " -p m -b n\n\tsorts stdin running psort with m flashsort-threads with optimized metric function for binaries in n threads.\n\n",
    " -p m -h n\n\tsort-threadss stdin running psort with m heapsort in n threads.\n\n",
    " -p m -t n\n\tsort-threadss stdin running psort with m ternary heapsort in n threads.\n\n",
    " -p m -q n\n\tsort-threadss stdin running psort with m quicksort-threads in n threads.\n\n",
    " -p m -i n\n\tsort-threadss stdin running psort with m insertionsort-threads in n threads.\n\n",
    " -p m -m n\n\tsort-threadss stdin running psort with m mergesort-threads in n threads.\n\n"]

def usage (argv0 : CString) (msg : String) : List UInt8 :=
  ascii msg ++ ascii "\n\nUsage:\n\n" ++
    usageLines.flatMap fun line => argv0.bytes ++ ascii line

/-- What a program has printed, and the status of its `exit`. -/
structure Exit where
  printed : List UInt8
  status : ℕ

/-- The configuration of the threads; `threads` is `psort_internal_threads`. -/
def Options.config (options : Options) (threads : Option ℕ)
    (qsortR : (CString → CString → ℤ) → List CString → Run (List CString)) : Config where
  threadCount := options.threadCount
  threadCount_pos := options.threadCount_pos
  threadCount_le := options.threadCount_le
  psortInternalThreads := threads
  selectedMtSortType := options.selectedMtSortType
  qsortR := qsortR

/-- What a run of the program with the arguments can end with. With a negative number of
threads for `psort_r` it is left open. -/
inductive MainOutcome (qsortR : (CString → CString → ℤ) → List CString → Run (List CString))
    (argv : List CString) (content : Content) : Run Exit → Prop
  | usage {wrong : Usage} {argv0 : CString} (harguments : mainArguments argv = .error wrong)
      (hargv : argv.head? = some argv0) :
      MainOutcome qsortR argv content (.ok ⟨wrong.printed ++ usage argv0 wrong.msg, 1⟩)
  | sorted {options : Options} {threads : Option ℕ} {result : Run (List UInt8)}
      (harguments : mainArguments argv = .ok options)
      (hthreads : options.psortInternalThreads = threads.map Nat.cast)
      (houtcome : Outcome (options.config threads qsortR) content result) :
      MainOutcome qsortR argv content (result.map fun text => ⟨text, 0⟩)

end SysProg.MultithreadedSort
