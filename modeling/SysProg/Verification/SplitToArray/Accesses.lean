import SysProg.Verification.SplitToArray.Memory

/-! # No byte is overwritten before it has been read -/

namespace SysProg.SplitToArray

open Transmission

/-! ## Without the accesses -/

theorem passTr_erase (endPointer : ℕ) (content : Bytes) (source target : ℕ) (blocks : Blocks) :
    (passTr endPointer content source target blocks).2 =
      (copyString content endPointer source target >>= fun copied =>
        recordString blocks target copied.2.2 >>= fun blocks =>
          skipSeparators copied.1 endPointer copied.2.1 >>= fun source =>
            .ok (copied.1, source, copied.2.2, blocks)) := by
  simp only [passTr, Logged.result_bind, copyStringTr_erase, skipSeparatorsTr_erase]
  rfl

theorem splitLoop_succ (endPointer fuel : ℕ) (content : Bytes) (source target : ℕ)
    (blocks : Blocks) : splitLoop endPointer (fuel + 1) content source target blocks =
      if source ≤ endPointer then
        (passTr endPointer content source target blocks).2 >>= fun pass =>
          splitLoop endPointer fuel pass.1 pass.2.1 pass.2.2.1 pass.2.2.2
      else .ok (content, blocks) := by
  rw [passTr_erase]
  simp only [bind_assoc]
  rfl

theorem splitLoopTr_erase (endPointer fuel : ℕ) (content : Bytes) (source target : ℕ)
    (blocks : Blocks) : (splitLoopTr endPointer fuel content source target blocks).2 =
      splitLoop endPointer fuel content source target blocks := by
  induction fuel generalizing content source target blocks with
  | zero => rfl
  | succ fuel ih =>
      rw [splitLoopTr, splitLoop_succ]
      split
      · obtain ⟨log, fault | ⟨content, source, stringEnd, blocks⟩⟩ :=
          passTr endPointer content source target blocks
        · rfl
        · exact ih content source stringEnd blocks
      · rfl

theorem splitToArrayTr_erase (content : Bytes) (size : ℕ) :
    (splitToArrayTr content size).2 = splitToArray content size := by
  simp only [splitToArrayTr, splitToArray, splitLoopTr_erase]

/-! ## The accesses of a scan -/

/-- The accesses of a scan of the `original` contents that takes `source_pointer` from `n` to `m`.
The byte at `source_pointer` can be read more than once, and what is overwritten is before it. -/
inductive Scans (original : Bytes) : ℕ → List Access → ℕ → Prop where
  | nil {n : ℕ} : Scans original n [] n
  | read {n m : ℕ} {c : UInt8} {log : List Access} (hc : original[n]? = some c)
      (hrest : Scans original (n + 1) log m) : Scans original n (.read n c :: log) m
  | look {n m : ℕ} {c : UInt8} {log : List Access} (hc : original[n]? = some c)
      (hrest : Scans original n log m) : Scans original n (.read n c :: log) m
  | write {n m idx : ℕ} {c : UInt8} {log : List Access} (hidx : idx < n)
      (hrest : Scans original n log m) : Scans original n (.write idx c :: log) m

variable {original : Bytes} {n m k : ℕ} {log log' : List Access}

theorem Scans.append (h : Scans original n log m) (h' : Scans original m log' k) :
    Scans original n (log ++ log') k := by
  induction h with
  | nil => exact h'
  | read hc _ ih => exact .read hc (ih h')
  | look hc _ ih => exact .look hc (ih h')
  | write hidx _ ih => exact .write hidx (ih h')

/-- What is read are the original bytes. -/
theorem Scans.read_eq (h : Scans original n log m) {idx : ℕ} {c : UInt8}
    (hmem : .read idx c ∈ log) : original[idx]? = some c := by
  induction h with
  | nil => cases hmem
  | read hc _ ih =>
      cases hmem with
      | head => exact hc
      | tail _ hmem => exact ih hmem
  | look hc _ ih =>
      cases hmem with
      | head => exact hc
      | tail _ hmem => exact ih hmem
  | write hidx _ ih =>
      cases hmem with
      | tail _ hmem => exact ih hmem

/-- A byte is overwritten only after it has been read. -/
theorem Scans.read_before (h : Scans original n log m) {front after : List Access} {idx : ℕ}
    {c : UInt8} (hlog : log = front ++ .write idx c :: after) (hidx : n ≤ idx) :
    ∃ d, .read idx d ∈ front := by
  induction h generalizing front with
  | nil => simp at hlog
  | @read n m d log hc _ ih =>
      cases front with
      | nil => cases hlog
      | cons first front =>
          obtain ⟨rfl, htail⟩ := List.cons.inj hlog
          rcases Nat.eq_or_lt_of_le hidx with rfl | hlt
          · exact ⟨d, List.mem_cons_self⟩
          · obtain ⟨d', hmem⟩ := ih htail hlt
            exact ⟨d', List.mem_cons_of_mem _ hmem⟩
  | look hc _ ih =>
      cases front with
      | nil => cases hlog
      | cons first front =>
          obtain ⟨rfl, htail⟩ := List.cons.inj hlog
          obtain ⟨d', hmem⟩ := ih htail hidx
          exact ⟨d', List.mem_cons_of_mem _ hmem⟩
  | write hlt _ ih =>
      cases front with
      | nil =>
          cases hlog
          omega
      | cons first front =>
          obtain ⟨rfl, htail⟩ := List.cons.inj hlog
          obtain ⟨d', hmem⟩ := ih htail hidx
          exact ⟨d', List.mem_cons_of_mem _ hmem⟩

/-! ## The accesses of one pass -/

theorem copyLog_scans (read string : Bytes) (last : UInt8) (rest : Bytes) {target : ℕ}
    (htarget : target ≤ read.length) :
    Scans (read ++ (string ++ last :: rest)) read.length
      (copyLog read.length target string last) (read.length + string.length + 1) := by
  induction string generalizing read target with
  | nil =>
      refine .read ?_ (.write (Nat.lt_succ_of_le htarget) .nil)
      simp
  | cons c string ih =>
      have hmove : read ++ (c :: string ++ last :: rest) =
          read ++ [c] ++ (string ++ last :: rest) := by
        simp
      have htarget' : target + 1 ≤ (read ++ [c]).length := by simpa using htarget
      have hnext := ih (read ++ [c]) htarget'
      rw [← hmove, List.length_append, List.length_singleton] at hnext
      have hlength : read.length + (c :: string).length + 1 =
          read.length + 1 + string.length + 1 := by
        rw [List.length_cons]
        omega
      rw [hlength]
      exact .read (by simp) (.write (Nat.lt_succ_of_le htarget) hnext)

theorem skipLog_scans (read separators rest : Bytes) :
    Scans (read ++ (separators ++ rest)) read.length
      (skipLog read.length separators rest.head?) (read.length + separators.length) := by
  induction separators generalizing read with
  | nil =>
      cases rest with
      | nil => exact .nil
      | cons c rest => exact .look (by simp) .nil
  | cons c separators ih =>
      have hmove : read ++ (c :: separators ++ rest) = read ++ [c] ++ (separators ++ rest) := by
        simp
      have hnext := ih (read ++ [c])
      rw [← hmove, List.length_append, List.length_singleton] at hnext
      have hlength : read.length + (c :: separators).length =
          read.length + 1 + separators.length := by
        rw [List.length_cons]
        omega
      rw [hlength]
      exact .read (by simp) hnext

theorem Turn.log_scans {rest : Bytes} (turn : Turn rest) (read : Bytes) {target : ℕ}
    (htarget : target ≤ read.length) :
    Scans (read ++ rest) read.length (turn.log read.length target)
      (read.length + (turn.string.length + 1 + turn.separators.length)) := by
  obtain ⟨string, last, separators, rest', rfl, -, -, -, -, -⟩ := turn
  have hcopy := copyLog_scans read string last (separators ++ rest') htarget
  have hskip := skipLog_scans (read ++ (string ++ [last])) separators rest'
  have hlength : (read ++ (string ++ [last])).length = read.length + string.length + 1 := by
    simp only [List.length_append, List.length_singleton, Nat.add_assoc]
  have hmove : read ++ (string ++ [last]) ++ (separators ++ rest') =
      read ++ (string ++ last :: (separators ++ rest')) := by
    simp
  rw [hmove, hlength] at hskip
  have hscan := hcopy.append hskip
  rwa [Nat.add_assoc, Nat.add_assoc] at hscan

def Access.written : Access → Option UInt8
  | .read _ _ => none
  | .write _ c => some c

/-- The bytes that are copied in a pass. -/
def Pass.copied (pass : Pass) : Bytes :=
  pass.accesses.filterMap Access.written

theorem written_copyLog (source target : ℕ) (string : Bytes) (last : UInt8) :
    (copyLog source target string last).filterMap Access.written = string ++ [0] := by
  induction string generalizing source target with
  | nil => rfl
  | cons c string ih =>
      rw [copyLog, List.filterMap_cons, Access.written, List.filterMap_cons, Access.written, ih]
      rfl

theorem written_skipLog (source : ℕ) (separators : Bytes) (next : Option UInt8) :
    (skipLog source separators next).filterMap Access.written = [] := by
  induction separators generalizing source with
  | nil => cases next <;> rfl
  | cons c separators ih =>
      rw [skipLog, List.filterMap_cons, Access.written]
      exact ih (source + 1)

theorem Turn.copied_eq {rest : Bytes} (turn : Turn rest) (source target : ℕ) :
    Pass.copied ⟨target, turn.log source target⟩ = turn.string ++ [0] := by
  rw [Pass.copied, Turn.log, List.filterMap_append, written_copyLog, written_skipLog,
    List.append_nil]

/-! ## The accesses of all passes -/

theorem splitLoopTr_nil (fuel : ℕ) (done gap : Bytes) {endPointer : ℕ}
    (hend : (done ++ (gap ++ [])).length = endPointer + 1) (blocks : Blocks) :
    (splitLoopTr endPointer fuel (done ++ (gap ++ [])) (done.length + gap.length) done.length
      blocks).1 = [] := by
  have hlt : ¬ done.length + gap.length ≤ endPointer := by
    simp only [List.length_append, List.length_nil] at hend
    omega
  cases fuel with
  | zero => rfl
  | succ fuel => rw [splitLoopTr, if_neg hlt]

/-- The passes of the outer loop when `read` has been read and `rest` has not. -/
structure PassesSpec (read rest done : Bytes) (passes : List Pass) : Prop where
  pointers : passes.map Pass.stringPointer = pointersFrom done.length (stringsOf rest)
  copied : passes.map Pass.copied = (stringsOf rest).map fun string => string ++ [0]
  scans : ∃ m, Scans (read ++ rest) read.length (passes.flatMap Pass.accesses) m

theorem passesSpec_nil (read done : Bytes) : PassesSpec read [] done [] := by
  refine ⟨?_, ?_, read.length, .nil⟩
  · simp [stringsOf, pointersFrom]
  · simp [stringsOf]

theorem passesSpec_cons {rest : Bytes} (turn : Turn rest) {read done : Bytes} {passes : List Pass}
    (hdone : done.length ≤ read.length)
    (h : PassesSpec (read ++ (turn.string ++ turn.last :: turn.separators)) turn.rest'
      (done ++ turn.string ++ [0]) passes) :
    PassesSpec read rest done (⟨done.length, turn.log read.length done.length⟩ :: passes) := by
  obtain ⟨m, hscans⟩ := h.scans
  have hmove : read ++ (turn.string ++ turn.last :: turn.separators) ++ turn.rest' =
      read ++ rest := by
    refine Eq.trans ?_ (congrArg (read ++ ·) turn.rest_eq.symm)
    simp
  have hlength : (read ++ (turn.string ++ turn.last :: turn.separators)).length =
      read.length + (turn.string.length + 1 + turn.separators.length) := by
    simp only [List.length_append, List.length_cons]
    omega
  have htarget : (done ++ turn.string ++ [0]).length = done.length + turn.string.length + 1 := by
    simp only [List.length_append, List.length_singleton]
  rw [hmove, hlength] at hscans
  refine ⟨?_, ?_, m, (turn.log_scans read hdone).append hscans⟩
  · rw [List.map_cons, h.pointers, turn.stringsOf_eq, pointersFrom, htarget]
  · rw [List.map_cons, h.copied, turn.copied_eq, turn.stringsOf_eq, List.map_cons]

theorem splitLoopTr_passes {fuel : ℕ} {rest : Bytes} (hended : Ended rest)
    (hfuel : rest.length ≤ fuel) (done gap : Bytes) {endPointer : ℕ}
    (hend : (done ++ (gap ++ rest)).length = endPointer + 1) {blocks : Blocks} {pointers : List ℕ}
    (hblocks : blocks.Holds pointers)
    (hroom : pointers.length + (stringsOf rest).length ≤ MAX_BLOCK_COUNT * MAX_BLOCK_SIZE)
    (read : Bytes) (hread : read.length = done.length + gap.length) :
    PassesSpec read rest done (splitLoopTr endPointer fuel (done ++ (gap ++ rest))
      (done.length + gap.length) done.length blocks).1 := by
  induction fuel generalizing rest done gap blocks pointers read with
  | zero =>
      obtain rfl : rest = [] := List.length_eq_zero_iff.mp (Nat.le_zero.mp hfuel)
      rw [splitLoopTr_nil 0 done gap hend]
      exact passesSpec_nil read done
  | succ fuel ih =>
      by_cases hne : rest = []
      · subst hne
        rw [splitLoopTr_nil _ done gap hend]
        exact passesSpec_nil read done
      · obtain ⟨turn⟩ := exists_turn hended hne
        have hlt := turn.length_lt
        have hstrings := turn.stringsOf_eq
        rw [hstrings, List.length_cons] at hroom
        obtain ⟨blocks', hrecord, hblocks'⟩ := hblocks.record (by omega) done.length
        obtain ⟨gap', hend', hpass⟩ := passTr_turn turn done gap hend hrecord
        have hrest := congrArg List.length turn.rest_eq
        have hread' : (read ++ (turn.string ++ turn.last :: turn.separators)).length =
            (done ++ turn.string ++ [0]).length + gap'.length := by
          simp only [List.length_append, List.length_cons, List.length_nil] at hrest hend hend' ⊢
          omega
        have hpasses := ih (turn.ended hended) (by omega) (done ++ turn.string ++ [0]) gap' hend'
          hblocks' (by rw [List.length_append, List.length_singleton]; omega) _ hread'
        rw [splitLoopTr, if_pos (turn.source_le hend), hpass]
        rw [← hread]
        exact passesSpec_cons turn (by omega) hpasses

/-! ## The result -/

theorem length_layout_le {rest : Bytes} (h : Ended rest) :
    (layout (stringsOf rest)).length ≤ rest.length := by
  induction hn : rest.length using Nat.strong_induction_on generalizing rest with
  | h n ih =>
    by_cases hne : rest = []
    · rw [stringsOf, if_pos hne]
      exact Nat.zero_le _
    · obtain ⟨turn⟩ := exists_turn h hne
      have hlength := congrArg List.length turn.rest_eq
      have hrest := ih turn.rest'.length (hn ▸ turn.length_lt) (turn.ended h) rfl
      rw [turn.stringsOf_eq, layout, List.flatMap_cons, List.length_append, ← layout]
      simp only [List.length_append, List.length_cons, List.length_nil] at hlength ⊢
      omega

theorem pointersFrom_increasing (start : ℕ) (strings : List Bytes) :
    (pointersFrom start strings).Pairwise (· < ·) ∧
      ∀ p ∈ pointersFrom start strings, start ≤ p ∧ p < start + (layout strings).length := by
  induction strings generalizing start with
  | nil => exact ⟨.nil, by simp [pointersFrom]⟩
  | cons string strings ih =>
      obtain ⟨hincreasing, hbounds⟩ := ih (start + string.length + 1)
      have hlayout : (layout (string :: strings)).length =
          string.length + 1 + (layout strings).length := by
        simp only [layout, List.flatMap_cons, List.length_append, List.length_singleton]
      rw [pointersFrom, hlayout]
      refine ⟨List.pairwise_cons.mpr ⟨?_, hincreasing⟩, List.forall_mem_cons.mpr ⟨by omega, ?_⟩⟩
      · intro p hp
        have := (hbounds p hp).1
        omega
      · intro p hp
        have := hbounds p hp
        omega

theorem stringsAt_passes {content : Bytes} {passes : List Pass} {strings : List Bytes}
    (hstrings : stringsAt content (passes.map Pass.stringPointer) = .ok strings)
    (hcopied : passes.map Pass.copied = strings.map fun string => string ++ [0]) :
    ∀ pass ∈ passes, ∃ string, stringAt content pass.stringPointer = .ok string ∧
      pass.copied = string ++ [0] := by
  induction passes generalizing strings with
  | nil =>
      intro pass hpass
      cases hpass
  | cons pass passes ih =>
      obtain ⟨string, hstring, hrest⟩ := Run.bind_eq_ok hstrings
      obtain ⟨strings, htail, heq⟩ := Run.bind_eq_ok hrest
      cases heq
      obtain ⟨hfirst, hothers⟩ := List.cons.inj hcopied
      exact List.forall_mem_cons.mpr ⟨⟨string, hstring, hfirst⟩, ih htail hothers⟩

/-- The strings are moved together in the memory of the text: what is overwritten has been read
before, and the array has the strings that the passes have copied. -/
structure Compacted (text : Bytes) (passes : List Pass) (content : Bytes) (pointers : List ℕ) :
    Prop where
  overwritten : ∀ before idx c after,
    passes.flatMap Pass.accesses = before ++ .write idx c :: after →
      idx ≤ text.length ∧ ∃ d, .read idx d ∈ before
  read_eq : ∀ idx c, .read idx c ∈ passes.flatMap Pass.accesses → (text ++ [0])[idx]? = some c
  pointers_eq : pointers = passes.map Pass.stringPointer
  increasing : pointers.Pairwise (· < ·)
  inside : ∀ p ∈ pointers, p ≤ text.length
  strings : ∀ pass ∈ passes, ∃ string, stringAt content pass.stringPointer = .ok string ∧
    pass.copied = string ++ [0]

theorem splitToArray_compacted (text : Bytes)
    (hcount : (stringsOf (text ++ [0])).length < 2 ^ 31) :
    ∃ passes content pointers,
      splitToArrayTr (text ++ [0]) text.length = (passes, .ok (content, pointers)) ∧
      splitToArray (text ++ [0]) text.length = .ok (content, pointers) ∧
      Compacted text passes content pointers := by
  have hended : Ended (text ++ [0]) := .inr ⟨text, rfl⟩
  have hend : ([] ++ ([] ++ (text ++ [0]))).length = text.length + 1 := by simp
  have hfuel : (text ++ [0]).length ≤ text.length + 1 := by simp
  obtain ⟨content, hsplit, hstrings⟩ := splitToArray_eq_pointersFrom text hcount
  have hpasses := splitLoopTr_passes hended hfuel [] [] hend holds_initial
    (by
      simp only [List.length_nil, MAX_BLOCK_COUNT, MAX_BLOCK_SIZE]
      omega) [] rfl
  have herase := splitToArrayTr_erase (text ++ [0]) text.length
  rw [hsplit] at herase
  obtain ⟨m, hscans⟩ := hpasses.scans
  obtain ⟨hincreasing, hbounds⟩ := pointersFrom_increasing 0 (stringsOf (text ++ [0]))
  have hlayout := length_layout_le hended
  refine ⟨_, content, _, Prod.ext rfl herase, hsplit, ?_⟩
  constructor
  · intro before idx c after hlog
    obtain ⟨d, hmem⟩ := hscans.read_before hlog (Nat.zero_le _)
    have hread := hscans.read_eq (hlog ▸ List.mem_append_left _ hmem)
    obtain ⟨hlt, -⟩ := List.getElem?_eq_some_iff.mp hread
    rw [List.nil_append, List.length_append, List.length_singleton] at hlt
    exact ⟨Nat.le_of_lt_succ hlt, d, hmem⟩
  · intro idx c hmem
    exact hscans.read_eq hmem
  · exact hpasses.pointers.symm
  · exact hincreasing
  · intro p hp
    have := (hbounds p hp).2
    simp only [List.length_append, List.length_singleton] at hlayout
    omega
  · apply stringsAt_passes _ hpasses.copied
    rw [hpasses.pointers]
    exact hstrings

/-- The contents `"ab, c"`: the `c` is moved forward by one byte. -/
theorem splitToArray_compacted_abc : (stringsOf ([97, 98, 44, 32, 99] ++ [0])).length < 2 ^ 31 ∧
    ∃ passes content pointers,
      splitToArrayTr ([97, 98, 44, 32, 99] ++ [0]) 5 = (passes, .ok (content, pointers)) ∧
      splitToArray ([97, 98, 44, 32, 99] ++ [0]) 5 = .ok (content, pointers) ∧
      Compacted [97, 98, 44, 32, 99] passes content pointers := by
  have hcount : (stringsOf ([97, 98, 44, 32, 99] ++ [0])).length < 2 ^ 31 := by
    have hended : Ended ([97, 98, 44, 32, 99] ++ [0]) := .inr ⟨_, rfl⟩
    have hle := length_stringsOf_le hended
    simp only [List.length_append, List.length_cons, List.length_nil] at hle
    omega
  exact ⟨hcount, splitToArray_compacted [97, 98, 44, 32, 99] hcount⟩

end SysProg.SplitToArray
