import SysProg.Model.SplitAccesses
import SysProg.Verification.SplitToArray.Words

/-! # The strings in the memory of the file

The memory is at every moment what has been written, a gap, and what has still to be read:
`target_pointer` is at the end of the first part and `source_pointer` at the beginning of the
last. -/

namespace SysProg.SplitToArray

open Transmission

/-! ## Without the accesses -/

theorem Logged.result_bind {α β : Type} (m : Logged α) (f : α → Logged β) :
    (m >>= f).2 = m.2 >>= fun a => (f a).2 := by
  obtain ⟨log, fault | a⟩ := m <;> rfl

theorem loadTr_erase (content : Bytes) (idx : ℕ) : (loadTr content idx).2 = load content idx := by
  unfold loadTr
  cases load content idx <;> rfl

theorem copyStringTr_erase (content : Bytes) (endPointer source target : ℕ) :
    (copyStringTr content endPointer source target).2 =
      copyString content endPointer source target := by
  fun_induction copyStringTr content endPointer source target with
  | case1 content source target hle ih =>
      rw [copyString, if_pos hle, Logged.result_bind, loadTr_erase]
      congr 1
      funext c
      split
      · rw [Logged.result_bind]
        exact congrArg _ (funext ih)
      · rw [Logged.result_bind]
        rfl
  | case2 content source target hgt =>
      rw [copyString, if_neg hgt]
      rfl

theorem skipSeparatorsTr_erase (content : Bytes) (endPointer source : ℕ) :
    (skipSeparatorsTr content endPointer source).2 =
      skipSeparators content endPointer source := by
  fun_induction skipSeparatorsTr content endPointer source with
  | case1 source hle ih =>
      rw [skipSeparators, if_pos hle, Logged.result_bind, loadTr_erase]
      congr 1
      funext c
      split
      · rfl
      · exact ih
  | case2 source hgt =>
      rw [skipSeparators, if_neg hgt]
      rfl

theorem Logged.bind_ok {α β : Type} {m : Logged α} {log : List Access} {a : α}
    (h : m = (log, .ok a)) (f : α → Logged β) : m >>= f = (log ++ (f a).1, (f a).2) := by
  rw [h]
  rfl

/-! ## One turn of the outer loop -/

/-- A byte that has been read is written to the front of the gap, which moves on. -/
theorem store_front (done gap rest : Bytes) (c d : UInt8) :
    ∃ gap', gap'.length = gap.length ∧
      storeRange (done ++ (gap ++ c :: rest)) done.length [d] =
        .ok (done ++ [d] ++ (gap' ++ rest)) := by
  have hroom : done.length + [d].length ≤ (done ++ (gap ++ c :: rest)).length := by
    simp only [List.length_append, List.length_cons, List.length_nil]
    omega
  refine ⟨(gap ++ [c]).drop 1, by simp, ?_⟩
  have hdrop : (done ++ (gap ++ c :: rest)).drop (done.length + 1) =
      (gap ++ [c]).drop 1 ++ rest := by
    rw [List.drop_length_add_append, ← List.singleton_append, ← List.append_assoc,
      List.drop_append_of_le_length (by simp)]
  rw [storeRange, if_pos hroom, List.take_left, List.length_singleton, hdrop]

theorem load_next (read rest : Bytes) (c : UInt8) :
    load (read ++ c :: rest) read.length = .ok c := by
  rw [load_eq_ok_iff, List.getElem?_append_right le_rfl, Nat.sub_self]
  rfl

theorem load_source (done gap rest : Bytes) (c : UInt8) :
    load (done ++ (gap ++ c :: rest)) (done.length + gap.length) = .ok c := by
  rw [← List.append_assoc, ← List.length_append]
  exact load_next (done ++ gap) rest c

/-- The accesses of a string and of the byte at its end. -/
def copyLog : ℕ → ℕ → Bytes → UInt8 → List Access
  | source, target, [], last => [.read source last, .write target 0]
  | source, target, c :: string, last =>
      .read source c :: .write target c :: copyLog (source + 1) (target + 1) string last

/-- The accesses of separators and of the byte behind them. -/
def skipLog : ℕ → Bytes → Option UInt8 → List Access
  | _, [], none => []
  | source, [], some c => [.read source c]
  | source, c :: separators, next => .read source c :: skipLog (source + 1) separators next

def Turn.log {rest : Bytes} (turn : Turn rest) (source target : ℕ) : List Access :=
  copyLog source target turn.string turn.last ++
    skipLog (source + turn.string.length + 1) turn.separators turn.rest'.head?

theorem loadTr_next (read rest : Bytes) (c : UInt8) :
    loadTr (read ++ c :: rest) read.length = ([.read read.length c], .ok c) := by
  rw [loadTr, load_next]

theorem loadTr_source (done gap rest : Bytes) (c : UInt8) :
    loadTr (done ++ (gap ++ c :: rest)) (done.length + gap.length) =
      ([.read (done.length + gap.length) c], .ok c) := by
  rw [loadTr, load_source]

/-- The bytes of a string and a NUL byte are written to the front of the gap. -/
theorem copyStringTr_eq {string : Bytes} (hstring : ∀ c ∈ string, isStringChar c = true)
    {last : UInt8} (hlast : isStringChar last = false) (done gap rest : Bytes) {endPointer : ℕ}
    (hend : (done ++ (gap ++ (string ++ last :: rest))).length = endPointer + 1) :
    ∃ gap', gap'.length = gap.length ∧
      copyStringTr (done ++ (gap ++ (string ++ last :: rest))) endPointer
          (done.length + gap.length) done.length =
        (copyLog (done.length + gap.length) done.length string last,
          .ok (done ++ string ++ [0] ++ (gap' ++ rest),
            done.length + gap.length + string.length + 1, done.length + string.length + 1)) := by
  have hle : done.length + gap.length ≤ endPointer := by
    simp only [List.length_append, List.length_cons] at hend
    omega
  induction string generalizing done gap with
  | nil =>
      obtain ⟨gap', hgap, hstore⟩ := store_front done gap rest last 0
      refine ⟨gap', hgap, ?_⟩
      rw [copyStringTr, if_pos hle, List.nil_append, Logged.bind_ok (loadTr_source ..), hlast,
        if_neg (by decide), storeTr, hstore]
      simp only [List.append_nil]
      rfl
  | cons c string ih =>
      have hc := hstring c (by simp)
      obtain ⟨gap', hgap, hstore⟩ := store_front done gap (string ++ last :: rest) c c
      have hend' : (done ++ [c] ++ (gap' ++ (string ++ last :: rest))).length = endPointer + 1 := by
        rw [← hend]
        simp only [List.length_append, List.length_cons, List.length_nil, hgap]
        omega
      have hle' : (done ++ [c]).length + gap'.length ≤ endPointer := by
        simp only [List.length_append, List.length_cons, List.length_nil] at hend' ⊢
        omega
      obtain ⟨gap'', hgap', hrest⟩ :=
        ih (fun d hd => hstring d (by simp [hd])) (done ++ [c]) gap' hend' hle'
      refine ⟨gap'', hgap'.trans hgap, ?_⟩
      have hsource : done.length + gap.length + 1 = (done ++ [c]).length + gap'.length := by
        rw [List.length_append, List.length_singleton, hgap]
        omega
      have hstoreTr : storeTr (done ++ (gap ++ c :: (string ++ last :: rest))) done.length c =
          ([.write done.length c], .ok (done ++ [c] ++ (gap' ++ (string ++ last :: rest)))) := by
        rw [storeTr, hstore]
      rw [copyStringTr, if_pos hle, List.cons_append, Logged.bind_ok (loadTr_source ..), hc,
        if_pos rfl, Logged.bind_ok hstoreTr, hsource,
        show done.length + 1 = (done ++ [c]).length by simp, hrest, copyLog, hsource]
      refine Prod.ext ?_ ?_
      · simp
      · simp [hgap]
        omega

theorem skipSeparatorsTr_eq {separators : Bytes}
    (hseparators : ∀ c ∈ separators, isStringChar c = false) (read rest : Bytes)
    (hrest : ∀ c ∈ rest.head?, isStringChar c = true) {endPointer : ℕ}
    (hend : (read ++ (separators ++ rest)).length = endPointer + 1) :
    skipSeparatorsTr (read ++ (separators ++ rest)) endPointer read.length =
      (skipLog read.length separators rest.head?, .ok (read.length + separators.length)) := by
  induction separators generalizing read with
  | nil =>
      cases rest with
      | nil =>
          have hlt : ¬ read.length ≤ endPointer := by
            simp only [List.length_append, List.length_nil] at hend
            omega
          rw [skipSeparatorsTr, if_neg hlt]
          rfl
      | cons c rest =>
          have hle : read.length ≤ endPointer := by
            simp only [List.length_append, List.length_cons, List.length_nil] at hend
            omega
          have hc : isStringChar c = true := hrest c rfl
          rw [skipSeparatorsTr, if_pos hle, List.nil_append, Logged.bind_ok (loadTr_next ..), hc,
            if_pos rfl]
          rfl
  | cons c separators ih =>
      have hle : read.length ≤ endPointer := by
        simp only [List.length_append, List.length_cons] at hend
        omega
      have hc : isStringChar c = false := hseparators c (by simp)
      have hmove : read ++ (c :: separators ++ rest) = read ++ [c] ++ (separators ++ rest) := by
        simp
      have hlength : read.length + 1 = (read ++ [c]).length := by simp
      have hnext := ih (fun d hd => hseparators d (by simp [hd])) (read ++ [c]) (by rwa [← hmove])
      rw [skipSeparatorsTr, if_pos hle, List.cons_append, Logged.bind_ok (loadTr_next ..), hc,
        if_neg (by decide), ← List.cons_append, hmove, hlength, hnext, skipLog, hlength]
      refine Prod.ext ?_ ?_
      · simp
      · simp
        omega

/-- What the strings are in memory. -/
def layout (strings : List Bytes) : Bytes :=
  strings.flatMap fun string => string ++ [0]

/-- The pointers to the strings in memory, from `start` on. -/
def pointersFrom (start : ℕ) : List Bytes → List ℕ
  | [] => []
  | string :: strings => start :: pointersFrom (start + string.length + 1) strings

theorem length_stringsOf_le {rest : Bytes} (h : Ended rest) :
    (stringsOf rest).length ≤ rest.length := by
  induction hn : rest.length using Nat.strong_induction_on generalizing rest with
  | h n ih =>
    by_cases hne : rest = []
    · rw [stringsOf, if_pos hne]
      exact Nat.zero_le _
    · obtain ⟨turn⟩ := exists_turn h hne
      have hlt := turn.length_lt
      have hrest := ih turn.rest'.length (hn ▸ hlt) (turn.ended h) rfl
      rw [turn.stringsOf_eq, List.length_cons]
      omega

/-- At the end of the contents, the loop ends. -/
theorem splitLoop_nil (fuel : ℕ) (done gap : Bytes) {endPointer : ℕ}
    (hend : (done ++ (gap ++ [])).length = endPointer + 1) (blocks : Blocks) :
    splitLoop endPointer fuel (done ++ (gap ++ [])) (done.length + gap.length) done.length blocks =
      .ok (done ++ (gap ++ []), blocks) := by
  have hlt : ¬ done.length + gap.length ≤ endPointer := by
    simp only [List.length_append, List.length_nil] at hend
    omega
  cases fuel with
  | zero => rw [splitLoop, if_neg hlt]
  | succ fuel => rw [splitLoop, if_neg hlt]

/-- A string is moved and the separators behind it become a part of the gap. -/
theorem turn_moves {rest : Bytes} (turn : Turn rest) (done gap : Bytes) {endPointer : ℕ}
    (hend : (done ++ (gap ++ rest)).length = endPointer + 1) :
    ∃ gap', (done ++ turn.string ++ [0] ++ (gap' ++ turn.rest')).length = endPointer + 1 ∧
      copyStringTr (done ++ (gap ++ rest)) endPointer (done.length + gap.length) done.length =
        (copyLog (done.length + gap.length) done.length turn.string turn.last,
          .ok (done ++ turn.string ++ [0] ++ (gap' ++ turn.rest'),
            done.length + gap.length + turn.string.length + 1,
            (done ++ turn.string ++ [0]).length)) ∧
      skipSeparatorsTr (done ++ turn.string ++ [0] ++ (gap' ++ turn.rest')) endPointer
          (done.length + gap.length + turn.string.length + 1) =
        (skipLog (done.length + gap.length + turn.string.length + 1) turn.separators
            turn.rest'.head?,
          .ok ((done ++ turn.string ++ [0]).length + gap'.length)) := by
  obtain ⟨string, last, separators, rest', rfl, hstring, hlast, hseparators, hhead, -⟩ := turn
  dsimp only
  obtain ⟨gap', hgap, hcopy⟩ := copyStringTr_eq hstring hlast done gap _ hend
  have hlength : (done ++ string ++ [0]).length = done.length + string.length + 1 := by
    simp only [List.length_append, List.length_singleton]
  have hread : (done ++ string ++ [0] ++ gap').length =
      done.length + gap.length + string.length + 1 := by
    rw [List.length_append, hlength, hgap]
    omega
  have hgather : done ++ string ++ [0] ++ (gap' ++ separators ++ rest') =
      done ++ string ++ [0] ++ gap' ++ (separators ++ rest') := by
    simp only [List.append_assoc]
  have hmoved : (done ++ string ++ [0] ++ gap' ++ (separators ++ rest')).length =
      endPointer + 1 := by
    rw [← hend]
    simp only [List.length_append, List.length_cons, List.length_nil, hgap]
    omega
  refine ⟨gap' ++ separators, by rw [hgather, hmoved], ?_, ?_⟩
  · rw [hcopy, hlength, hgather]
    simp only [List.append_assoc]
    rfl
  · rw [hgather, ← hread, skipSeparatorsTr_eq hseparators _ rest' hhead hmoved]
    simp only [List.length_append, Nat.add_assoc]
    rfl

theorem Turn.source_le {rest : Bytes} (turn : Turn rest) {done gap : Bytes} {endPointer : ℕ}
    (hend : (done ++ (gap ++ rest)).length = endPointer + 1) :
    done.length + gap.length ≤ endPointer := by
  have hlt := turn.length_lt
  simp only [List.length_append] at hend
  omega

theorem recordString_turn {rest : Bytes} (turn : Turn rest) (done : Bytes) (blocks : Blocks) :
    recordString blocks done.length (done ++ turn.string ++ [0]).length =
      blocks.record done.length := by
  apply if_pos
  simp only [List.length_append, List.length_singleton]
  omega

/-- One turn of the outer loop moves a string and records where it begins. -/
theorem splitLoop_turn {rest : Bytes} (turn : Turn rest) (fuel : ℕ) (done gap : Bytes)
    {endPointer : ℕ} (hend : (done ++ (gap ++ rest)).length = endPointer + 1) (blocks : Blocks) :
    ∃ gap', (done ++ turn.string ++ [0] ++ (gap' ++ turn.rest')).length = endPointer + 1 ∧
      splitLoop endPointer (fuel + 1) (done ++ (gap ++ rest)) (done.length + gap.length)
          done.length blocks =
        blocks.record done.length >>= fun blocks' =>
          splitLoop endPointer fuel (done ++ turn.string ++ [0] ++ (gap' ++ turn.rest'))
            ((done ++ turn.string ++ [0]).length + gap'.length)
            (done ++ turn.string ++ [0]).length blocks' := by
  obtain ⟨gap', hmoved, hcopy, hskip⟩ := turn_moves turn done gap hend
  refine ⟨gap', hmoved, ?_⟩
  rw [splitLoop, if_pos (turn.source_le hend), ← copyStringTr_erase, hcopy, Run.ok_bind]
  dsimp only
  rw [recordString_turn]
  simp only [← skipSeparatorsTr_erase, hskip, Run.ok_bind]

/-- The same turn with its accesses. -/
theorem passTr_turn {rest : Bytes} (turn : Turn rest) (done gap : Bytes) {endPointer : ℕ}
    (hend : (done ++ (gap ++ rest)).length = endPointer + 1) {blocks blocks' : Blocks}
    (hrecord : blocks.record done.length = .ok blocks') :
    ∃ gap', (done ++ turn.string ++ [0] ++ (gap' ++ turn.rest')).length = endPointer + 1 ∧
      passTr endPointer (done ++ (gap ++ rest)) (done.length + gap.length) done.length blocks =
        (turn.log (done.length + gap.length) done.length,
          .ok (done ++ turn.string ++ [0] ++ (gap' ++ turn.rest'),
            (done ++ turn.string ++ [0]).length + gap'.length,
            (done ++ turn.string ++ [0]).length, blocks')) := by
  obtain ⟨gap', hmoved, hcopy, hskip⟩ := turn_moves turn done gap hend
  refine ⟨gap', hmoved, ?_⟩
  have hsilent : silent (recordString blocks done.length (done ++ turn.string ++ [0]).length) =
      ([], .ok blocks') := by
    rw [silent, recordString_turn, hrecord]
  rw [passTr, Logged.bind_ok hcopy]
  dsimp only
  rw [Logged.bind_ok hsilent, Logged.bind_ok hskip]
  refine Prod.ext ?_ rfl
  change _ ++ (_ ++ []) = _
  rw [List.append_nil]
  rfl

/-- The outer loop moves the strings together and records where they begin. -/
theorem splitLoop_eq {fuel : ℕ} {rest : Bytes} (hended : Ended rest) (hfuel : rest.length ≤ fuel)
    (done gap : Bytes) {endPointer : ℕ}
    (hend : (done ++ (gap ++ rest)).length = endPointer + 1) {blocks : Blocks} {pointers : List ℕ}
    (hblocks : blocks.Holds pointers)
    (hroom : pointers.length + (stringsOf rest).length ≤ MAX_BLOCK_COUNT * MAX_BLOCK_SIZE) :
    ∃ gap' blocks', splitLoop endPointer fuel (done ++ (gap ++ rest))
        (done.length + gap.length) done.length blocks =
          .ok (done ++ layout (stringsOf rest) ++ gap', blocks') ∧
      blocks'.Holds (pointers ++ pointersFrom done.length (stringsOf rest)) := by
  induction fuel generalizing rest done gap blocks pointers with
  | zero =>
      obtain rfl : rest = [] := List.length_eq_zero_iff.mp (Nat.le_zero.mp hfuel)
      refine ⟨gap, blocks, ?_, by simpa [stringsOf, pointersFrom] using hblocks⟩
      rw [splitLoop_nil 0 done gap hend]
      simp [stringsOf, layout]
  | succ fuel ih =>
      by_cases hne : rest = []
      · subst hne
        refine ⟨gap, blocks, ?_, by simpa [stringsOf, pointersFrom] using hblocks⟩
        rw [splitLoop_nil _ done gap hend]
        simp [stringsOf, layout]
      · obtain ⟨turn⟩ := exists_turn hended hne
        have hlt := turn.length_lt
        have hstrings := turn.stringsOf_eq
        rw [hstrings, List.length_cons] at hroom
        obtain ⟨gap', hend', hturn⟩ := splitLoop_turn turn fuel done gap hend blocks
        obtain ⟨blocks', hrecord, hblocks'⟩ := hblocks.record (by omega) done.length
        obtain ⟨gap'', blocks'', hloop, hblocks''⟩ := ih (turn.ended hended) (by omega)
          (done ++ turn.string ++ [0]) gap' hend' hblocks'
          (by rw [List.length_append, List.length_singleton]; omega)
        have hlength : (done ++ turn.string ++ [0]).length =
            done.length + turn.string.length + 1 := by
          simp only [List.length_append, List.length_singleton]
        refine ⟨gap'', blocks'', ?_, ?_⟩
        · rw [hturn, hrecord, Run.ok_bind, hloop, hstrings]
          simp only [layout, List.flatMap_cons, List.append_assoc]
        · rw [hstrings, pointersFrom, ← hlength]
          rw [List.append_assoc, List.singleton_append] at hblocks''
          exact hblocks''

theorem Blocks.record_stringCount {blocks blocks' : Blocks} {pointer : ℕ}
    (h : blocks.record pointer = .ok blocks') : blocks'.stringCount = blocks.stringCount + 1 := by
  rw [Blocks.record] at h
  split at h
  · obtain rfl := Except.ok.inj h
    rfl
  · cases h

/-- A run of the loop that ends has counted the strings. -/
theorem splitLoop_stringCount {fuel : ℕ} {rest : Bytes} (hended : Ended rest)
    (hfuel : rest.length ≤ fuel) (done gap : Bytes) {endPointer : ℕ}
    (hend : (done ++ (gap ++ rest)).length = endPointer + 1) {blocks blocks' : Blocks}
    {content : Bytes}
    (h : splitLoop endPointer fuel (done ++ (gap ++ rest)) (done.length + gap.length) done.length
      blocks = .ok (content, blocks')) :
    blocks'.stringCount = blocks.stringCount + (stringsOf rest).length := by
  induction fuel generalizing rest done gap blocks with
  | zero =>
      obtain rfl : rest = [] := List.length_eq_zero_iff.mp (Nat.le_zero.mp hfuel)
      rw [splitLoop_nil 0 done gap hend] at h
      obtain ⟨-, rfl⟩ := Prod.mk.inj (Except.ok.inj h)
      simp [stringsOf]
  | succ fuel ih =>
      by_cases hne : rest = []
      · subst hne
        rw [splitLoop_nil _ done gap hend] at h
        obtain ⟨-, rfl⟩ := Prod.mk.inj (Except.ok.inj h)
        simp [stringsOf]
      · obtain ⟨turn⟩ := exists_turn hended hne
        have hlt := turn.length_lt
        obtain ⟨gap', hend', hturn⟩ := splitLoop_turn turn fuel done gap hend blocks
        rw [hturn] at h
        obtain ⟨blocks'', hrecord, h⟩ := Run.bind_eq_ok h
        have hcount := Blocks.record_stringCount hrecord
        rw [ih (turn.ended hended) (by omega) _ gap' hend' h, hcount, turn.stringsOf_eq,
          List.length_cons]
        omega

/-! ## The result -/

theorem stringAt_eq {string : Bytes} (hstring : 0 ∉ string) (before after : Bytes) :
    stringAt (before ++ (string ++ [0] ++ after)) before.length = .ok string := by
  have hmem : 0 ∈ string ++ [0] ++ after := by simp
  rw [stringAt, List.drop_left, if_pos hmem, List.append_assoc, List.takeWhile_append_of_pos]
  · simp
  · intro c hc
    have hne : c ≠ 0 := by
      rintro rfl
      exact hstring hc
    simpa using hne

theorem stringsAt_eq {strings : List Bytes} (hstrings : ∀ string ∈ strings, 0 ∉ string)
    (before after : Bytes) :
    stringsAt (before ++ (layout strings ++ after)) (pointersFrom before.length strings) =
      .ok strings := by
  induction strings generalizing before with
  | nil => rfl
  | cons string strings ih =>
      have hmemory : before ++ (layout (string :: strings) ++ after) =
          before ++ (string ++ [0] ++ (layout strings ++ after)) := by
        simp only [layout, List.flatMap_cons, List.append_assoc]
      have hrest := ih (fun s hs => hstrings s (by simp [hs])) (before ++ string ++ [0])
      have hgather : before ++ string ++ [0] ++ (layout strings ++ after) =
          before ++ (string ++ [0] ++ (layout strings ++ after)) := by
        simp only [List.append_assoc]
      have hlength : (before ++ string ++ [0]).length = before.length + string.length + 1 := by
        simp only [List.length_append, List.length_singleton]
      rw [hgather, hlength] at hrest
      rw [hmemory, pointersFrom, stringsAt, stringAt_eq (hstrings string (by simp)), Run.ok_bind,
        hrest, Run.ok_bind]

theorem length_pointersFrom (start : ℕ) (strings : List Bytes) :
    (pointersFrom start strings).length = strings.length := by
  induction strings generalizing start with
  | nil => rfl
  | cons string strings ih => rw [pointersFrom, List.length_cons, List.length_cons, ih]

theorem nul_notMem_stringsOf {rest : Bytes} (h : Ended rest) :
    ∀ string ∈ stringsOf rest, 0 ∉ string := by
  induction hn : rest.length using Nat.strong_induction_on generalizing rest with
  | h n ih =>
    by_cases hne : rest = []
    · rw [stringsOf, if_pos hne]
      simp
    · obtain ⟨turn⟩ := exists_turn h hne
      have hrest := ih turn.rest'.length (hn ▸ turn.length_lt) (turn.ended h) rfl
      rw [turn.stringsOf_eq]
      intro string hstring
      rcases List.mem_cons.mp hstring with rfl | hstring
      · intro hnul
        exact absurd (turn.string_chars 0 hnul) (by decide)
      · exact hrest string hstring

/-- The array of a file with strings that can be counted with an `int`. -/
theorem splitToArray_eq_pointersFrom (text : Bytes)
    (hcount : (stringsOf (text ++ [0])).length < 2 ^ 31) :
    ∃ content, splitToArray (text ++ [0]) text.length =
        .ok (content, pointersFrom 0 (stringsOf (text ++ [0]))) ∧
      stringsAt content (pointersFrom 0 (stringsOf (text ++ [0]))) =
        .ok (stringsOf (text ++ [0])) := by
  have hended : Ended (text ++ [0]) := .inr ⟨text, rfl⟩
  have hend : ([] ++ ([] ++ (text ++ [0]))).length = text.length + 1 := by simp
  have hfuel : (text ++ [0]).length ≤ text.length + 1 := by simp
  obtain ⟨gap, blocks, hloop, hblocks⟩ := splitLoop_eq hended hfuel [] [] hend holds_initial
    (by
      simp only [List.length_nil, MAX_BLOCK_COUNT, MAX_BLOCK_SIZE]
      omega)
  have hlength := hblocks.count_eq
  rw [List.nil_append, length_pointersFrom] at hlength
  have hcollect : blocks.collect blocks.stringCount 0 0 =
      .ok (pointersFrom 0 (stringsOf (text ++ [0]))) :=
    hblocks.collect (k := 0) (by rw [Nat.zero_add, hblocks.count_eq])
  have hloop' : splitLoop text.length (text.length + 1) (text ++ [0]) 0 0 .initial =
      .ok (layout (stringsOf (text ++ [0])) ++ gap, blocks) := hloop
  refine ⟨_, ?_, stringsAt_eq (nul_notMem_stringsOf hended) [] gap⟩
  rw [splitToArray, hloop', Run.ok_bind]
  dsimp only
  rw [if_pos (hlength ▸ hcount), hcollect, Run.ok_bind]
  rfl

theorem splitToArray_eq_stringsOf (text : Bytes)
    (hcount : (stringsOf (text ++ [0])).length < 2 ^ 31) :
    ∃ content pointers, splitToArray (text ++ [0]) text.length = .ok (content, pointers) ∧
      stringsAt content pointers = .ok (stringsOf (text ++ [0])) := by
  obtain ⟨content, hsplit, hstrings⟩ := splitToArray_eq_pointersFrom text hcount
  exact ⟨content, _, hsplit, hstrings⟩

/-- More strings are not counted. -/
theorem splitToArray_fault (text : Bytes) (hcount : 2 ^ 31 ≤ (stringsOf (text ++ [0])).length) :
    ∃ fault, splitToArray (text ++ [0]) text.length = .error fault := by
  cases hsplit : splitToArray (text ++ [0]) text.length with
  | error fault => exact ⟨fault, rfl⟩
  | ok result =>
      obtain ⟨⟨content, blocks⟩, hloop, hcollect⟩ := Run.bind_eq_ok hsplit
      have hstrings := splitLoop_stringCount (.inr ⟨text, rfl⟩) (by simp) [] [] (by simp) hloop
      rw [Blocks.initial, Nat.zero_add] at hstrings
      simp only at hcollect
      rw [if_neg (by omega)] at hcollect
      cases hcollect

theorem splitToArray_eq (text : Bytes) (hlt : text.length + 1 < 2 ^ 31) :
    ∃ content pointers, splitToArray (text ++ [0]) text.length = .ok (content, pointers) ∧
      stringsAt content pointers = .ok (stringsOf (text ++ [0])) := by
  have hended : Ended (text ++ [0]) := .inr ⟨text, rfl⟩
  have hcount := length_stringsOf_le hended
  rw [List.length_append, List.length_singleton] at hcount
  exact splitToArray_eq_stringsOf text (by omega)

end SysProg.SplitToArray
