import SysProg.Verification.CountByFile.Totals
import SysProg.Verification.LockedCounters.Counters

/-! # The lines on the terminal

A report is a block of lines that no other thread interrupts. -/

namespace SysProg.LockedCounters

open Transmission
open CountByFile (indices)

variable {program : Program} {ν : Type} {n : ℕ}

def Line.isError {κ : Type} : Line κ ν → Bool
  | .error _ => true
  | _ => false

/-- The lines without the messages of `handle_error`, which are not printed under the lock. -/
def Shared.printed {κ : Type} (shared : Shared program κ ν) : List (Line κ ν) :=
  shared.terminal.filter fun line => !line.isError

/-- A report with what it shows. -/
inductive Block (ν : Type)
  | table (name : ν) (val : UInt8 → ℤ)
  | unreadable (name : ν)
  | started

def entries (table : UInt8 → ℤ) (done : List UInt8) : List (Line ℤ ν) :=
  done.map fun i => .entry i (table i)

theorem entries_concat (table : UInt8 → ℤ) (done : List UInt8) (i : UInt8) :
    (entries table (done ++ [i]) : List (Line ℤ ν)) = entries table done ++ [.entry i (table i)] :=
  List.map_append

theorem nodup_indices : indices.Nodup :=
  List.nodup_iff_count_le_one.mpr fun c => (CountByFile.count_indices c).le

def Block.lines : Block ν → List (Line ℤ ν)
  | .table name val => .header name :: entries val indices ++ [.footer]
  | .unreadable name => [.unreadable name]
  | .started => [.started]

/-- The name of the file and the entries that the thread has still to print. -/
def Thread.unprinted : Thread ℤ ν → Option (ν × List UInt8)
  | .output name todo => some (name, todo)
  | .reading name i todo => some (name, i :: todo)
  | .read name i _ todo => some (name, i :: todo)
  | .unlocked name i _ todo => some (name, i :: todo)
  | _ => none

/-- The entry that the thread prints next. -/
def Thread.value : Thread ℤ ν → Option (UInt8 × ℤ)
  | .read _ i val _ => some (i, val)
  | .unlocked _ i val _ => some (i, val)
  | _ => none

/-- What the reading of a file leads to. -/
def outcome (program : Program) (name : ν) : Ending → Multiset (Report ν)
  | .eof => {.table name}
  | .notOpened | .error => 0
  | .badDescriptor =>
      match program.onBadDescriptor with
      | .reports => {.unreadable name}
      | .exits | .fails => 0

/-- The reports that the thread is still to begin. -/
def Thread.future (program : Program) : Thread ℤ ν → Multiset (Report ν)
  | .opening name file => outcome program name file.ending
  | .counting name _ ending => outcome program name ending
  | .locked name _ _ ending => outcome program name ending
  | .loaded name _ _ _ ending => outcome program name ending
  | .stored name _ _ ending => outcome program name ending
  | .waiting report => {report}
  | .printing report => {report}
  | _ => 0

/-- The thread has begun its report, or it has none. -/
def Thread.Past : Thread ℤ ν → Prop
  | .opening _ _ => False
  | .counting _ _ _ => False
  | .locked _ _ _ _ => False
  | .loaded _ _ _ _ _ => False
  | .stored _ _ _ _ => False
  | .waiting _ => False
  | .printing _ => False
  | _ => True

theorem Thread.Past.pending {thread : Thread ℤ ν} (h : thread.Past) : thread.pending = [] := by
  cases thread <;> first | rfl | exact h.elim

theorem Thread.prints_of_unprinted {thread : Thread ℤ ν} {rest : ν × List UInt8}
    (h : thread.unprinted = some rest) : thread.Prints := by
  cases thread <;> cases h <;> trivial

theorem Thread.unprinted_of_value {thread : Thread ℤ ν} {entry : UInt8 × ℤ}
    (h : thread.value = some entry) : thread.Prints := by
  cases thread <;> cases h <;> trivial

/-- The file that the thread is about. -/
def Thread.name : Thread ℤ ν → Option ν
  | .opening name _ => some name
  | .counting name _ _ => some name
  | .locked name _ _ _ => some name
  | .loaded name _ _ _ _ => some name
  | .stored name _ _ _ => some name
  | .waiting (.table name) => some name
  | .printing (.table name) => some name
  | .output name _ => some name
  | .reading name _ _ => some name
  | .read name _ _ _ => some name
  | .unlocked name _ _ _ => some name
  | _ => none

/-- What a step prints. -/
inductive PrintSpec (program : Program) (shared shared' : Shared program ℤ ν) :
    Thread ℤ ν → Thread ℤ ν → Prop
  | quiet {thread thread' : Thread ℤ ν} (hprinted : shared'.printed = shared.printed)
      (hunprinted : thread'.unprinted = thread.unprinted)
      (hfuture : thread'.future program = thread.future program) (hpast : thread.Past → thread'.Past)
      (hvalue : thread'.value = thread.value ∨
        ∃ i, thread'.value = some (i, shared.counter i) ∧ thread.Prints) :
      PrintSpec program shared shared' thread thread'
  | header (name : ν) (hprinted : shared'.printed = shared.printed ++ [.header name]) :
      PrintSpec program shared shared' (.printing (.table name)) (.output name indices)
  | unreadable (name : ν) (hprinted : shared'.printed = shared.printed ++ [.unreadable name]) :
      PrintSpec program shared shared' (.printing (.unreadable name)) .releasing
  | started (hprinted : shared'.printed = shared.printed ++ [.started]) :
      PrintSpec program shared shared' (.printing .started) .releasing
  | entry (name : ν) (i : UInt8) (val : ℤ) (todo : List UInt8)
      (hprinted : shared'.printed = shared.printed ++ [.entry i val]) :
      PrintSpec program shared shared' (.unlocked name i val todo) (.output name todo)
  | footer (name : ν) (hprinted : shared'.printed = shared.printed ++ [.footer]) :
      PrintSpec program shared shared' (.output name []) .releasing

theorem printed_print (shared : Shared program ℤ ν) {line : Line ℤ ν} (h : line.isError = false) :
    (shared.print line).printed = shared.printed ++ [line] := by
  simp [Shared.printed, Shared.print, List.filter_append, h]

theorem printed_error (shared : Shared program ℤ ν) (name : ν) :
    (shared.print (.error name)).printed = shared.printed := by
  simp [Shared.printed, Shared.print, List.filter_append, Line.isError]

@[simp] theorem printed_closeFile (shared : Shared program ℤ ν) :
    shared.closeFile.printed = shared.printed :=
  rfl

theorem printSpec_atEnd (shared : Shared program ℤ ν) (name : ν) (ending : Ending) :
    PrintSpec program shared (atEnd program shared name ending).1 (.counting name [] ending)
      (atEnd program shared name ending).2 := by
  cases ending with
  | eof => exact .quiet rfl rfl rfl id (.inl rfl)
  | notOpened | error =>
      exact .quiet (printed_error shared name) rfl rfl (fun _ => trivial) (.inl rfl)
  | badDescriptor =>
      cases h : program.onBadDescriptor with
      | exits =>
          refine .quiet ?_ ?_ ?_ ?_ (.inl ?_) <;>
            simp [atEnd, h, Thread.unprinted, Thread.future, outcome, Thread.Past, Thread.value]
      | reports =>
          refine .quiet ?_ ?_ ?_ ?_ (.inl ?_) <;>
            simp [atEnd, h, Thread.unprinted, Thread.future, outcome, Thread.Past, Thread.value]
      | fails =>
          refine .quiet ?_ ?_ ?_ ?_ (.inl ?_) <;>
            simp [atEnd, h, Thread.unprinted, Thread.future, outcome, Thread.Past, Thread.value,
              printed_error]

theorem Steps.printSpec {shared shared' : Shared program ℤ ν} {thread thread' : Thread ℤ ν}
    (h : Steps program shared thread shared' thread') :
    PrintSpec program shared shared' thread thread' := by
  cases h with
  | openFile name file => exact .quiet rfl rfl rfl id (.inl rfl)
  | atEnd name ending => exact printSpec_atEnd shared name ending
  | header name => exact .header name (printed_print shared rfl)
  | unreadable name => exact .unreadable name (printed_print shared rfl)
  | started => exact .started (printed_print shared rfl)
  | read name i todo => exact .quiet rfl rfl rfl id (.inr ⟨i, rfl, trivial⟩)
  | entry name i val todo => exact .entry name i val todo (printed_print shared rfl)
  | footer name => exact .footer name (printed_print shared rfl)
  | lock | load | store | unlock | lockOutput | rdlock | rdunlock | unlockOutput =>
      exact .quiet rfl rfl rfl id (.inl rfl)

theorem Steps.name_eq {shared shared' : Shared program ℤ ν} {thread thread' : Thread ℤ ν}
    (h : Steps program shared thread shared' thread') {name : ν}
    (hname : thread'.name = some name) : thread.name = some name := by
  cases h with
  | atEnd name' ending =>
      cases ending with
      | eof => exact hname
      | notOpened | error => cases hname
      | badDescriptor =>
          unfold LockedCounters.atEnd at hname
          cases hbad : program.onBadDescriptor <;> rw [hbad] at hname <;> cases hname
  | lockOutput report => cases report <;> exact hname
  | unreadable | started | footer | unlockOutput => cases hname
  | openFile | lock | load | store | unlock | header | rdlock | read | rdunlock | entry =>
      exact hname

/-! ## The blocks -/

/-- What is on the terminal of the report that a thread prints. -/
def Opened (name : ν) (todo : List UInt8) (lines : List (Line ℤ ν)) : Prop :=
  ∃ table done, done ++ todo = indices ∧ lines = .header name :: entries table done

/-- Whole blocks, and what one thread has printed of its own. -/
structure Layout (printed : List (Line ℤ ν)) (threads : Option (Fin n) → Thread ℤ ν) : Prop where
  exists_blocks : ∃ blocks : List (Block ν), ∃ lines,
    printed = blocks.flatMap Block.lines ++ lines ∧
    ((∀ i, (threads i).unprinted = none) → lines = []) ∧
    ∀ i name todo, (threads i).unprinted = some (name, todo) → Opened name todo lines

theorem layout_nil {threads : Option (Fin n) → Thread ℤ ν}
    (h : ∀ i, (threads i).unprinted = none) : Layout [] threads := by
  refine ⟨[], [], rfl, fun _ => rfl, ?_⟩
  intro i name todo hi
  rw [h i] at hi
  cases hi

/-- Nobody else is in a report. -/
def Alone (threads : Option (Fin n) → Thread ℤ ν) (i : Option (Fin n)) : Prop :=
  ∀ j, j ≠ i → (threads j).unprinted = none

/-- A thread that is alone prints a block from its begin to its end. -/
theorem Layout.block {printed : List (Line ℤ ν)} {threads : Option (Fin n) → Thread ℤ ν}
    (h : Layout printed threads) {i : Option (Fin n)} (halone : Alone threads i)
    (hi : (threads i).unprinted = none) (block : Block ν) (thread' : Thread ℤ ν)
    (hi' : thread'.unprinted = none) :
    Layout (printed ++ block.lines) (Function.update threads i thread') := by
  obtain ⟨blocks, lines, rfl, hnone, -⟩ := h.exists_blocks
  have hall : ∀ j, (threads j).unprinted = none := by
    intro j
    by_cases hj : j = i
    · rw [hj, hi]
    · exact halone j hj
  have hall' : ∀ j, (Function.update threads i thread' j).unprinted = none := by
    intro j
    by_cases hj : j = i
    · rw [hj, Function.update_self, hi']
    · rw [Function.update_of_ne hj, hall j]
  refine ⟨blocks ++ [block], [], ?_, fun _ => rfl, ?_⟩
  · rw [hnone hall]
    simp
  · intro j name todo hj
    rw [hall' j] at hj
    cases hj

/-- What the thread that is alone prints of its block decides. -/
theorem Layout.opened {blocks : List (Block ν)} {lines : List (Line ℤ ν)}
    {threads : Option (Fin n) → Thread ℤ ν} {i : Option (Fin n)} (halone : Alone threads i)
    {thread' : Thread ℤ ν} {name : ν} {todo : List UInt8}
    (hi' : thread'.unprinted = some (name, todo)) (hopened : Opened name todo lines) :
    Layout (blocks.flatMap Block.lines ++ lines) (Function.update threads i thread') := by
  refine ⟨blocks, lines, rfl, ?_, ?_⟩
  · intro hnone
    have hi := hnone i
    rw [Function.update_self, hi'] at hi
    cases hi
  · intro j name' todo' hj
    by_cases hji : j = i
    · subst hji
      rw [Function.update_self, hi'] at hj
      obtain ⟨rfl, rfl⟩ := Prod.mk.inj (Option.some.inj hj)
      exact hopened
    · rw [Function.update_of_ne hji, halone j hji] at hj
      cases hj

theorem Layout.step {shared shared' : Shared program ℤ ν} {threads : Option (Fin n) → Thread ℤ ν}
    {i : Option (Fin n)} {thread' : Thread ℤ ν} (h : Layout shared.printed threads)
    (halone : (threads i).Prints → Alone threads i)
    (hspec : PrintSpec program shared shared' (threads i) thread') :
    Layout shared'.printed (Function.update threads i thread') := by
  generalize hi : threads i = thread at hspec halone
  cases hspec with
  | quiet hprinted hunprinted _ _ _ =>
      have hsame : ∀ j, (Function.update threads i thread' j).unprinted =
          (threads j).unprinted := by
        intro j
        by_cases hj : j = i
        · rw [hj, Function.update_self, hunprinted, hi]
        · rw [Function.update_of_ne hj]
      obtain ⟨blocks, lines, hlines, hnone, hopened⟩ := h.exists_blocks
      refine ⟨blocks, lines, hprinted.trans hlines, ?_, ?_⟩
      · intro hall
        exact hnone fun j => (hsame j).symm.trans (hall j)
      · intro j name todo hj
        exact hopened j name todo ((hsame j).symm.trans hj)
  | unreadable name hprinted =>
      rw [hprinted]
      exact h.block (halone trivial) (by rw [hi]; rfl) (.unreadable name) .releasing rfl
  | started hprinted =>
      rw [hprinted]
      exact h.block (halone trivial) (by rw [hi]; rfl) .started .releasing rfl
  | header name hprinted =>
      obtain ⟨blocks, lines, hlines, hnone, -⟩ := h.exists_blocks
      have hall : ∀ j, (threads j).unprinted = none := by
        intro j
        by_cases hj : j = i
        · rw [hj, hi]
          rfl
        · exact halone trivial j hj
      rw [hprinted, hlines, hnone hall, List.append_nil]
      exact Layout.opened (halone trivial) rfl ⟨fun _ => 0, [], rfl, rfl⟩
  | entry name j val todo hprinted =>
      obtain ⟨blocks, lines, hlines, -, hopened⟩ := h.exists_blocks
      obtain ⟨table, done, hdone, rfl⟩ := hopened i name (j :: todo) (by rw [hi]; rfl)
      rw [hprinted, hlines, List.append_assoc]
      refine Layout.opened (halone trivial) rfl
        ⟨Function.update table j val, done ++ [j], by simpa using hdone, ?_⟩
      have hnodup := nodup_indices
      have hj : j ∉ done := by
        rw [← hdone, List.nodup_append] at hnodup
        intro hmem
        exact hnodup.2.2 j hmem j (by simp) rfl
      have hentries : (entries (Function.update table j val) done : List (Line ℤ ν)) = entries table done := by
        apply List.map_congr_left
        intro k hk
        rw [Function.update_of_ne (fun hkj : k = j => hj (hkj ▸ hk))]
      rw [entries_concat, hentries, Function.update_self]
      rfl
  | footer name hprinted =>
      obtain ⟨blocks, lines, hlines, -, hopened⟩ := h.exists_blocks
      obtain ⟨table, done, hdone, rfl⟩ := hopened i name [] (by rw [hi]; rfl)
      rw [List.append_nil] at hdone
      subst hdone
      have hall : ∀ j, (Function.update threads i .releasing j).unprinted = none := by
        intro j
        by_cases hj : j = i
        · rw [hj, Function.update_self]
          rfl
        · rw [Function.update_of_ne hj]
          exact halone trivial j hj
      refine ⟨blocks ++ [.table name table], [], ?_, fun _ => rfl, ?_⟩
      · rw [hprinted, hlines]
        simp [Block.lines]
      · intro j name' todo hj
        rw [hall j] at hj
        cases hj

end SysProg.LockedCounters
