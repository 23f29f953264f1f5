import SysProg.Verification.LockedCounters.Lines

/-! # What the entries of a table count

An entry is printed by a thread that has added its own file, after the threads whose tables are
already on the terminal have added theirs. -/

namespace SysProg.LockedCounters

open Transmission
open CountByFile (indices)

variable {program : Program} {n : ℕ} {counter : UInt8 → ℤ} {files : Fin n → File}

/-- The files whose tables have been begun. -/
def headers {ν : Type} (lines : List (Line ℤ ν)) : List ν :=
  lines.filterMap fun
    | .header name => some name
    | _ => none

/-- What has been printed of a counter. -/
def values {ν : Type} (i : UInt8) (lines : List (Line ℤ ν)) : List ℤ :=
  lines.filterMap fun
    | .entry j val => if j = i then some val else none
    | _ => none

/-- The number of a byte in the files with these names. -/
def countsOf (files : Fin n → File) (names : List (Fin n)) (c : UInt8) : ℤ :=
  (names.map fun name => ((files name).bytes.count c : ℤ)).sum

/-- An entry does not fall behind the lines before it. -/
structure Entry (counter : UInt8 → ℤ) (files : Fin n → File) (before : List (Line ℤ (Fin n)))
    (i : UInt8) (val : ℤ) : Prop where
  above : ∀ val' ∈ values i before, val' ≤ val
  counts : counter i + countsOf files (headers before) i ≤ val

/-- The bytes of the file of a thread; the main thread has none. -/
def bytesOf (files : Fin n → File) : Option (Fin n) → Bytes
  | none => []
  | some i => (files i).bytes

structure Tabled (program : Program) (counter : UInt8 → ℤ) (files : Fin n → File)
    (state : State program ℤ n) : Prop where
  counted : Counted program counter files state
  layout : Layout state.1.printed state.2
  names : ∀ i name, (state.2 i).name = some name → i = some name
  pending : ∀ i, (state.2 i).pending <:+ bytesOf files i
  nodup : (headers state.1.printed).Nodup
  past : ∀ name ∈ headers state.1.printed, (state.2 (some name)).Past
  entries : ∀ before i val, before ++ [.entry i val] <+: state.1.printed →
    Entry counter files before i val ∧ val ≤ state.1.counter i
  value : ∀ j i val, (state.2 j).value = some (i, val) →
    Entry counter files state.1.printed i val ∧ val ≤ state.1.counter i

theorem tabled_start (program : Program) (descriptors : ℕ) (counter : UInt8 → ℤ)
    (files : Fin n → File) :
    Tabled program counter files (start program descriptors counter files) := by
  have hstart {P : Option (Fin n) → Thread ℤ (Fin n) → Prop} :=
    @forall_start n program descriptors counter files P
  refine ⟨counted_start program descriptors counter files, ?_, ?_, ?_, .nil, ?_, ?_, ?_⟩
  · exact layout_nil (hstart (P := fun _ thread => thread.unprinted = none) rfl rfl
      (fun _ => rfl) fun _ => rfl)
  · exact hstart (P := fun i thread => ∀ name, thread.name = some name → i = some name)
      (fun _ h => by cases h) (fun _ h => by cases h) (fun _ _ h => h) fun _ _ h => h
  · exact hstart (P := fun i thread => thread.pending <:+ bytesOf files i) List.suffix_rfl
      List.suffix_rfl (fun _ => List.suffix_rfl) fun _ => List.suffix_rfl
  · intro name h
    cases h
  · intro before i val h
    simpa using List.prefix_nil.mp h
  · intro j i val h
    have hnone := hstart (P := fun _ thread => thread.value = none) rfl rfl (fun _ => rfl)
      (fun _ => rfl) j
    rw [hnone] at h
    cases h

theorem prefix_of_mem_values {ν : Type} {i : UInt8} {val : ℤ} {lines : List (Line ℤ ν)}
    (h : val ∈ values i lines) : ∃ before, before ++ [.entry i val] <+: lines := by
  obtain ⟨line, hline, heq⟩ := List.mem_filterMap.mp h
  obtain ⟨before, rest, rfl⟩ := List.append_of_mem hline
  cases line with
  | entry j val' =>
      obtain ⟨rfl, hval⟩ := Option.ite_none_right_eq_some.mp heq
      cases hval
      exact ⟨before, rest, by simp⟩
  | header | footer | unreadable | started | error => cases heq

/-- The threads that have printed have nothing to add any more. -/
theorem Tabled.countsOf_le {state : State program ℤ n} (h : Tabled program counter files state)
    (c : UInt8) : counter c + countsOf files (headers state.1.printed) c ≤ state.1.counter c := by
  have hcounted := h.counted.counted c
  have hmain : toAdd c (state.2 none) = 0 := by
    have hpending : (state.2 none).pending <:+ [] := h.pending none
    rw [toAdd, List.suffix_nil.mp hpending]
    rfl
  have hheaders : countsOf files (headers state.1.printed) c =
      ∑ j, if j ∈ (headers state.1.printed).toFinset then ((files j).bytes.count c : ℤ) else 0 := by
    rw [Finset.sum_ite_mem, Finset.univ_inter, List.sum_toFinset _ h.nodup]
    rfl
  have hsum : countsOf files (headers state.1.printed) c + ∑ j, toAdd c (state.2 (some j)) ≤
      occurrences files c := by
    rw [hheaders, ← Finset.sum_add_distrib]
    apply Finset.sum_le_sum
    intro j _
    by_cases hj : j ∈ (headers state.1.printed).toFinset
    · rw [if_pos hj, toAdd, (h.past j (List.mem_toFinset.mp hj)).pending]
      simp
    · rw [if_neg hj, zero_add, toAdd]
      exact_mod_cast (h.pending (some j)).sublist.count_le c
  rw [total, Fintype.sum_option, hmain] at hcounted
  omega

/-- What a thread reads now is an entry. -/
theorem Tabled.entry_counter {state : State program ℤ n} (h : Tabled program counter files state)
    (i : UInt8) : Entry counter files state.1.printed i (state.1.counter i) := by
  refine ⟨?_, h.countsOf_le i⟩
  intro val hval
  obtain ⟨before, hbefore⟩ := prefix_of_mem_values hval
  exact (h.entries before i val hbefore).2

theorem headers_append {ν : Type} (lines lines' : List (Line ℤ ν)) :
    headers (lines ++ lines') = headers lines ++ headers lines' :=
  List.filterMap_append

theorem Steps.pending_suffix {ν : Type} {shared shared' : Shared program ℤ ν}
    {thread thread' : Thread ℤ ν} (h : Steps program shared thread shared' thread') :
    thread'.pending <:+ thread.pending := by
  rcases h.counterSpec.counter with ⟨-, hpending, -⟩ | ⟨name, c, val, todo, ending, hi, hi', -⟩
  · rw [hpending]
  · rw [hi, hi']
    exact List.suffix_cons c todo

/-- A thread that prints is the only one that does. -/
theorem Tabled.alone {state : State program ℤ n} (h : Tabled program counter files state)
    {i : Option (Fin n)} (hi : (state.2 i).Prints) : Alone state.2 i := by
  intro j hj
  by_contra hopen
  obtain ⟨rest, hrest⟩ := Option.ne_none_iff_exists'.mp hopen
  exact hj (h.counted.printer_alone (Thread.prints_of_unprinted hrest) hi)

section Step

variable {shared shared' : Shared program ℤ (Fin n)} {threads : Option (Fin n) → Thread ℤ (Fin n)}
  {i : Option (Fin n)} {thread' : Thread ℤ (Fin n)}

/-- A header is printed once, by the thread of its file, which is past its report then. -/
theorem Tabled.headers_step (h : Tabled program counter files (shared, threads))
    (hspec : PrintSpec program shared shared' (threads i) thread') :
    (headers shared'.printed).Nodup ∧ ∀ name ∈ headers shared'.printed,
      (Function.update threads i thread' (some name)).Past := by
  have hold : ∀ name ∈ headers shared.printed, ((threads i).Past → thread'.Past) →
      (Function.update threads i thread' (some name)).Past := by
    intro name hname hpast
    have hthread : (threads (some name)).Past := h.past name hname
    by_cases hi : some name = i
    · subst hi
      rw [Function.update_self]
      exact hpast hthread
    · rwa [Function.update_of_ne hi]
  generalize hi : threads i = thread at hspec hold
  cases hspec with
  | quiet hprinted _ _ hpast _ =>
      rw [hprinted]
      exact ⟨h.nodup, fun name hname => hold name hname hpast⟩
  | header name hprinted =>
      obtain rfl : i = some name := h.names i name (by dsimp only; rw [hi]; rfl)
      have hnew : name ∉ headers shared.printed := by
        intro hname
        have hpast : (threads (some name)).Past := h.past name hname
        rw [hi] at hpast
        exact hpast
      rw [hprinted, headers_append]
      refine ⟨?_, ?_⟩
      · exact h.nodup.append (List.nodup_singleton name) (by simpa [headers] using hnew)
      · intro name' hname'
        rcases List.mem_append.mp hname' with hname' | hname'
        · exact hold name' hname' fun _ => trivial
        · obtain rfl := List.mem_singleton.mp hname'
          rw [Function.update_self]
          trivial
  | unreadable name hprinted | started hprinted | entry name i val todo hprinted
  | footer name hprinted =>
      rw [hprinted, headers_append]
      refine ⟨by simpa [headers] using h.nodup, ?_⟩
      intro name hname
      exact hold name (by simpa [headers] using hname) fun _ => trivial

theorem Tabled.entries_step (h : Tabled program counter files (shared, threads))
    (hmono : ∀ c, shared.counter c ≤ shared'.counter c)
    (hspec : PrintSpec program shared shared' (threads i) thread') {before : List (Line ℤ (Fin n))}
    {c : UInt8} {val : ℤ} (hbefore : before ++ [.entry c val] <+: shared'.printed) :
    Entry counter files before c val ∧ val ≤ shared'.counter c := by
  have hold : before ++ [.entry c val] <+: shared.printed →
      Entry counter files before c val ∧ val ≤ shared'.counter c := by
    intro hprefix
    obtain ⟨hentry, hle⟩ := h.entries before c val hprefix
    exact ⟨hentry, hle.trans (hmono c)⟩
  generalize hi : threads i = thread at hspec
  cases hspec with
  | quiet hprinted =>
      rw [hprinted] at hbefore
      exact hold hbefore
  | entry name c' val' todo hprinted =>
      rw [hprinted] at hbefore
      rcases List.prefix_concat_iff.mp hbefore with hlast | hprefix
      · obtain ⟨rfl, hline⟩ := List.append_inj' hlast rfl
        cases hline
        obtain ⟨hentry, hle⟩ := h.value i c val (by dsimp only; rw [hi]; rfl)
        exact ⟨hentry, hle.trans (hmono c)⟩
      · exact hold hprefix
  | header name hprinted | unreadable name hprinted | started hprinted | footer name hprinted =>
      rw [hprinted] at hbefore
      rcases List.prefix_concat_iff.mp hbefore with hlast | hprefix
      · obtain ⟨-, hline⟩ := List.append_inj' hlast rfl
        cases hline
      · exact hold hprefix

theorem Tabled.value_step (h : Tabled program counter files (shared, threads))
    (hmono : ∀ c, shared.counter c ≤ shared'.counter c)
    (hspec : PrintSpec program shared shared' (threads i) thread') {j : Option (Fin n)}
    {c : UInt8} {val : ℤ} (hvalue : (Function.update threads i thread' j).value = some (c, val)) :
    Entry counter files shared'.printed c val ∧ val ≤ shared'.counter c := by
  have hold : shared'.printed = shared.printed → (threads j).value = some (c, val) →
      Entry counter files shared'.printed c val ∧ val ≤ shared'.counter c := by
    intro hprinted hthread
    obtain ⟨hentry, hle⟩ := h.value j c val hthread
    rw [hprinted]
    exact ⟨hentry, hle.trans (hmono c)⟩
  have hother : j ≠ i → ¬ (threads i).Prints := by
    intro hji hprints
    rw [Function.update_of_ne hji] at hvalue
    exact hji (h.counted.printer_alone (Thread.unprinted_of_value hvalue) hprints)
  generalize hi : threads i = thread at hspec hother
  cases hspec with
  | quiet hprinted _ _ _ hnew =>
      by_cases hji : j = i
      · subst hji
        rw [Function.update_self] at hvalue
        rcases hnew with hsame | ⟨c', hread, -⟩
        · exact hold hprinted (by rw [hi, ← hsame, hvalue])
        · rw [hread] at hvalue
          cases hvalue
          rw [hprinted]
          exact ⟨h.entry_counter c, hmono c⟩
      · rw [Function.update_of_ne hji] at hvalue
        exact hold hprinted hvalue
  | header | unreadable | started | entry | footer =>
      by_cases hji : j = i
      · subst hji
        rw [Function.update_self] at hvalue
        cases hvalue
      · exact absurd trivial (hother hji)

end Step

theorem Tabled.step {state state' : State program ℤ n} (h : Tabled program counter files state)
    (hstep : Interleaved (Step program) state state') : Tabled program counter files state' := by
  have hcounted := h.counted.step hstep
  have hmono := h.counted.counter_mono hstep
  cases hstep with
  | @step shared shared' threads thread' i hstep =>
      have hsteps : Steps program shared (threads i) shared' thread' := step_cases hstep
      have hspec := hsteps.printSpec
      obtain ⟨hnodup, hpast⟩ := h.headers_step hspec
      refine ⟨hcounted, h.layout.step h.alone hspec, ?_, ?_, hnodup, hpast, ?_, ?_⟩
      · intro j name hj
        dsimp only at hj
        by_cases hji : j = i
        · subst hji
          rw [Function.update_self] at hj
          exact h.names j name (hsteps.name_eq hj)
        · rw [Function.update_of_ne hji] at hj
          exact h.names j name hj
      · intro j
        dsimp only
        by_cases hji : j = i
        · subst hji
          rw [Function.update_self]
          exact hsteps.pending_suffix.trans (h.pending j)
        · rw [Function.update_of_ne hji]
          exact h.pending j
      · intro before c val hbefore
        exact h.entries_step hmono hspec hbefore
      · intro j c val hvalue
        exact h.value_step hmono hspec hvalue

end SysProg.LockedCounters
