import SysProg.Verification.LockedCounters.Progress

/-! # The tables

The tables are whole, one for each file that has been read to its end, and each shows at least what
the ones before it show. -/

namespace SysProg.LockedCounters

open Transmission
open CountByFile (indices)

variable {program : Program} {n descriptors : ℕ} {counter : UInt8 → ℤ} {files : Fin n → File}

/-! ## The tables -/

/-- The tables among the blocks, with the names of their files. -/
def tables {ν : Type} (blocks : List (Block ν)) : List (ν × (UInt8 → ℤ)) :=
  blocks.filterMap fun
    | .table name val => some (name, val)
    | _ => none

theorem headers_entries {ν : Type} (table : UInt8 → ℤ) (done : List UInt8) :
    headers (entries table done : List (Line ℤ ν)) = [] := by
  simp [headers, entries, List.filterMap_map]

theorem headers_blocks {ν : Type} (blocks : List (Block ν)) :
    headers (blocks.flatMap Block.lines) = (tables blocks).map Prod.fst := by
  induction blocks with
  | nil => rfl
  | cons block blocks ih =>
      rw [List.flatMap_cons, headers_append, ih]
      cases block with
      | table name val =>
          have hlines : headers (Block.table name val).lines = [name] := by
            rw [Block.lines, headers_append, ← List.singleton_append, headers_append,
              headers_entries]
            rfl
          rw [hlines]
          rfl
      | unreadable | started => rfl

theorem mem_values_blocks {ν : Type} {blocks : List (Block ν)} {table : ν × (UInt8 → ℤ)}
    (h : table ∈ tables blocks) (c : UInt8) : table.2 c ∈ values c (blocks.flatMap Block.lines) := by
  obtain ⟨block, hblock, heq⟩ := List.mem_filterMap.mp h
  cases block with
  | table name val =>
      cases heq
      apply List.mem_filterMap.mpr
      refine ⟨.entry c (val c), ?_, if_pos rfl⟩
      apply List.mem_flatMap.mpr
      refine ⟨_, hblock, ?_⟩
      have hc : c ∈ indices := List.count_pos_iff.mp (by rw [CountByFile.count_indices]; decide)
      have hmem : Line.entry c (val c) ∈ (entries val indices : List (Line ℤ ν)) :=
        List.mem_map.mpr ⟨c, hc, rfl⟩
      simp [Block.lines, hmem]
  | unreadable | started => cases heq

/-- The lines before the entry of a table. -/
theorem prefix_of_tables {ν : Type} {blocks : List (Block ν)} {earlier later : List (ν × (UInt8 → ℤ))}
    {table : ν × (UInt8 → ℤ)} (h : tables blocks = earlier ++ table :: later) (c : UInt8) :
    ∃ before, before ++ [.entry c (table.2 c)] <+: blocks.flatMap Block.lines ∧
      headers before = (earlier ++ [table]).map Prod.fst ∧
      ∀ table' ∈ earlier, table'.2 c ∈ values c before := by
  obtain ⟨first, rest, rfl, hfirst, hrest⟩ := List.filterMap_eq_append_iff.mp h
  obtain ⟨skipped, block, rest', rfl, hskipped, hblock, -⟩ := List.filterMap_eq_cons_iff.mp hrest
  have hearlier : tables (first ++ skipped) = earlier := by
    rw [tables, List.filterMap_append, hfirst, List.filterMap_eq_nil_iff.mpr hskipped,
      List.append_nil]
  cases block with
  | table name val =>
      cases hblock
      have hc : c ∈ indices := List.count_pos_iff.mp (by rw [CountByFile.count_indices]; decide)
      obtain ⟨done, todo, hindices⟩ := List.append_of_mem hc
      refine ⟨(first ++ skipped).flatMap Block.lines ++ .header name :: entries val done, ?_, ?_, ?_⟩
      · refine ⟨entries val todo ++ [.footer] ++ rest'.flatMap Block.lines, ?_⟩
        simp [Block.lines, hindices, entries]
      · rw [headers_append, headers_blocks, hearlier, ← List.singleton_append, headers_append,
          headers_entries]
        simp [headers]
      · intro table' htable'
        rw [← hearlier] at htable'
        rw [values, List.filterMap_append]
        exact List.mem_append_left _ (mem_values_blocks htable' c)
  | unreadable | started => cases hblock

theorem pairwise_of_splits {α : Type*} {R : α → α → Prop} {l : List α}
    (h : ∀ earlier a later, l = earlier ++ a :: later → ∀ b ∈ earlier, R b a) : l.Pairwise R := by
  induction l using List.reverseRecOn with
  | nil => exact .nil
  | append_singleton l a ih =>
      rw [List.pairwise_append]
      refine ⟨ih ?_, List.pairwise_singleton R a, ?_⟩
      · intro earlier b later heq
        exact h earlier b (later ++ [a]) (by simp [heq])
      · intro b hb a' ha'
        obtain rfl := List.mem_singleton.mp ha'
        exact h l a' [] rfl b hb

/-- What the reports say at the end. -/
structure ExactTables (program : Program) (counter : UInt8 → ℤ) (files : Fin n → File)
    (blocks : List (Block (Fin n))) : Prop where
  /-- Every thread has printed its report, once. -/
  reports : (blocks.map Block.report : Multiset (Report (Fin n))) = reports program files
  /-- No counter of a table is below the same one of an earlier table. -/
  increasing : (tables blocks).Pairwise fun (table table' : Fin n × (UInt8 → ℤ)) =>
    ∀ c, table.2 c ≤ table'.2 c
  /-- A table counts its own file and those of the earlier tables. -/
  counts : ∀ earlier (table : Fin n × (UInt8 → ℤ)) later,
    tables blocks = earlier ++ table :: later → ∀ c,
    counter c + countsOf files ((earlier ++ [table]).map Prod.fst) c ≤ table.2 c
  atMost : ∀ table ∈ tables blocks, ∀ c, table.2 c ≤ counter c + occurrences files c
  /-- If all files have been read to their ends, the last table counts all of them. -/
  last : (∀ i, (files i).ending = .eof) → ∀ table ∈ (tables blocks).getLast?, ∀ c,
    table.2 c = counter c + occurrences files c

theorem begun_blocks {ν : Type} (blocks : List (Block ν)) :
    begun (blocks.flatMap Block.lines) = (blocks.map Block.report : Multiset (Report ν)) := by
  induction blocks with
  | nil => rfl
  | cons block blocks ih =>
      have hblock : begun block.lines = {block.report} := by
        cases block with
        | table name val =>
            have hentries : (entries val indices : List (Line ℤ ν)).filterMap Line.report = [] := by
              simp [entries, List.filterMap_map, Line.report]
            simp [begun, Block.lines, Block.report, hentries, Line.report]
        | unreadable | started => rfl
      rw [List.flatMap_cons, begun_append, ih, hblock, List.map_cons, ← Multiset.cons_coe]
      rfl

theorem count_names (blocks : List (Block (Fin n))) (name : Fin n) :
    ((tables blocks).map Prod.fst).count name = (blocks.map Block.report).count (.table name) := by
  induction blocks with
  | nil => rfl
  | cons block blocks ih =>
      rw [tables, List.filterMap_cons, List.map_cons, List.count_cons, ← ih]
      cases block with
      | table name' val => simp [tables, List.count_cons, Block.report]
      | unreadable | started => simp [tables, Block.report]

/-- If all files are read to their ends, each of them has one table. -/
theorem names_perm {blocks : List (Block (Fin n))}
    (hreports : (blocks.map Block.report : Multiset (Report (Fin n))) = reports program files)
    (heof : ∀ i, (files i).ending = .eof) :
    ((tables blocks).map Prod.fst).Perm (List.finRange n) := by
  apply List.perm_iff_count.mpr
  intro name
  have hmain : Multiset.count (Report.table name)
      (if program.announces then ({.started} : Multiset (Report (Fin n))) else 0) = 0 := by
    split <;> simp
  rw [count_names, ← Multiset.coe_count, hreports, reports, Multiset.count_add, hmain,
    Multiset.count_sum', List.count_eq_one_of_mem (List.nodup_finRange n) (List.mem_finRange name)]
  simp [heof, outcome, Multiset.count_singleton]

/-- The counts of all files together. -/
theorem countsOf_perm {names : List (Fin n)} (h : names.Perm (List.finRange n)) (c : UInt8) :
    countsOf files names c = occurrences files c := by
  rw [countsOf, (h.map _).sum_eq, occurrences, ← List.sum_ofFn, List.ofFn_eq_map]

theorem Reported.output {state : State program ℤ n}
    (h : Reported program descriptors counter files state)
    (hfinished : ∀ i, (state.2 i).Finished) :
    ∃ blocks, state.1.printed = blocks.flatMap Block.lines ∧
      errors state.1.terminal = failing program files ∧
      ExactTables program counter files blocks := by
  have hsource : ∀ i, (state.2 i).source = none ∧ (state.2 i).unprinted = none ∧
      (state.2 i).future program = 0 := by
    intro i
    have hi := hfinished i
    generalize state.2 i = thread at hi ⊢
    cases thread <;> first | exact ⟨rfl, rfl, rfl⟩ | exact hi.elim
  obtain ⟨blocks, lines, hlines, hnone, -⟩ := h.tabled.layout.exists_blocks
  rw [hnone fun i => (hsource i).2.1, List.append_nil] at hlines
  have hreports : (blocks.map Block.report : Multiset (Report (Fin n))) =
      reports program files := by
    have htotal : total (Thread.future program) state.2 = 0 :=
      Finset.sum_eq_zero fun i _ => (hsource i).2.2
    rw [← h.reported, htotal, add_zero, hlines, begun_blocks]
  have herrors : errors state.1.terminal = failing program files := by
    have htotal : total (Thread.failures program) state.2 = 0 :=
      Finset.sum_eq_zero fun i _ => by rw [Thread.failures, (hsource i).1]; rfl
    rw [← h.failed, htotal, add_zero]
  have hcounts : ∀ earlier (table : Fin n × (UInt8 → ℤ)) later,
      tables blocks = earlier ++ table :: later → ∀ c,
      counter c + countsOf files ((earlier ++ [table]).map Prod.fst) c ≤ table.2 c := by
    intro earlier table later htables c
    obtain ⟨before, hprefix, hnames, -⟩ := prefix_of_tables htables c
    rw [← hlines] at hprefix
    rw [← hnames]
    exact (h.tabled.entries before c _ hprefix).1.counts
  have hatMost : ∀ table ∈ tables blocks, ∀ c, table.2 c ≤ counter c + occurrences files c := by
    intro table htable c
    obtain ⟨earlier, later, htables⟩ := List.append_of_mem htable
    obtain ⟨before, hprefix, -, -⟩ := prefix_of_tables htables c
    rw [← hlines] at hprefix
    exact (h.tabled.entries before c _ hprefix).2.trans (h.tabled.counted.counter_le c)
  refine ⟨blocks, hlines, herrors, hreports, ?_, hcounts, hatMost, ?_⟩
  · apply pairwise_of_splits
    intro earlier table later htables table' htable' c
    obtain ⟨before, hprefix, -, hvalues⟩ := prefix_of_tables htables c
    rw [← hlines] at hprefix
    exact (h.tabled.entries before c _ hprefix).1.above _ (hvalues table' htable')
  · intro heof table htable c
    obtain ⟨earlier, htables⟩ := List.getLast?_eq_some_iff.mp htable
    have hlast := hcounts earlier table [] htables c
    rw [← htables, countsOf_perm (names_perm hreports heof)] at hlast
    have hle := hatMost table (htables ▸ List.mem_concat_self) c
    omega

/-! ## Safety -/

/-- The thread has locked a counter to increment it. -/
def Thread.Increments {ν : Type} (c : UInt8) : Thread ℤ ν → Prop
  | .locked _ c' _ _ => c' = c
  | .loaded _ c' _ _ _ => c' = c
  | .stored _ c' _ _ => c' = c
  | _ => False

/-- The thread has locked a counter to read it. -/
def Thread.Reads {ν : Type} (c : UInt8) : Thread ℤ ν → Prop
  | .reading _ i _ => i = c
  | .read _ i _ _ => i = c
  | _ => False

theorem Thread.Increments.held {ν : Type} {thread : Thread ℤ ν} {c : UInt8}
    (h : thread.Increments c) : held program (program.lockNum c) thread = (1, 0) := by
  cases thread <;> first | exact h.elim | (obtain rfl := h; exact if_pos rfl)

theorem Thread.Reads.held {ν : Type} {thread : Thread ℤ ν} {c : UInt8}
    (h : thread.Reads c) : LockedCounters.held program (program.lockNum c) thread = (0, 1) := by
  cases thread <;> first | exact h.elim | (obtain rfl := h; exact if_pos rfl)

/-- What the locks are for. -/
structure Safe (counter : UInt8 → ℤ) (files : Fin n → File) (state : State program ℤ n) : Prop where
  /-- A thread that increments a counter is alone with it. -/
  alone : ∀ c i j, i ≠ j → (state.2 i).Increments c →
    ¬ (state.2 j).Increments c ∧ ¬ (state.2 j).Reads c
  /-- All that has been counted is in the counters. -/
  noneLost : ∃ done : Fin n → Bytes,
    (∀ i, done i ++ (state.2 (some i)).pending = (files i).bytes) ∧
    ∀ c, state.1.counter c = counter c + ∑ i, ((done i).count c : ℤ)
  /-- A report is not mixed with another one, also while it is printed. -/
  unmixed : Layout state.1.printed state.2
  /-- What has been printed is in order and is no more than what has been counted. -/
  entries : ∀ before c val, before ++ [.entry c val] <+: state.1.printed →
    Entry counter files before c val ∧ val ≤ state.1.counter c

theorem Tabled.safe {state : State program ℤ n} (h : Tabled program counter files state) :
    Safe counter files state := by
  refine ⟨?_, ?_, h.layout, h.entries⟩
  · intro c i j hij hi
    have halone := (h.counted.locks (program.lockNum c)).alone hij (by rw [hi.held])
    refine ⟨?_, ?_⟩
    · intro hj
      rw [hj.held] at halone
      simp at halone
    · intro hj
      rw [hj.held] at halone
      simp at halone
  · choose done hdone using fun i : Fin n => h.pending (some i)
    refine ⟨done, hdone, ?_⟩
    intro c
    have hcounted := h.counted.counted c
    have hmain : toAdd c (state.2 none) = 0 := by
      have hpending : (state.2 none).pending <:+ [] := h.pending none
      rw [toAdd, List.suffix_nil.mp hpending]
      rfl
    have hfiles : occurrences files c =
        ∑ i, ((done i).count c : ℤ) + ∑ i, toAdd c (state.2 (some i)) := by
      rw [occurrences, ← Finset.sum_add_distrib]
      apply Finset.sum_congr rfl
      intro i _
      rw [← show done i ++ (state.2 (some i)).pending = (files i).bytes from hdone i, toAdd,
        List.count_append]
      push_cast
      rfl
    rw [total, Fintype.sum_option, hmain, hfiles] at hcounted
    omega

end SysProg.LockedCounters
