import SysProg.Verification.LockedCounters.Tables

/-! # All threads come to their ends

A thread waits for a lock, whose holder goes on, or for a descriptor. Only the threads that fail
keep their descriptors for good. -/

namespace SysProg.LockedCounters

open Transmission
open CountByFile (indices)

variable {program : Program} {n descriptors : ℕ} {counter : UInt8 → ℤ} {files : Fin n → File}

/-! ## The reports -/

def Line.report {ν : Type} : Line ℤ ν → Option (Report ν)
  | .header name => some (.table name)
  | .unreadable name => some (.unreadable name)
  | .started => some .started
  | .entry _ _ | .footer | .error _ => none

/-- The reports that have been begun. -/
def begun {ν : Type} (lines : List (Line ℤ ν)) : Multiset (Report ν) :=
  (lines.filterMap Line.report : List (Report ν))

def Block.report {ν : Type} : Block ν → Report ν
  | .table name _ => .table name
  | .unreadable name => .unreadable name
  | .started => .started

/-- The reports of all threads. -/
def reports (program : Program) (files : Fin n → File) : Multiset (Report (Fin n)) :=
  (if program.announces then {.started} else 0) + ∑ i, outcome program i (files i).ending

theorem begun_append {ν : Type} (lines lines' : List (Line ℤ ν)) :
    begun (lines ++ lines') = begun lines + begun lines' := by
  rw [begun, List.filterMap_append]
  rfl

/-- A report is begun by the thread that has it before it. -/
theorem PrintSpec.begun_eq {ν : Type} {shared shared' : Shared program ℤ ν}
    {thread thread' : Thread ℤ ν} (h : PrintSpec program shared shared' thread thread') :
    begun shared'.printed + thread'.future program =
      begun shared.printed + thread.future program := by
  cases h with
  | quiet hprinted _ hfuture _ _ => rw [hprinted, hfuture]
  | header name hprinted | unreadable name hprinted | started hprinted
  | entry name i val todo hprinted | footer name hprinted =>
      rw [hprinted, begun_append, add_assoc]
      rfl

/-! ## The failures -/

/-- The reading of the file ends in `handle_error`. -/
def fails (program : Program) : Ending → Bool
  | .notOpened | .error => true
  | .badDescriptor => program.onBadDescriptor = .fails
  | .eof => false

/-- It ends there while the file is open. -/
def leaks (program : Program) : Ending → Bool
  | .error => true
  | .badDescriptor => program.onBadDescriptor = .fails
  | .notOpened | .eof => false

section Failures

variable {κ ν : Type}

def Line.failure : Line κ ν → Option ν
  | .error name => some name
  | _ => none

/-- The files with a message of `handle_error`. -/
def errors (lines : List (Line κ ν)) : Multiset ν :=
  (lines.filterMap Line.failure : List ν)

theorem errors_append (lines lines' : List (Line κ ν)) :
    errors (lines ++ lines') = errors lines + errors lines' := by
  rw [errors, List.filterMap_append]
  rfl

/-- What a thread reads, and how that is going to end. -/
def Thread.source : Thread κ ν → Option (ν × Ending)
  | .opening name file => some (name, file.ending)
  | .counting name _ ending => some (name, ending)
  | .locked name _ _ ending => some (name, ending)
  | .loaded name _ _ _ ending => some (name, ending)
  | .stored name _ _ ending => some (name, ending)
  | _ => none

/-- The messages of `handle_error` that the thread is still to print. -/
def Thread.failures (program : Program) (thread : Thread κ ν) : Multiset ν :=
  thread.source.elim 0 fun source => if fails program source.2 then {source.1} else 0

/-- The descriptors that the thread does not give back. -/
def Thread.leaking (program : Program) : Thread κ ν → ℕ
  | .failed => 1
  | thread => thread.source.elim 0 fun source => if leaks program source.2 then 1 else 0

/-- The descriptors that the thread has. -/
def Thread.holding : Thread κ ν → ℕ
  | .opening _ _ => 0
  | .failed => 1
  | thread => thread.source.elim 0 fun source => if source.2 = .notOpened then 0 else 1

/-- The thread waits for a descriptor. -/
def Thread.Opens : Thread κ ν → Prop
  | .opening _ _ => True
  | _ => False

variable [Add κ] [One κ] {shared shared' : Shared program κ ν} {thread thread' : Thread κ ν}

theorem Steps.errors_eq (h : Steps program shared thread shared' thread') :
    errors shared'.terminal + thread'.failures program =
      errors shared.terminal + thread.failures program := by
  cases h with
  | atEnd name ending =>
      cases ending with
      | eof => rfl
      | notOpened | error => exact (add_zero _).trans (errors_append shared.terminal [.error name])
      | badDescriptor =>
          cases hbad : program.onBadDescriptor with
          | exits | reports =>
              simp [LockedCounters.atEnd, hbad, Thread.failures, Thread.source, LockedCounters.fails,
                Shared.closeFile]
          | fails =>
              simp [LockedCounters.atEnd, hbad, Thread.failures, Thread.source, LockedCounters.fails,
                Shared.print, errors, Line.failure]
              rfl
  | header | unreadable | started | entry | footer =>
      exact congrArg (· + 0) ((errors_append shared.terminal _).trans (add_zero _))
  | openFile | lock | load | store | unlock | lockOutput | rdlock | read | rdunlock
  | unlockOutput => rfl

theorem Steps.leaking_eq (h : Steps program shared thread shared' thread') :
    thread'.leaking program = thread.leaking program := by
  cases h with
  | atEnd name ending =>
      cases ending with
      | notOpened | eof | error => rfl
      | badDescriptor =>
          cases hbad : program.onBadDescriptor <;>
            simp [LockedCounters.atEnd, hbad, Thread.leaking, Thread.source, leaks]
  | openFile | lock | load | store | unlock | lockOutput | header | unreadable | started | rdlock
  | read | rdunlock | entry | footer | unlockOutput => rfl

/-- No descriptor gets lost. -/
theorem Steps.descriptors_eq (hopens : program.opens = true)
    (h : Steps program shared thread shared' thread') :
    shared'.descriptors + thread'.holding = shared.descriptors + thread.holding := by
  cases h with
  | openFile name file hfree =>
      by_cases hopened : file.ending = .notOpened
      · simp [Shared.openFile, Thread.holding, Thread.source, hopened]
      · simp only [Shared.openFile, Thread.holding, Thread.source, Option.elim, if_neg hopened]
        omega
  | atEnd name ending =>
      cases ending with
      | notOpened | error => rfl
      | eof => simp [LockedCounters.atEnd, Shared.closeFile, hopens, Thread.holding, Thread.source]
      | badDescriptor =>
          cases hbad : program.onBadDescriptor <;>
            simp [LockedCounters.atEnd, hbad, Shared.closeFile, Shared.print, hopens, Thread.holding,
              Thread.source]
  | lock | load | store | unlock | lockOutput | header | unreadable | started | rdlock | read
  | rdunlock | entry | footer | unlockOutput => rfl

theorem Steps.not_opens (h : Steps program shared thread shared' thread') : ¬ thread'.Opens := by
  cases h with
  | atEnd name ending =>
      cases ending with
      | notOpened | eof | error => exact id
      | badDescriptor =>
          unfold LockedCounters.atEnd
          cases program.onBadDescriptor <;> exact id
  | openFile | lock | load | store | unlock | lockOutput | header | unreadable | started | rdlock
  | read | rdunlock | entry | footer | unlockOutput => exact id

end Failures

/-- The files that fail. -/
def failing (program : Program) (files : Fin n → File) : Multiset (Fin n) :=
  ∑ i, if fails program (files i).ending then {i} else 0

/-- The threads that keep their descriptors. -/
def leaky (program : Program) (files : Fin n → File) : Finset (Fin n) :=
  {i | leaks program (files i).ending}

def leakingOf (program : Program) (files : Fin n → File) : Option (Fin n) → ℕ
  | none => 0
  | some i => if i ∈ leaky program files then 1 else 0

/-- The invariant, and that no report and no descriptor is lost. -/
structure Reported (program : Program) (descriptors : ℕ) (counter : UInt8 → ℤ)
    (files : Fin n → File) (state : State program ℤ n) : Prop where
  tabled : Tabled program counter files state
  reported : begun state.1.printed + total (Thread.future program) state.2 = reports program files
  failed : errors state.1.terminal + total (Thread.failures program) state.2 =
    failing program files
  leaking : ∀ i, (state.2 i).leaking program = leakingOf program files i
  descriptors : program.opens = true →
    state.1.descriptors + total Thread.holding state.2 = descriptors
  opens : program.opens = false → ∀ i, ¬ (state.2 i).Opens

/-- A sum over the threads with which the program begins. -/
theorem total_start {M : Type*} [AddCommMonoid M] (program : Program) (descriptors : ℕ)
    (counter : UInt8 → ℤ) (files : Fin n → File) (of : Thread ℤ (Fin n) → M) (main : M)
    (file : Fin n → M) (hmain : of (if program.announces then .waiting .started else .finished) = main)
    (hfile : ∀ i, of (first program i (files i)) = file i) :
    total of (start program descriptors counter files).2 = main + ∑ i, file i := by
  rw [total, Fintype.sum_option, ← hmain]
  exact congrArg _ (Finset.sum_congr rfl fun i _ => hfile i)

theorem source_first {κ ν : Type} (program : Program) (name : ν) (file : File) :
    (first program name file : Thread κ ν).source = some (name, file.ending) := by
  unfold first
  split <;> rfl

theorem holding_start (hopens : program.opens = true) (i : Option (Fin n)) :
    ((start program descriptors counter files).2 i).holding = 0 := by
  cases i with
  | none =>
      simp only [start]
      split <;> rfl
  | some i => simp [start, first, hopens, Thread.holding]

theorem reported_start (program : Program) (descriptors : ℕ) (counter : UInt8 → ℤ)
    (files : Fin n → File) :
    Reported program descriptors counter files (start program descriptors counter files) := by
  refine ⟨tabled_start program descriptors counter files, ?_, ?_, ?_, ?_, ?_⟩
  · refine (zero_add _).trans (total_start program descriptors counter files _ _ _ ?_ ?_)
    · split <;> rfl
    · intro i
      unfold first
      split <;> rfl
  · refine (zero_add _).trans ((total_start program descriptors counter files _ 0 _ ?_ ?_).trans
      (zero_add _))
    · split <;> rfl
    · intro i
      rw [Thread.failures, source_first]
      rfl
  · refine forall_start program descriptors counter files
      (P := fun i thread => thread.leaking program = leakingOf program files i) rfl rfl ?_ ?_
    all_goals
      intro i
      simp [Thread.leaking, Thread.source, leakingOf, leaky]
  · intro hopens
    rw [total, Finset.sum_eq_zero fun i _ => holding_start hopens i]
    rfl
  · intro hopens i
    cases i with
    | none =>
        simp only [start]
        split <;> exact id
    | some i => simp [start, first, hopens, Thread.Opens]

theorem Reported.step {state state' : State program ℤ n}
    (h : Reported program descriptors counter files state)
    (hstep : Interleaved (Step program) state state') :
    Reported program descriptors counter files state' := by
  have htabled := h.tabled.step hstep
  cases hstep with
  | @step shared shared' threads thread' i hstep =>
      have hsteps : Steps program shared (threads i) shared' thread' := step_cases hstep
      refine ⟨htabled, ?_, ?_, ?_, ?_, ?_⟩
      · rw [← h.reported]
        exact conserved_step (fun shared : Shared program ℤ (Fin n) => begun shared.printed)
          (Thread.future program) hsteps.printSpec.begun_eq
      · rw [← h.failed]
        exact conserved_step (fun shared : Shared program ℤ (Fin n) => errors shared.terminal)
          (Thread.failures program) hsteps.errors_eq
      · intro j
        dsimp only
        by_cases hj : j = i
        · subst hj
          rw [Function.update_self, hsteps.leaking_eq]
          exact h.leaking j
        · rw [Function.update_of_ne hj]
          exact h.leaking j
      · intro hopens
        rw [← h.descriptors hopens]
        exact conserved_step (fun shared : Shared program ℤ (Fin n) => shared.descriptors)
          Thread.holding (hsteps.descriptors_eq hopens)
      · intro hopens j
        dsimp only
        by_cases hj : j = i
        · subst hj
          rw [Function.update_self]
          exact hsteps.not_opens
        · rw [Function.update_of_ne hj]
          exact h.opens hopens j

/-! ## Termination -/

/-- The steps that a thread has left. -/
def Thread.rank {ν : Type} : Thread ℤ ν → ℕ
  | .opening _ file => 4 * file.bytes.length + 4 * indices.length + 6
  | .counting _ todo _ => 4 * todo.length + 4 * indices.length + 5
  | .locked _ _ todo _ => 4 * todo.length + 4 * indices.length + 8
  | .loaded _ _ _ todo _ => 4 * todo.length + 4 * indices.length + 7
  | .stored _ _ todo _ => 4 * todo.length + 4 * indices.length + 6
  | .waiting _ => 4 * indices.length + 4
  | .printing _ => 4 * indices.length + 3
  | .output _ todo => 4 * todo.length + 2
  | .reading _ _ todo => 4 * todo.length + 5
  | .read _ _ _ todo => 4 * todo.length + 4
  | .unlocked _ _ _ todo => 4 * todo.length + 3
  | .releasing => 1
  | .finished | .failed => 0

theorem rank_atEnd {ν : Type} (shared : Shared program ℤ ν) (name : ν) (ending : Ending) :
    (atEnd program shared name ending).2.rank < (Thread.counting name [] ending).rank := by
  cases ending with
  | notOpened | eof | error => simp [atEnd, Thread.rank]
  | badDescriptor =>
      unfold atEnd
      cases program.onBadDescriptor <;> simp [Thread.rank]

theorem Steps.rank_lt {ν : Type} {shared shared' : Shared program ℤ ν} {thread thread' : Thread ℤ ν}
    (h : Steps program shared thread shared' thread') : thread'.rank < thread.rank := by
  cases h with
  | atEnd name ending => exact rank_atEnd shared name ending
  | openFile | lock | load | store | unlock | lockOutput | header | unreadable | started | rdlock
  | read | rdunlock | entry | footer | unlockOutput =>
      simp only [Thread.rank, List.length_cons, List.length_nil]
      omega

/-- A thread that holds the lock of a counter goes on. -/
theorem Counted.progress_of_held {state : State program ℤ n}
    (h : Counted program counter files state) {i : Option (Fin n)} {k : Fin program.LOCKS}
    (hi : held program k (state.2 i) ≠ 0) : ∃ t, Step program (state.1, state.2 i) t := by
  have hlock := h.locks k
  generalize hthread : state.2 i = thread at hi
  cases thread with
  | locked name c todo ending => exact ⟨_, rfl⟩
  | loaded name c val todo ending => exact ⟨_, rfl⟩
  | stored name c todo ending =>
      simp only [held, ne_eq, ite_eq_right_iff, Classical.not_imp] at hi
      obtain ⟨rfl, -⟩ := hi
      obtain ⟨lock, hfree⟩ := hlock.wrunlock (i := i) (by simp [hthread, held])
      exact ⟨_, by simp only [Step, next, hfree]; rfl⟩
  | reading name i todo => exact ⟨_, rfl⟩
  | read name j val todo =>
      simp only [held, ne_eq, ite_eq_right_iff, Classical.not_imp] at hi
      obtain ⟨rfl, -⟩ := hi
      obtain ⟨lock, hfree⟩ := hlock.rdunlock (i := i) (by simp [hthread, held])
      exact ⟨_, by simp only [Step, next, hfree]; rfl⟩
  | opening | counting | waiting | printing | output | unlocked | releasing | finished | failed =>
      exact absurd rfl hi

/-- A thread that prints goes on if nobody holds the lock of a counter. -/
theorem Counted.progress_of_prints {state : State program ℤ n}
    (h : Counted program counter files state) {i : Option (Fin n)} (hi : (state.2 i).Prints)
    (hfree : ∀ k, program.lock.Held 0 (state.1.locks k)) :
    ∃ t, Step program (state.1, state.2 i) t := by
  have houtput := h.output
  generalize hthread : state.2 i = thread at hi
  cases thread with
  | printing report => cases report <;> exact ⟨_, rfl⟩
  | output name todo =>
      cases todo with
      | nil => exact ⟨_, rfl⟩
      | cons c todo =>
          obtain ⟨lock, hlock⟩ := program.lock.rdlock_free (hfree (program.lockNum c))
          exact ⟨_, by simp only [Step, next, hlock]; rfl⟩
  | unlocked name c val todo => exact ⟨_, rfl⟩
  | releasing =>
      obtain ⟨output, hunlock⟩ := houtput.wrunlock (i := i)
        (by simp [hthread, heldOutput, Thread.Prints])
      exact ⟨_, by simp only [Step, next, hunlock]; rfl⟩
  | reading name c todo => exact ⟨_, rfl⟩
  | read name c val todo =>
      have hlock := h.locks (program.lockNum c)
      obtain ⟨lock, hunlock⟩ := hlock.rdunlock (i := i) (by simp [hthread, held])
      exact ⟨_, by simp only [Step, next, hunlock]; rfl⟩
  | opening | counting | locked | loaded | stored | waiting | finished | failed => exact hi.elim

/-- A thread that does not wait for a descriptor goes on, or it lets another one go on. -/
theorem Counted.progress {state : State program ℤ n} (h : Counted program counter files state) :
    (∀ i, (state.2 i).Finished ∨ (state.2 i).Opens) ∨ ∃ t, Interleaved (Step program) state t := by
  by_cases hheld : ∃ i k, held program k (state.2 i) ≠ 0
  · obtain ⟨i, k, hik⟩ := hheld
    obtain ⟨⟨shared', thread'⟩, hstep⟩ := h.progress_of_held hik
    exact .inr ⟨_, .step i hstep⟩
  · have hnone : ∀ i k, held program k (state.2 i) = 0 := by simpa using hheld
    have hfree : ∀ k, program.lock.Held 0 (state.1.locks k) :=
      fun k => (h.locks k).free fun i => hnone i k
    by_cases hprints : ∃ i, (state.2 i).Prints
    · obtain ⟨i, hi⟩ := hprints
      obtain ⟨⟨shared', thread'⟩, hstep⟩ := h.progress_of_prints hi hfree
      exact .inr ⟨_, .step i hstep⟩
    · have houtput : program.outputLock.Held 0 state.1.output := by
        apply h.output.free
        intro i
        exact if_neg fun hi => hprints ⟨i, hi⟩
      by_cases hall : ∀ i, (state.2 i).Finished ∨ (state.2 i).Opens
      · exact .inl hall
      · obtain ⟨i, hi⟩ := not_forall.mp hall
        suffices hstep : ∃ t, Step program (state.1, state.2 i) t by
          obtain ⟨⟨shared', thread'⟩, hstep⟩ := hstep
          exact .inr ⟨_, .step i hstep⟩
        have hnot : ¬ (state.2 i).Prints := fun hprints' => hprints ⟨i, hprints'⟩
        have hnone' := hnone i
        generalize state.2 i = thread at hi hnot hnone'
        cases thread with
        | counting name todo ending =>
            cases todo with
            | nil => exact ⟨_, rfl⟩
            | cons c todo =>
                obtain ⟨lock, hlock⟩ := program.lock.wrlock_free (hfree (program.lockNum c))
                exact ⟨_, by simp only [Step, next, hlock]; rfl⟩
        | waiting report =>
            obtain ⟨output, hlock⟩ := program.outputLock.wrlock_free houtput
            exact ⟨_, by simp only [Step, next, hlock]; rfl⟩
        | locked name c | loaded name c | stored name c =>
            simpa [held] using hnone' (program.lockNum c)
        | printing | output | reading | read | unlocked | releasing => exact absurd trivial hnot
        | opening => exact absurd (.inr trivial) hi
        | finished | failed => exact absurd (.inl trivial) hi

/-- The descriptors that threads have for good when the others wait for one. -/
theorem Reported.holding_le {state : State program ℤ n}
    (h : Reported program descriptors counter files state)
    (hall : ∀ i, (state.2 i).Finished ∨ (state.2 i).Opens) (i : Option (Fin n)) :
    (state.2 i).holding ≤ leakingOf program files i := by
  rw [← h.leaking i]
  have hi := hall i
  generalize state.2 i = thread at hi
  cases thread <;> simp [Thread.Finished, Thread.Opens] at hi <;>
    simp [Thread.holding, Thread.leaking, Thread.source]

theorem total_leakingOf (program : Program) (files : Fin n → File) :
    ∑ i, leakingOf program files (some i) = (leaky program files).card := by
  simp [leakingOf]

/-- As long as a thread has not ended, some thread goes on, if the descriptors do not run out. -/
theorem Reported.progress {state : State program ℤ n}
    (h : Reported program descriptors counter files state)
    (henough : program.opens = true →
      (leaky program files).card < descriptors ∨ n ≤ descriptors) :
    (∀ i, (state.2 i).Finished) ∨ ∃ t, Interleaved (Step program) state t := by
  rcases h.tabled.counted.progress with hall | hstep
  · by_cases hopens : ∃ i, (state.2 i).Opens
    · obtain ⟨i, hi⟩ := hopens
      have hprogram : program.opens = true := by
        by_contra hprogram
        exact h.opens (Bool.eq_false_iff.mpr hprogram) i hi
      have hholding := h.holding_le hall
      cases hthread : state.2 i with
      | opening name file =>
          obtain rfl : i = some name := h.tabled.names i name (by rw [hthread]; rfl)
          have hmain : (state.2 none).holding = 0 := Nat.le_zero.mp (hholding none)
          have hzero : (state.2 (some name)).holding = 0 := by rw [hthread]; rfl
          have htotal := h.descriptors hprogram
          rw [total, Fintype.sum_option, hmain, zero_add] at htotal
          have hleaky : ∑ j, (state.2 (some j)).holding ≤ (leaky program files).card := by
            rw [← total_leakingOf]
            exact Finset.sum_le_sum fun j _ => hholding (some j)
          have hothers : ∑ j, (state.2 (some j)).holding < n := by
            calc ∑ j, (state.2 (some j)).holding < ∑ _ : Fin n, 1 := by
                  refine Finset.sum_lt_sum ?_ ⟨name, Finset.mem_univ name, by rw [hzero]; exact one_pos⟩
                  intro j _
                  refine (hholding (some j)).trans ?_
                  simp only [leakingOf]
                  split <;> omega
              _ = n := by simp
          have hfree : state.1.descriptors ≠ 0 := by
            rcases henough hprogram with henough | henough <;> omega
          exact .inr ⟨_, .step (some name) (show Step program (state.1, state.2 (some name)) _ by
            rw [hthread, Step, next, if_neg hfree])⟩
      | _ => rw [hthread] at hi; exact hi.elim
    · refine .inl fun i => (hall i).resolve_right fun hi => hopens ⟨i, hi⟩
  · exact .inr hstep

/-- In every order of the steps all threads end, if the descriptors do not run out. -/
theorem leads_finished (program : Program) (descriptors : ℕ) (counter : UInt8 → ℤ) (files : Fin n → File)
    (henough : program.opens = true →
      (leaky program files).card < descriptors ∨ n ≤ descriptors) :
    Leads (Interleaved (Step program))
      (fun state => (∀ i, (state.2 i).Finished) ∧
        Reported program descriptors counter files state)
      (start program descriptors counter files) := by
  refine Leads.of_variant (I := Reported program descriptors counter files)
    (fun state => total Thread.rank state.2) ?_ ?_ _
    (reported_start program descriptors counter files)
  · intro state h
    rcases h.progress henough with hall | hstep
    · exact .inl ⟨hall, h⟩
    · exact .inr hstep
  · intro state state' h hstep
    refine .inr ⟨h.step hstep, ?_⟩
    cases hstep with
    | @step shared shared' threads thread' i hstep =>
        have hsteps : Steps program shared (threads i) shared' thread' := step_cases hstep
        exact total_update_lt Thread.rank hsteps.rank_lt

end SysProg.LockedCounters
