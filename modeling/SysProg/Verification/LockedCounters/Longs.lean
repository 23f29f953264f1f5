import SysProg.Verification.LockedCounters.Descriptors

/-! # The counters of the programs

A counter of the programs is a `long`. A run with these is a run with integers, of which the
machine shows the last 64 bits. -/

namespace SysProg.LockedCounters

open Transmission

/-! ## Runs with other counters -/

section Map

variable {program : Program} {κ κ' ν : Type} {n : ℕ}

def Line.map (f : κ → κ') : Line κ ν → Line κ' ν
  | .header name => .header name
  | .entry i val => .entry i (f val)
  | .footer => .footer
  | .unreadable name => .unreadable name
  | .started => .started
  | .error name => .error name

def Thread.map (f : κ → κ') : Thread κ ν → Thread κ' ν
  | .opening name file => .opening name file
  | .counting name todo ending => .counting name todo ending
  | .locked name c todo ending => .locked name c todo ending
  | .loaded name c val todo ending => .loaded name c (f val) todo ending
  | .stored name c todo ending => .stored name c todo ending
  | .waiting report => .waiting report
  | .printing report => .printing report
  | .output name todo => .output name todo
  | .reading name i todo => .reading name i todo
  | .read name i val todo => .read name i (f val) todo
  | .unlocked name i val todo => .unlocked name i (f val) todo
  | .releasing => .releasing
  | .finished => .finished
  | .failed => .failed

def Shared.map (f : κ → κ') (shared : Shared program κ ν) : Shared program κ' ν where
  locks := shared.locks
  output := shared.output
  counter := fun c => f (shared.counter c)
  descriptors := shared.descriptors
  terminal := shared.terminal.map (Line.map f)

def State.map (f : κ → κ') (state : State program κ n) : State program κ' n :=
  (state.1.map f, fun i => (state.2 i).map f)

@[simp] theorem map_print (f : κ → κ') (shared : Shared program κ ν) (line : Line κ ν) :
    (shared.print line).map f = (shared.map f).print (line.map f) := by
  simp [Shared.map, Shared.print]

theorem atEnd_map (f : κ → κ') (shared : Shared program κ ν) (name : ν) (ending : Ending) :
    atEnd program (shared.map f) name ending =
      ((atEnd program shared name ending).1.map f, (atEnd program shared name ending).2.map f) := by
  cases ending with
  | notOpened | error => simp [atEnd, Line.map, Thread.map]
  | eof => rfl
  | badDescriptor =>
      unfold atEnd
      cases program.onBadDescriptor with
      | exits | reports => rfl
      | fails => simp [Line.map, Thread.map]

variable [Add κ] [One κ] [Add κ'] [One κ'] {f : κ → κ'}

theorem next_map (hf : ∀ x, f (x + 1) = f x + 1) (shared : Shared program κ ν)
    (thread : Thread κ ν) : next program (shared.map f) (thread.map f) =
      (next program shared thread).map fun t => (t.1.map f, t.2.map f) := by
  cases thread with
  | opening name file =>
      change (if shared.descriptors = 0 then none else _) = Option.map _ (if _ then none else _)
      split <;> rfl
  | counting name todo ending =>
      cases todo with
      | nil => exact congrArg some (atEnd_map f shared name ending)
      | cons c todo =>
          simp only [Thread.map, next, Option.map_map]
          rfl
  | loaded name c val todo ending =>
      have hcounter : (fun c' => f (Function.update shared.counter c (val + 1) c')) =
          Function.update (fun c' => f (shared.counter c')) c (f val + 1) := by
        rw [← hf]
        exact Function.comp_update f shared.counter c (val + 1)
      simp only [Thread.map, next, Shared.map, Option.map_some, hcounter]
  | output name todo =>
      cases todo with
      | nil => simp [Thread.map, next, Line.map]
      | cons i todo =>
          simp only [Thread.map, next, Option.map_map]
          rfl
  | stored | waiting | read | releasing =>
      simp only [Thread.map, next, Option.map_map]
      rfl
  | printing report => cases report <;> simp [Thread.map, next, Line.map]
  | unlocked => simp [Thread.map, next, Line.map]
  | locked | reading | finished | failed => rfl

omit [Add κ] [One κ] [Add κ'] [One κ'] in
theorem map_update (f : κ → κ') (threads : Option (Fin n) → Thread κ (Fin n))
    (i : Option (Fin n)) (thread' : Thread κ (Fin n)) :
    (fun j => (Function.update threads i thread' j).map f) =
      Function.update (fun j => (threads j).map f) i (thread'.map f) :=
  Function.comp_update (Thread.map f) threads i thread'

theorem step_map (hf : ∀ x, f (x + 1) = f x + 1) {state state' : State program κ n}
    (h : Interleaved (Step program) state state') :
    Interleaved (Step program) (State.map f state) (State.map f state') := by
  cases h with
  | @step shared shared' threads thread' i hstep =>
      have hmap : Step program (shared.map f, (threads i).map f)
          (shared'.map f, thread'.map f) := by
        rw [Step, next_map hf, show next program shared (threads i) = _ from hstep]
        rfl
      rw [State.map, State.map, map_update]
      exact .step i hmap

theorem step_of_map (hf : ∀ x, f (x + 1) = f x + 1) {state : State program κ n}
    {t : State program κ' n} (h : Interleaved (Step program) (State.map f state) t) :
    ∃ state', Interleaved (Step program) state state' ∧ State.map f state' = t := by
  generalize hs : State.map f state = s at h
  cases h with
  | @step shared shared' threads thread' i hstep =>
      obtain ⟨rfl, rfl⟩ := Prod.mk.inj hs
      rw [Step, next_map hf] at hstep
      obtain ⟨⟨next, thread⟩, hnext, hmap⟩ := Option.map_eq_some_iff.mp hstep
      obtain ⟨rfl, rfl⟩ := Prod.mk.inj hmap
      refine ⟨(next, Function.update state.2 i thread), .step i hnext, ?_⟩
      rw [State.map, map_update]

end Map

/-! ## What the machine shows -/

variable {program : Program} {n : ℕ} {counter : UInt8 → Long} {files : Fin n → File}

/-- What the machine has in the place of exact counts. -/
def toLong (exact : State program ℤ n) : State program Long n :=
  State.map (Int.cast : ℤ → Long) exact

theorem cast_succ (val : ℤ) : ((val + 1 : ℤ) : Long) = val + 1 := by
  rw [Int.cast_add, Int.cast_one]

/-- The numbers that the counters hold at the start. -/
def startOf (counter : UInt8 → Long) (c : UInt8) : ℤ :=
  (counter c).toInt

theorem toLong_start (program : Program) (descriptors : ℕ) (counter : UInt8 → Long)
    (files : Fin n → File) : toLong (start program descriptors (startOf counter) files) =
      start program descriptors counter files := by
  refine Prod.ext ?_ (funext ?_)
  · simp [toLong, State.map, Shared.map, start, startOf]
  · intro i
    cases i with
    | none =>
        simp only [toLong, State.map, start]
        split <;> rfl
    | some i =>
        simp only [toLong, State.map, start, first]
        split <;> rfl

/-- What always holds of the exact counts. -/
theorem always_toLong {P : State program ℤ n → Prop} {exact : State program ℤ n}
    (h : Always (Interleaved (Step program)) P exact) :
    Always (Interleaved (Step program)) (fun state => ∃ exact, toLong exact = state ∧ P exact)
      (toLong exact) := by
  refine .of_invariant (I := fun state => ∃ reached, toLong reached = state ∧
    Reaches (Interleaved (Step program)) exact reached) ⟨exact, rfl, .refl⟩ ?_ ?_
  · rintro _ state' ⟨reached, rfl, hrun⟩ hstep
    obtain ⟨reached', hreached, rfl⟩ := step_of_map cast_succ hstep
    exact ⟨reached', rfl, hrun.tail hreached⟩
  · rintro state ⟨reached, hreached, hrun⟩
    exact ⟨reached, hreached, h reached hrun⟩

theorem leads_toLong {Q : State program ℤ n → Prop} {exact : State program ℤ n}
    (h : Leads (Interleaved (Step program)) Q exact) :
    Leads (Interleaved (Step program)) (fun state => ∃ exact, Q exact ∧ toLong exact = state)
      (toLong exact) := by
  refine h.simulated (R := fun exact state => toLong exact = state) ?_ ?_ rfl
  · rintro exact _ rfl ⟨exact', hstep⟩
    exact ⟨toLong exact', step_map cast_succ hstep⟩
  · rintro exact _ state' rfl - hstep
    exact step_of_map cast_succ hstep

theorem leads_of_toLong {Q : State program Long n → Prop} {exact : State program ℤ n}
    (h : Leads (Interleaved (Step program)) Q (toLong exact)) :
    Leads (Interleaved (Step program)) (fun exact => ∃ state, Q state ∧ toLong exact = state)
      exact := by
  refine h.simulated (R := fun state exact => toLong exact = state) ?_ ?_ rfl
  · rintro _ exact rfl ⟨state', hstep⟩
    obtain ⟨exact', hexact, -⟩ := step_of_map cast_succ hstep
    exact ⟨exact', hexact⟩
  · rintro _ exact exact' rfl - hstep
    exact ⟨toLong exact', step_map cast_succ hstep, rfl⟩

theorem finished_toLong (exact : State program ℤ n) (i : Option (Fin n)) :
    ((toLong exact).2 i).Finished ↔ (exact.2 i).Finished := by
  change (Thread.map _ (exact.2 i)).Finished ↔ _
  cases exact.2 i <;> exact Iff.rfl

theorem printed_toLong (exact : State program ℤ n) :
    (toLong exact).1.printed = exact.1.printed.map (Line.map Int.cast) := by
  have herror : (fun line : Line Long (Fin n) => !line.isError) ∘ Line.map (Int.cast : ℤ → Long) =
      fun line => !line.isError := by
    funext line
    cases line <;> rfl
  rw [Shared.printed, Shared.printed, ← herror, ← List.filter_map]
  rfl

theorem errors_toLong (exact : State program ℤ n) :
    errors (toLong exact).1.terminal = errors exact.1.terminal := by
  have hfailure : Line.failure ∘ Line.map (Int.cast : ℤ → Long) =
      (Line.failure : Line ℤ (Fin n) → Option (Fin n)) := by
    funext line
    cases line <;> rfl
  rw [errors, errors, ← hfailure, ← List.filterMap_map]
  rfl

/-- A `long` can hold all that there is to count. -/
def Fits (counter : UInt8 → Long) (files : Fin n → File) (c : UInt8) : Prop :=
  startOf counter c + occurrences files c < 2 ^ 63

theorem Fits.toInt_eq {c : UInt8} (h : Fits counter files c) {val : ℤ}
    (hle : startOf counter c ≤ val) (hle' : val ≤ startOf counter c + occurrences files c) :
    (val : Long).toInt = val := by
  have hstart := BitVec.le_toInt (counter c)
  rw [Fits] at h
  rw [startOf] at *
  exact toInt_intCast (by omega) (by omega)

theorem countsOf_nonneg (files : Fin n → File) (names : List (Fin n)) (c : UInt8) : 0 ≤ countsOf files names c := by
  apply List.sum_nonneg
  intro count hcount
  obtain ⟨name, -, rfl⟩ := List.mem_map.mp hcount
  exact Int.natCast_nonneg _

/-- What is on the terminal at the end. -/
structure Output (program : Program) (counter : UInt8 → Long) (files : Fin n → File)
    (shared : Shared program Long (Fin n)) (blocks : List (Block (Fin n))) : Prop where
  /-- The reports are not mixed with each other; only messages of `handle_error` can stand between
  their lines. -/
  lines : shared.printed = (blocks.flatMap Block.lines).map (Line.map Int.cast)
  /-- There is one message for each file that fails. -/
  messages : errors shared.terminal = failing program files
  exact : ExactTables program (startOf counter) files blocks
  /-- The numbers that are printed are the exact ones if a `long` can hold the last of them. -/
  shown : ∀ c, Fits counter files c → ∀ table ∈ tables blocks, (table.2 c : Long).toInt = table.2 c

theorem Reported.toLong {descriptors : ℕ} {exact : State program ℤ n}
    (h : Reported program descriptors (startOf counter) files exact)
    (hfinished : ∀ i, (exact.2 i).Finished) :
    ∃ blocks, Output program counter files (toLong exact).1 blocks := by
  obtain ⟨blocks, hlines, herrors, htables⟩ := h.output hfinished
  refine ⟨blocks, ?_, ?_, htables, ?_⟩
  · rw [printed_toLong, hlines]
  · rw [errors_toLong, herrors]
  · intro c hfits table htable
    refine hfits.toInt_eq ?_ (htables.atMost table htable c)
    obtain ⟨earlier, later, hsplit⟩ := List.append_of_mem htable
    have hcounts := htables.counts earlier table later hsplit c
    have hnonneg := countsOf_nonneg files ((earlier ++ [table]).map Prod.fst) c
    omega

/-- When all threads have ended, the tables are on the terminal. -/
theorem always_output (program : Program) (descriptors : ℕ) (counter : UInt8 → Long)
    (files : Fin n → File) :
    Always (Interleaved (Step program))
      (fun state => (∀ i, (state.2 i).Finished) →
        ∃ blocks, Output program counter files state.1 blocks)
      (start program descriptors counter files) := by
  have halways : Always (Interleaved (Step program))
      (Reported program descriptors (startOf counter) files)
      (start program descriptors (startOf counter) files) :=
    .of_invariant (reported_start program descriptors (startOf counter) files)
      (fun _ _ => Reported.step) fun _ h => h
  intro state hrun hfinished
  rw [← toLong_start] at hrun
  obtain ⟨exact, rfl, hreported⟩ := always_toLong halways state hrun
  exact hreported.toLong fun i => (finished_toLong exact i).mp (hfinished i)

/-- Every run comes to the end of all threads if the descriptors do not run out. -/
theorem threads_end (program : Program) (descriptors : ℕ) (counter : UInt8 → Long)
    (files : Fin n → File) (henough : program.opens = true →
      (leaky program files).card < descriptors ∨ n ≤ descriptors) :
    Leads (Interleaved (Step program))
      (fun state => (∀ i, (state.2 i).Finished) ∧
        ∃ blocks, Output program counter files state.1 blocks)
      (start program descriptors counter files) := by
  rw [← toLong_start]
  refine (leads_toLong (leads_finished program descriptors (startOf counter) files henough)).mono ?_
  rintro _ ⟨exact, ⟨hfinished, hreported⟩, rfl⟩
  exact ⟨fun i => (finished_toLong exact i).mpr (hfinished i), hreported.toLong hfinished⟩

theorem ThreadMemoryCount.opens (variant : ThreadMemoryCount) :
    variant.toProgram.opens = true := by
  cases variant <;> rfl

/-- When the threads of `thread-memory-count-mutex.c`, `thread-memory-count-readwrite.c` or
`thread-memory-count-posix-semaphore.c` have ended, the tables are on the terminal. In all orders
of the steps they do end if and only if the threads that fail leave a descriptor for the others, or
there is one for each thread. -/
theorem threads_print_tables (variant : ThreadMemoryCount) (descriptors : ℕ)
    (files : Fin n → File) :
    Always (Interleaved (Step variant.toProgram))
      (fun state => (∀ i, (state.2 i).Finished) →
        ∃ blocks, Output variant.toProgram (fun _ => 0) files state.1 blocks)
      (start variant.toProgram descriptors (fun _ => (0 : Long)) files) ∧
    (Leads (Interleaved (Step variant.toProgram)) (fun state => ∀ i, (state.2 i).Finished)
        (start variant.toProgram descriptors (fun _ => (0 : Long)) files) ↔
      (leaky variant.toProgram files).card < descriptors ∨ n ≤ descriptors) := by
  refine ⟨always_output variant.toProgram descriptors _ files, ?_, ?_⟩
  · intro hleads
    by_contra hfew
    push Not at hfew
    rw [← toLong_start] at hleads
    refine not_leads variant.opens _ hfew.1 hfew.2 ?_ (leads_of_toLong hleads)
    rintro exact ⟨_, hfinished, rfl⟩ i
    exact (finished_toLong exact i).mp (hfinished i)
  · intro henough
    exact (threads_end variant.toProgram descriptors _ files fun _ => henough).mono fun _ h => h.1

/-- The processes of `shared-memory-count-output-semaphore.c` always end, whatever the shared memory
holds when they start, and leave such tables. -/
theorem processes_print_tables (descriptors : ℕ) (counter : UInt8 → Long) (files : Fin n → File) :
    Leads (Interleaved (Step sharedMemoryCountOutputSemaphore))
      (fun state => (∀ i, (state.2 i).Finished) ∧
        ∃ blocks, Output sharedMemoryCountOutputSemaphore counter files state.1 blocks)
      (start sharedMemoryCountOutputSemaphore descriptors counter files) :=
  threads_end sharedMemoryCountOutputSemaphore descriptors counter files fun hopens => by cases hopens

/-! ## Safety -/

/-- In every state that threads with these locks reach, a thread that increments a counter is
alone with it, nothing that has been counted is lost, and the reports are not mixed; the machine
shows the exact counts modulo `2 ^ 64`, and exactly where they fit. -/
theorem counting_always_safe (program : Program) (descriptors : ℕ) (counter : UInt8 → Long)
    (files : Fin n → File) :
    Always (Interleaved (Step program))
      (fun state => ∃ exact, toLong exact = state ∧ Safe (startOf counter) files exact ∧
        ∀ c, Fits counter files c → (state.1.counter c).toInt = exact.1.counter c)
      (start program descriptors counter files) := by
  have halways : Always (Interleaved (Step program)) (Tabled program (startOf counter) files)
      (start program descriptors (startOf counter) files) :=
    .of_invariant (tabled_start program descriptors (startOf counter) files)
      (fun _ _ => Tabled.step) fun _ h => h
  intro state hrun
  rw [← toLong_start] at hrun
  obtain ⟨exact, rfl, htabled⟩ := always_toLong halways state hrun
  refine ⟨exact, rfl, htabled.safe, ?_⟩
  intro c hfits
  refine hfits.toInt_eq ?_ (htabled.counted.counter_le c)
  have hcounts := htabled.countsOf_le c
  have hnonneg := countsOf_nonneg files (headers exact.1.printed) c
  omega

end SysProg.LockedCounters
