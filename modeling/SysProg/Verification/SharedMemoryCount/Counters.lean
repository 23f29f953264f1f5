import SysProg.Verification.SharedMemoryCount.Steps

/-! # No increment is lost

The units of a semaphore are conserved, so a process that writes excludes all others from its
counters; what it has loaded is then still the counter when it stores. -/

namespace SysProg.SharedMemoryCount

open Transmission

variable {α : Type} [DecidableEq α] {program : Program α} {n : ℕ}

/-- What holds in every state of every run from `start`. -/
structure Invariant (program : Program α) (counter : α → Long) (inputs : Fin n → List α)
    (state : Shared program × (Fin n → Process α)) : Prop where
  conserved : state.1.value + total (units program) state.2 = fun _ => SEM_LIMIT
  nonneg : ∀ k, 0 ≤ state.1.value k
  current : ∀ i c val todo, state.2 i = .loaded c val todo → state.1.counter c = val
  counted : ∀ c, state.1.counter c + total (fun proc => (proc.pending.count c : Long)) state.2 =
    counter c + ∑ i, ((inputs i).count c : Long)
  suffix : ∀ i, (state.2 i).pending <:+ inputs i

theorem invariant_start (counter : α → Long) (inputs : Fin n → List α) :
    Invariant program counter inputs (start program counter inputs) := by
  refine ⟨?_, ?_, ?_, ?_, ?_⟩
  · funext k
    simp [start, total]
  · intro k
    simp [start, SEM_LIMIT]
  · intro i c val todo h
    simp [start] at h
  · intro c
    rfl
  · intro i
    exact List.suffix_rfl

/-- Two processes do not have more units together than there are. -/
theorem Invariant.units_le {counter : α → Long} {inputs : Fin n → List α}
    {state : Shared program × (Fin n → Process α)} (h : Invariant program counter inputs state)
    {i j : Fin n} (hij : i ≠ j) (k : Fin program.SEM_SIZE) :
    units program (state.2 i) k + units program (state.2 j) k ≤ SEM_LIMIT := by
  have hsum := congrFun h.conserved k
  have hle : units program (state.2 i) k + units program (state.2 j) k ≤
      total (fun proc => units program proc k) state.2 :=
    held_add_le_total (fun proc => units_nonneg proc k) state.2 hij
  have hvalue := h.nonneg k
  rw [Pi.add_apply, total_apply] at hsum
  omega

omit [DecidableEq α] in
theorem Process.Writes.le_units {proc : Process α} {k : Fin program.SEM_SIZE}
    (h : proc.Writes program k) : SEM_LIMIT ≤ units program proc k := by
  unfold units
  rw [if_pos h]
  split <;> split <;> omega

omit [DecidableEq α] in
theorem Process.Reads.pos_units {proc : Process α} {k : Fin program.SEM_SIZE}
    (h : proc.Reads program k) : 0 < units program proc k := by
  unfold units SEM_LIMIT
  rw [if_pos h]
  split <;> split <;> omega

/-- A process that writes excludes the others from its residue class. -/
theorem Invariant.exclusive {counter : α → Long} {inputs : Fin n → List α}
    {state : Shared program × (Fin n → Process α)} (h : Invariant program counter inputs state)
    {i j : Fin n} (hij : i ≠ j) {k : Fin program.SEM_SIZE}
    (hwrites : (state.2 i).Writes program k) :
    ¬ (state.2 j).Writes program k ∧ ¬ (state.2 j).Reads program k := by
  have hle := h.units_le hij k
  have hi := hwrites.le_units
  constructor
  · intro hj
    have hlimit := hj.le_units
    have hpos : 0 < SEM_LIMIT := by decide
    omega
  · intro hj
    have hpos := hj.pos_units
    omega

theorem Invariant.step {counter : α → Long} {inputs : Fin n → List α}
    {state state' : Shared program × (Fin n → Process α)}
    (h : Invariant program counter inputs state)
    (hstep : Interleaved (Step program) state state') :
    Invariant program counter inputs state' := by
  cases hstep with
  | @step shared shared' procs proc' i hstep =>
      have hspec : StepSpec program shared shared' (procs i) proc' := step_spec hstep
      refine ⟨?_, hspec.nonneg h.nonneg, ?_, ?_, ?_⟩
      · exact (conserved_step Shared.value (units program) hspec.units_eq).trans h.conserved
      · intro j c val todo hj
        dsimp only at hj ⊢
        rcases hspec.counter with ⟨hcounter, -, hloaded⟩ | ⟨c', val', todo', hi, hi', hcounter⟩
        · by_cases hji : j = i
          · subst hji
            rw [Function.update_self] at hj
            exact hloaded c val todo hj
          · rw [Function.update_of_ne hji] at hj
            rw [hcounter]
            exact h.current j c val todo hj
        · by_cases hji : j = i
          · subst hji
            rw [Function.update_self, hi'] at hj
            cases hj
          · rw [Function.update_of_ne hji] at hj
            -- process `i` stores, so `j` can only have loaded another counter
            have hne : c ≠ c' := by
              rintro rfl
              have hwrites : (procs i).Writes program (program.semNum c) := by
                rw [hi]
                rfl
              have hwrites' : (procs j).Writes program (program.semNum c) := by
                rw [hj]
                rfl
              exact (h.exclusive (Ne.symm hji) hwrites).1 hwrites'
            rw [hcounter, Function.update_of_ne hne]
            exact h.current j c val todo hj
      · intro c
        rw [← h.counted c]
        apply conserved_step fun shared : Shared program => shared.counter c
        rcases hspec.counter with ⟨hcounter, hpending, -⟩ | ⟨c', val', todo', hi, hi', hcounter⟩
        · rw [hcounter, hpending]
        · have hval : shared.counter c' = val' := h.current i c' val' todo' hi
          rw [hi, hi', hcounter, ← hval]
          simp only [Process.pending, List.count_cons]
          by_cases hc : c = c'
          · subst hc
            simp
            ring
          · simp [hc, Ne.symm hc]
      · intro j
        dsimp only
        by_cases hji : j = i
        · subst hji
          rw [Function.update_self]
          rcases hspec.counter with ⟨-, hpending, -⟩ | ⟨c', val', todo', hi, hi', -⟩
          · rw [hpending]
            exact h.suffix j
          · have hsuffix : (procs j).pending <:+ inputs j := h.suffix j
            rw [hi] at hsuffix
            rw [hi']
            exact (List.suffix_cons c' todo').trans hsuffix
        · rw [Function.update_of_ne hji]
          exact h.suffix j

theorem always_invariant (program : Program α) (counter : α → Long) (inputs : Fin n → List α)
    {P : Shared program × (Fin n → Process α) → Prop}
    (hP : ∀ state, Invariant program counter inputs state → P state) :
    Always (Interleaved (Step program)) P (start program counter inputs) :=
  .of_invariant (invariant_start counter inputs) (fun _ _ => Invariant.step) hP

/-- The processes that have reserved semaphore `k` for writing. -/
def writers (program : Program α) (procs : Fin n → Process α) (k : Fin program.SEM_SIZE) : Finset (Fin n) :=
  {i | (procs i).Writes program k}

/-- The processes that have reserved semaphore `k` for reading. -/
def readers (program : Program α) (procs : Fin n → Process α) (k : Fin program.SEM_SIZE) : Finset (Fin n) :=
  {i | (procs i).Reads program k}

/-- What the semaphores are for. -/
structure Safe (program : Program α) (counter : α → Long) (inputs : Fin n → List α)
    (state : Shared program × (Fin n → Process α)) : Prop where
  conserved : ∀ k, state.1.value k + SEM_LIMIT * (writers program state.2 k).card +
    (readers program state.2 k).card = SEM_LIMIT
  exclusive : ∀ k, ∀ i ∈ writers program state.2 k, writers program state.2 k = {i} ∧ readers program state.2 k = ∅
  /-- Each process has increments behind it for the part of its input that is not pending, and
  all of these are in the counters. -/
  noneLost : ∃ done : Fin n → List α, (∀ i, done i ++ (state.2 i).pending = inputs i) ∧
    ∀ c, Raised (counter c) (state.1.counter c) (∑ i, (done i).count c)
  final : (∀ i, (state.2 i).Exited) →
    ∀ c, Raised (counter c) (state.1.counter c) (∑ i, (inputs i).count c)

omit [DecidableEq α] in
theorem total_units (houtput : program.outputSemaphore = false) (procs : Fin n → Process α)
    (k : Fin program.SEM_SIZE) : total (units program) procs k =
      SEM_LIMIT * (writers program procs k).card + (readers program procs k).card := by
  have hkeeps : ∀ proc : Process α, ¬ proc.Keeps program k := by
    intro proc
    cases proc <;> simp [Process.Keeps, houtput]
  rw [total_apply, total]
  simp only [units, if_neg (hkeeps _), add_zero, Finset.sum_add_distrib]
  rw [Finset.sum_ite, Finset.sum_boole]
  simp [writers, readers, mul_comm]

theorem Invariant.safe (houtput : program.outputSemaphore = false) {counter : α → Long}
    {inputs : Fin n → List α} {state : Shared program × (Fin n → Process α)}
    (h : Invariant program counter inputs state) : Safe program counter inputs state := by
  choose done hdone using h.suffix
  have hlost : ∀ c, Raised (counter c) (state.1.counter c) (∑ i, (done i).count c) := by
    intro c
    have hcounted := h.counted c
    have hinputs : ∀ i, ((inputs i).count c : Long) =
        (done i).count c + (state.2 i).pending.count c := by
      intro i
      rw [← hdone i, List.count_append, Nat.cast_add]
    simp only [hinputs, Finset.sum_add_distrib] at hcounted
    rw [total, ← add_assoc] at hcounted
    rw [add_right_cancel hcounted, ← Nat.cast_sum]
    exact raised_add _ _
  refine ⟨?_, ?_, ⟨done, hdone, hlost⟩, ?_⟩
  · intro k
    rw [add_assoc, ← total_units houtput]
    exact congrFun h.conserved k
  · intro k i hi
    have hwrites : (state.2 i).Writes program k := by simpa [writers] using hi
    constructor
    · apply Finset.eq_singleton_iff_unique_mem.mpr
      refine ⟨hi, ?_⟩
      intro j hj
      by_contra hji
      exact (h.exclusive (Ne.symm hji) hwrites).1 (by simpa [writers] using hj)
    · apply Finset.eq_empty_of_forall_notMem
      intro j hj
      have hreads : (state.2 j).Reads program k := by simpa [readers] using hj
      by_cases hji : j = i
      · subst hji
        cases hproc : state.2 j <;> rw [hproc] at hwrites hreads <;>
          simp [Process.Writes, Process.Reads] at hwrites hreads
      · exact (h.exclusive (Ne.symm hji) hwrites).2 hreads
  · intro hexited c
    have hall : ∀ i, done i = inputs i := by
      intro i
      have hpending : (state.2 i).pending = [] := by
        have hi := hexited i
        cases hproc : state.2 i <;> rw [hproc] at hi <;> simp [Process.Exited] at hi
        rfl
      rw [← hdone i, hpending, List.append_nil]
    simpa only [hall] using hlost c

/-- In every state that processes of `shared-memory-count.c` reach, the units of each semaphore
are where they belong, a writer is alone, and no increment is lost. -/
theorem sharedMemoryCount_safe (counter : UInt8 → Long) (inputs : Fin n → Bytes) :
    Always (Interleaved (Step sharedMemoryCount)) (Safe sharedMemoryCount counter inputs)
      (start sharedMemoryCount counter inputs) :=
  always_invariant sharedMemoryCount counter inputs fun _ h => h.safe rfl

end SysProg.SharedMemoryCount
