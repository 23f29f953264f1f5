import SysProg.Verification.LockedCounters.Steps

/-! # No increment is lost

A thread that has locked a counter for writing is alone with it, so that what it has loaded is
still the counter when it stores. -/

namespace SysProg.LockedCounters

open Transmission
open CountByFile (indices)

variable {program : Program} {n descriptors : ℕ} {counter : UInt8 → ℤ} {files : Fin n → File}

/-- What the threads still have to add to a counter. -/
def toAdd {ν : Type} (c : UInt8) (thread : Thread ℤ ν) : ℤ :=
  thread.pending.count c

/-- The number of a byte in all files. -/
def occurrences (files : Fin n → File) (c : UInt8) : ℤ :=
  ∑ i, ((files i).bytes.count c : ℤ)

/-- The locks know their holders, and no increment is lost. -/
structure Counted (program : Program) (counter : UInt8 → ℤ) (files : Fin n → File)
    (state : State program ℤ n) : Prop where
  locks : ∀ k, program.lock.Held (total (held program k) state.2) (state.1.locks k)
  output : program.outputLock.Held (total heldOutput state.2) state.1.output
  current : ∀ i name c val todo ending, state.2 i = .loaded name c val todo ending →
    state.1.counter c = val
  counted : ∀ c, state.1.counter c + total (toAdd c) state.2 = counter c + occurrences files c

/-- A property of the threads with which the program begins. -/
theorem forall_start (program : Program) (descriptors : ℕ) (counter : UInt8 → ℤ)
    (files : Fin n → File) {P : Option (Fin n) → Thread ℤ (Fin n) → Prop} (hmain : P none .finished)
    (hannounces : P none (.waiting .started))
    (hopening : ∀ i, P (some i) (.opening i (files i)))
    (hcounting : ∀ i, P (some i) (.counting i (files i).bytes (files i).ending))
    (i : Option (Fin n)) : P i ((start program descriptors counter files).2 i) := by
  cases i with
  | none =>
      simp only [start]
      split
      · exact hannounces
      · exact hmain
  | some i =>
      simp only [start, first]
      split
      · exact hopening i
      · exact hcounting i

theorem counted_start (program : Program) (descriptors : ℕ) (counter : UInt8 → ℤ)
    (files : Fin n → File) :
    Counted program counter files (start program descriptors counter files) := by
  refine ⟨?_, ?_, ?_, ?_⟩
  · intro k
    have hheld := forall_start program descriptors counter files
      (P := fun _ thread => held program k thread = 0) rfl rfl (fun _ => rfl) (fun _ => rfl)
    rw [total, Finset.sum_eq_zero fun i _ => hheld i]
    exact program.lock.held_free
  · have hheld := forall_start program descriptors counter files
      (P := fun _ thread => heldOutput thread = 0) rfl rfl (fun _ => rfl) (fun _ => rfl)
    rw [total, Finset.sum_eq_zero fun i _ => hheld i]
    exact program.outputLock.held_free
  · intro i name c val todo ending
    exact forall_start program descriptors counter files
      (P := fun _ thread => thread = .loaded name c val todo ending → _) (fun h => by cases h)
      (fun h => by cases h) (fun _ h => by cases h) (fun _ h => by cases h) i
  · intro c
    have hmain : toAdd c ((start program descriptors counter files).2 none) = 0 := by
      simp only [start]
      split <;> rfl
    have hfiles : ∀ i, toAdd c ((start program descriptors counter files).2 (some i)) =
        ((files i).bytes.count c : ℤ) := by
      intro i
      simp only [start, first]
      split <;> rfl
    rw [total, Fintype.sum_option, hmain, zero_add, Finset.sum_congr rfl fun i _ => hfiles i]
    rfl

theorem Counted.step {state state' : State program ℤ n} (h : Counted program counter files state)
    (hstep : Interleaved (Step program) state state') : Counted program counter files state' := by
  cases hstep with
  | @step shared shared' procs thread' i hstep =>
      have hsteps : Steps program shared (procs i) shared' thread' := step_cases hstep
      have hlocks := hsteps.lockSpec
      refine ⟨?_, ?_, ?_, ?_⟩
      · intro k
        exact (hlocks.locks k).held_total (h.locks k)
      · exact hlocks.output.held_total h.output
      · intro j name c val todo ending hj
        dsimp only at hj ⊢
        rcases hsteps.counterSpec.counter with
          ⟨hcounter, -, hloaded⟩ | ⟨name', c', val', todo', ending', hi, hi', hcounter⟩
        · rw [hcounter]
          by_cases hji : j = i
          · subst hji
            rw [Function.update_self] at hj
            exact hloaded name c val todo ending hj
          · rw [Function.update_of_ne hji] at hj
            exact h.current j name c val todo ending hj
        · by_cases hji : j = i
          · subst hji
            rw [Function.update_self, hi'] at hj
            cases hj
          · rw [Function.update_of_ne hji] at hj
            -- thread `i` stores, so `j` can only have loaded another counter
            have hne : c ≠ c' := by
              rintro rfl
              have halone := (h.locks (program.lockNum c)).alone (Ne.symm hji)
                (by simp only [hi, held, if_pos]; exact le_rfl)
              simp [hj, held] at halone
            rw [hcounter, Function.update_of_ne hne]
            exact h.current j name c val todo ending hj
      · intro c
        rw [← h.counted c]
        apply conserved_step fun shared : Shared program ℤ (Fin n) => shared.counter c
        rcases hsteps.counterSpec.counter with
          ⟨hcounter, hpending, -⟩ | ⟨name', c', val', todo', ending', hi, hi', hcounter⟩
        · rw [hcounter, toAdd, toAdd, hpending]
        · have hval : shared.counter c' = val' := h.current i name' c' val' todo' ending' hi
          rw [hi, hi', hcounter, ← hval]
          simp only [toAdd, Thread.pending, List.count_cons]
          by_cases hc : c = c'
          · subst hc
            simp
            ring
          · simp [hc, Ne.symm hc]

theorem toAdd_nonneg {ν : Type} (c : UInt8) (thread : Thread ℤ ν) : 0 ≤ toAdd c thread :=
  Int.natCast_nonneg _

/-- A counter never exceeds what is in the files. -/
theorem Counted.counter_le {state : State program ℤ n} (h : Counted program counter files state)
    (c : UInt8) : state.1.counter c ≤ counter c + occurrences files c := by
  have hnonneg : 0 ≤ total (toAdd c) state.2 :=
    Finset.sum_nonneg fun i _ => toAdd_nonneg c (state.2 i)
  have hcounted := h.counted c
  omega

theorem Counted.counter_mono {state state' : State program ℤ n}
    (h : Counted program counter files state) (hstep : Interleaved (Step program) state state')
    (c : UInt8) : state.1.counter c ≤ state'.1.counter c := by
  cases hstep with
  | @step shared shared' procs thread' i hstep =>
      have hsteps : Steps program shared (procs i) shared' thread' := step_cases hstep
      rcases hsteps.counterSpec.counter with
        ⟨hcounter, -, -⟩ | ⟨name, c', val, todo, ending, hi, -, hcounter⟩
      · rw [hcounter]
      · have hval : shared.counter c' = val := h.current i name c' val todo ending hi
        dsimp only
        rw [hcounter]
        by_cases hc : c = c'
        · subst hc
          rw [Function.update_self, hval]
          omega
        · rw [Function.update_of_ne hc]

/-- One thread at most prints. -/
theorem Counted.printer_alone {state : State program ℤ n} (h : Counted program counter files state)
    {i j : Option (Fin n)} (hi : (state.2 i).Prints) (hj : (state.2 j).Prints) : i = j := by
  by_contra hij
  have halone := h.output.alone hij (by simp [heldOutput, hi])
  simp [heldOutput, hj] at halone

end SysProg.LockedCounters
