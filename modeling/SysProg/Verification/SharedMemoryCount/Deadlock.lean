import SysProg.Verification.CountShorts.Loops
import SysProg.Verification.SharedMemoryCount.Counters

/-! # How many processes can print at once

A process of the program for shorts keeps one unit of semaphore 0 while it prints, and needs
another one for the entries of that semaphore. There are ten units. -/

namespace SysProg.SharedMemoryCount

open Transmission CountShorts

variable {α : Type} [DecidableEq α] {program : Program α} {n : ℕ}

/-- Where a process can be blocked. -/
inductive Blocked (program : Program α) (value : Fin program.SEM_SIZE → ℤ) : Process α → Prop
  | counting (c : α) (todo : List α) (h : value (program.semNum c) < SEM_LIMIT) :
      Blocked program value (.counting (c :: todo))
  | beforeOutput (houtput : program.outputSemaphore = true) (h : value program.sem0 < 1) :
      Blocked program value .beforeOutput
  | output (i : α) (todo : List α) (printed : List (α × Long)) (h : value (program.semNum i) < 1) :
      Blocked program value (.output (i :: todo) printed)

omit [DecidableEq α] in
theorem step_map_semop {shared : Shared program} {num : Fin program.SEM_SIZE} {op : ℤ}
    {proc' : Process α} (h : 0 ≤ shared.value num + op) :
    ∃ t, ((semop shared.value num op).map fun value =>
      (({ shared with value := value } : Shared program), proc')) = some t := by
  rw [semop, if_pos h]
  exact ⟨_, rfl⟩

/-- Only a reservation blocks. -/
theorem blocked_of_stuck {shared : Shared program} {proc : Process α}
    (hnonneg : ∀ k, 0 ≤ shared.value k) (hexited : ¬ proc.Exited)
    (hstuck : ¬ ∃ t, Step program (shared, proc) t) : Blocked program shared.value proc := by
  have hpos : 0 ≤ SEM_LIMIT := by decide
  replace hstuck : ¬ ∃ t, next program shared proc = some t := hstuck
  cases proc with
  | counting todo =>
      cases todo with
      | nil => exact absurd ⟨_, rfl⟩ hstuck
      | cons c todo =>
          refine .counting c todo ?_
          by_contra hle
          exact hstuck (step_map_semop (by omega))
  | reserved c todo => exact absurd ⟨_, rfl⟩ hstuck
  | loaded c val todo => exact absurd ⟨_, rfl⟩ hstuck
  | stored c todo =>
      have hvalue := hnonneg (program.semNum c)
      exact absurd (step_map_semop (by omega)) hstuck
  | beforeOutput =>
      simp only [next] at hstuck
      split at hstuck
      · refine .beforeOutput ‹_› ?_
        by_contra hle
        exact hstuck (step_map_semop (by omega))
      · exact absurd ⟨_, rfl⟩ hstuck
  | output todo printed =>
      cases todo with
      | nil =>
          have hvalue := hnonneg program.sem0
          simp only [next] at hstuck
          split at hstuck
          · exact absurd (step_map_semop (by omega)) hstuck
          · exact absurd ⟨_, rfl⟩ hstuck
      | cons i todo =>
          refine .output i todo printed ?_
          by_contra hle
          exact hstuck (step_map_semop (by omega))
  | reading i todo printed => exact absurd ⟨_, rfl⟩ hstuck
  | read i val todo printed =>
      have hvalue := hnonneg (program.semNum i)
      exact absurd (step_map_semop (by omega)) hstuck
  | exited printed => exact absurd trivial hexited

theorem Blocked.not_step {shared : Shared program} {proc : Process α}
    (h : Blocked program shared.value proc) : ¬ ∃ t, Step program (shared, proc) t := by
  intro ⟨t, hstep⟩
  replace hstep : next program shared proc = some t := hstep
  cases h with
  | counting c todo h =>
      obtain ⟨value, hvalue, -⟩ := Option.map_eq_some_iff.mp hstep
      have hle := (semop_eq_some.mp hvalue).1
      omega
  | beforeOutput houtput h =>
      simp only [next, houtput, if_true] at hstep
      obtain ⟨value, hvalue, -⟩ := Option.map_eq_some_iff.mp hstep
      have hle := (semop_eq_some.mp hvalue).1
      omega
  | output i todo printed h =>
      obtain ⟨value, hvalue, -⟩ := Option.map_eq_some_iff.mp hstep
      have hle := (semop_eq_some.mp hvalue).1
      omega

omit [DecidableEq α] in
theorem Blocked.not_exited {value : Fin program.SEM_SIZE → ℤ} {proc : Process α}
    (h : Blocked program value proc) : ¬ proc.Exited := by
  cases h <;> exact id

omit [DecidableEq α] in
/-- A blocked process has at most the unit that it keeps. -/
theorem Blocked.units_le {value : Fin program.SEM_SIZE → ℤ} {proc : Process α}
    (h : Blocked program value proc) (k : Fin program.SEM_SIZE) : units program proc k ≤ 1 := by
  cases h with
  | counting c todo h => simp
  | beforeOutput houtput h => simp
  | output i todo printed h =>
      rw [units_output, kept]
      split
      · rw [Pi.single_apply]
        split <;> simp
      · simp

/-! ## Up to nine processes -/

/-- Nine processes leave a unit of every semaphore, so that not all of them are blocked. -/
theorem Invariant.not_deadlocked (hn : n ≤ 9) {counter : α → Long} {inputs : Fin n → List α}
    {state : Shared program × (Fin n → Process α)} (h : Invariant program counter inputs state) :
    ¬ Deadlocked (Step program) Process.Exited state := by
  intro ⟨⟨i, hi⟩, hall⟩
  have hblocked : ∀ j, ¬ (state.2 j).Exited → Blocked program state.1.value (state.2 j) :=
    fun j hj => blocked_of_stuck h.nonneg hj (hall j hj)
  have hle : ∀ j k, units program (state.2 j) k ≤ 1 := by
    intro j k
    by_cases hj : (state.2 j).Exited
    · cases hproc : state.2 j <;> rw [hproc] at hj <;> simp [Process.Exited] at hj
      simp
    · exact (hblocked j hj).units_le k
  have hvalue : ∀ k, 1 ≤ state.1.value k := by
    intro k
    have hsum := congrFun h.conserved k
    have htotal : total (units program) state.2 k ≤ n := by
      rw [total_apply, total]
      calc ∑ j, units program (state.2 j) k ≤ ∑ _j : Fin n, 1 :=
            Finset.sum_le_sum fun j _ => hle j k
        _ = n := by simp
    simp only [Pi.add_apply, SEM_LIMIT] at hsum
    omega
  -- so the processes that are blocked want to write, and none has any unit
  have hcounting : ∀ j, ¬ (state.2 j).Exited → ∃ c todo, state.2 j = .counting (c :: todo) ∧
      state.1.value (program.semNum c) < SEM_LIMIT := by
    intro j hj
    generalize hproc : state.2 j = proc at hj
    have hb := hblocked j (by rwa [hproc])
    rw [hproc] at hb
    cases hb with
    | counting c todo h => exact ⟨c, todo, rfl, h⟩
    | beforeOutput houtput h => exact absurd (hvalue program.sem0) (by omega)
    | output i todo printed h => exact absurd (hvalue (program.semNum i)) (by omega)
  have hzero : ∀ j, units program (state.2 j) = 0 := by
    intro j
    by_cases hj : (state.2 j).Exited
    · cases hproc : state.2 j <;> rw [hproc] at hj <;> simp [Process.Exited] at hj
      simp
    · obtain ⟨c, todo, hproc, -⟩ := hcounting j hj
      rw [hproc, units_counting]
  obtain ⟨c, todo, -, hlt⟩ := hcounting i hi
  have hsum := congrFun h.conserved (program.semNum c)
  simp only [total, hzero, Finset.sum_const_zero, add_zero] at hsum
  omega

/-! ## Ten processes -/

/-- A process alone counts its whole input. -/
theorem counts_alone (todo : List α) (counter : α → Long) :
    ∃ counter', Reaches (Step program)
      ((⟨fun _ => SEM_LIMIT, counter⟩ : Shared program), .counting todo)
      (⟨fun _ => SEM_LIMIT, counter'⟩, .beforeOutput) := by
  induction todo generalizing counter with
  | nil => exact ⟨counter, .single rfl⟩
  | cons c todo ih =>
      obtain ⟨counter', hrest⟩ := ih (Function.update counter c (counter c + 1))
      refine ⟨counter', ?_⟩
      let all : Fin program.SEM_SIZE → ℤ := fun _ => SEM_LIMIT
      let taken := Function.update all (program.semNum c) 0
      have hreserve : semop all (program.semNum c) (-SEM_LIMIT) = some taken :=
        semop_eq_some.mpr ⟨by simp [all], by simp [all, taken]⟩
      have hrelease : semop taken (program.semNum c) SEM_LIMIT = some all := by
        have htaken : taken (program.semNum c) = 0 := Function.update_self _ _ _
        refine semop_eq_some.mpr ⟨by rw [htaken]; decide, ?_⟩
        rw [htaken, zero_add, Function.update_idem]
        exact (Function.update_eq_self (program.semNum c) all).symm
      have h₁ : Step program (⟨all, counter⟩, .counting (c :: todo))
          (⟨taken, counter⟩, .reserved c todo) := by
        rw [Step, next, hreserve]
        rfl
      have h₂ : Step program (⟨taken, counter⟩, .reserved c todo)
          (⟨taken, counter⟩, .loaded c (counter c) todo) := rfl
      have h₃ : Step program (⟨taken, counter⟩, .loaded c (counter c) todo)
          (⟨taken, Function.update counter c (counter c + 1)⟩, .stored c todo) := rfl
      have h₄ : Step program (⟨taken, Function.update counter c (counter c + 1)⟩, .stored c todo)
          (⟨all, Function.update counter c (counter c + 1)⟩, .counting todo) := by
        rw [Step, next, hrelease]
        rfl
      exact .head h₁ (.head h₂ (.head h₃ (.head h₄ hrest)))

/-- All processes can come to the end of their input. -/
theorem counts_all (program : Program α) (counter : α → Long) (inputs : Fin n → List α) :
    ∃ shared : Shared program, (shared.value = fun _ => SEM_LIMIT) ∧
      Reaches (Interleaved (Step program)) (start program counter inputs)
        (shared, fun _ => .beforeOutput) := by
  let P : Finset (Fin n) → Shared program → Prop := fun _ shared =>
    shared.value = fun _ => SEM_LIMIT
  let procs : Fin n → Process α := fun j => .counting (inputs j)
  have halone : ∀ S, ∀ j ∈ Finset.univ, j ∉ S → S ⊆ Finset.univ → ∀ shared, P S shared →
      ∃ shared', P (insert j S) shared' ∧
        Reaches (Step program) (shared, procs j) (shared', .beforeOutput) := by
    rintro S j - - - ⟨value, counter⟩ rfl
    obtain ⟨counter', hrun⟩ := counts_alone (inputs j) counter
    exact ⟨_, rfl, hrun⟩
  obtain ⟨shared, hvalue, hrun⟩ := Interleaved.reaches_piecewise P procs (fun _ => .beforeOutput)
    halone (show P ∅ ⟨fun _ => SEM_LIMIT, counter⟩ from rfl)
  rw [Finset.piecewise_univ] at hrun
  exact ⟨shared, hvalue, hrun⟩

/-- Ten processes that have counted their input can take all units of semaphore 0. Then they
wait for each other, and the other processes wait for them. -/
theorem deadlock_reached (houtput : program.outputSemaphore = true) {i : α} {entries : List α}
    (hentries : program.entries = i :: entries) (hi : program.semNum i = program.sem0)
    (hn : 10 ≤ n) (counter : α → Long) (inputs : Fin n → List α) :
    ∃ state, Reaches (Interleaved (Step program)) (start program counter inputs) state ∧
      Deadlocked (Step program) Process.Exited state := by
  obtain ⟨shared, hshared, hcounted⟩ := counts_all program counter inputs
  have hcard : 10 ≤ (Finset.univ : Finset (Fin n)).card := by simpa using hn
  obtain ⟨T, -, hT⟩ := Finset.exists_subset_card_eq hcard
  let P : Finset (Fin n) → Shared program → Prop := fun S shared =>
    shared.value program.sem0 = SEM_LIMIT - S.card
  have halone : ∀ S, ∀ j ∈ T, j ∉ S → S ⊆ T → ∀ shared, P S shared →
      ∃ shared', P (insert j S) shared' ∧
        Reaches (Step program) (shared, .beforeOutput) (shared', .output program.entries []) := by
    intro S j hj hjS hST shared hshared
    have hlt : S.card < T.card :=
      Finset.card_lt_card ⟨hST, fun hTS => hjS (hTS hj)⟩
    have hvalue : shared.value program.sem0 = SEM_LIMIT - S.card := hshared
    have hsemop : semop shared.value program.sem0 (-1) = some
        (Function.update shared.value program.sem0 (shared.value program.sem0 + -1)) := by
      refine semop_eq_some.mpr ⟨?_, rfl⟩
      rw [hvalue, SEM_LIMIT]
      omega
    refine ⟨⟨Function.update shared.value program.sem0 (shared.value program.sem0 + -1),
      shared.counter⟩, ?_, .single ?_⟩
    · simp only [P, Function.update_self, hvalue, Finset.card_insert_of_notMem hjS]
      push_cast
      ring
    · rw [Step, next, if_pos houtput, hsemop]
      rfl
  have hstart : P ∅ shared := by
    simp [P, hshared]
  obtain ⟨shared', hvalue, hrun⟩ := Interleaved.reaches_piecewise P (fun _ => Process.beforeOutput)
    (fun _ => Process.output program.entries []) halone hstart
  have hzero : shared'.value program.sem0 < 1 := by
    have hvalue' : shared'.value program.sem0 = SEM_LIMIT - T.card := hvalue
    rw [hvalue', hT]
    decide
  have hblocked : ∀ j, Blocked program shared'.value
      (T.piecewise (fun _ => Process.output program.entries [])
        (fun _ => Process.beforeOutput) j) := by
    intro j
    by_cases hj : j ∈ T
    · rw [Finset.piecewise_eq_of_mem _ _ _ hj, hentries]
      exact .output i entries [] (by rwa [hi])
    · rw [Finset.piecewise_eq_of_notMem _ _ _ hj]
      exact .beforeOutput houtput hzero
  refine ⟨_, hcounted.trans hrun, ⟨⟨0, by omega⟩, ?_⟩, fun j _ => (hblocked j).not_step⟩
  exact (hblocked ⟨0, by omega⟩).not_exited

theorem entries_sharedMemoryCountShorts :
    ∃ entries, sharedMemoryCountShorts.entries = UInt16.ofNat 0 :: entries := by
  refine ⟨((List.range 65535).map Nat.succ).map UInt16.ofNat, ?_⟩
  have hrange : List.range 65536 = 0 :: (List.range 65535).map Nat.succ :=
    List.range_succ_eq_map
  rw [sharedMemoryCountShorts, hrange, List.map_cons]

/-- The processes for shorts cannot all be blocked, on any inputs, if and only if there are at
most nine of them. -/
theorem sharedMemoryCountShorts_deadlock_free_iff (counter : UInt16 → Long) (streams : Fin n → Bytes) :
    Always (Interleaved (Step sharedMemoryCountShorts))
      (fun state => ¬ Deadlocked (Step sharedMemoryCountShorts) Process.Exited state)
      (start sharedMemoryCountShorts counter fun i => shortsOf (streams i)) ↔ n ≤ 9 := by
  constructor
  · intro hfree
    by_contra hn
    obtain ⟨entries, hentries⟩ := entries_sharedMemoryCountShorts
    obtain ⟨state, hrun, hdeadlock⟩ := deadlock_reached rfl hentries rfl (by omega) counter
      fun i => shortsOf (streams i)
    exact hfree state hrun hdeadlock
  · intro hn
    exact always_invariant sharedMemoryCountShorts counter _ fun _ h => h.not_deadlocked hn

/-- Ten processes with empty inputs. -/
theorem tenProcesses_deadlock : ∃ state,
    Reaches (Interleaved (Step sharedMemoryCountShorts))
      (start sharedMemoryCountShorts (fun _ => 0) fun _ : Fin 10 => shortsOf []) state ∧
    Deadlocked (Step sharedMemoryCountShorts) Process.Exited state := by
  obtain ⟨entries, hentries⟩ := entries_sharedMemoryCountShorts
  exact deadlock_reached rfl hentries rfl le_rfl _ _

end SysProg.SharedMemoryCount
