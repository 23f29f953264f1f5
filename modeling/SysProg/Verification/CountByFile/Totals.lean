import SysProg.Model.CountByFile

/-! # What the threads add to the common counters

The contents that the local arrays have at the beginning are counted with the files. -/

namespace SysProg.CountByFile

open Transmission

/-- Whether the thread has locked the mutex. -/
def Thread.holding : Thread → ℕ
  | .adding _ _ _ => 1
  | .loaded _ _ _ _ _ => 1
  | .added _ _ _ _ => 1
  | _ => 0

def Data.free (data : Data) : ℕ :=
  if data.locked then 0 else 1

/-- What the thread has still to add to the common counters. -/
def Thread.pending : Thread → UInt8 → Long
  | .counting todo scounter => fun c => scounter c + (todo.count c : Long)
  | .waiting scounter => scounter
  | .adding todo scounter _ => fun c => (todo.count c : Long) * scounter c
  | .loaded i _ todo scounter _ => fun c => ((i :: todo).count c : Long) * scounter c
  | .added _ todo scounter _ => fun c => (todo.count c : Long) * scounter c
  | .finished _ => 0

/-- The steps that a thread has still to make. -/
def Thread.rank : Thread → ℕ
  | .counting todo _ => todo.length + 3 * indices.length + 3
  | .waiting _ => 3 * indices.length + 2
  | .adding todo _ _ => 3 * todo.length + 1
  | .loaded _ _ todo _ _ => 3 * todo.length + 3
  | .added _ todo _ _ => 3 * todo.length + 2
  | .finished _ => 0

/-- What a thread has loaded is still the counter. -/
def Thread.Current (data : Data) : Thread → Prop
  | .loaded i x _ _ _ => data.counter i = x
  | _ => True

structure StepSpec (data data' : Data) (thread thread' : Thread) : Prop where
  lock : data'.free + thread'.holding = data.free + thread.holding
  pending : data'.counter + thread'.pending = data.counter + thread.pending
  current : thread'.Current data'
  writes : data'.counter ≠ data.counter → thread.holding = 1
  rank : thread'.rank < thread.rank

theorem count_indices (c : UInt8) : indices.count c = 1 := by
  apply List.count_eq_one_of_mem
  · apply List.Nodup.map_on _ List.nodup_range
    intro m hm n hn h
    rw [List.mem_range] at hm hn
    have h' := congrArg UInt8.toNat h
    rwa [UInt8.toNat_ofNat', UInt8.toNat_ofNat', Nat.mod_eq_of_lt hm, Nat.mod_eq_of_lt hn] at h'
  · exact List.mem_map.mpr ⟨c.toNat, List.mem_range.mpr c.toNat_lt, UInt8.ofNat_toNat⟩

theorem step_spec {data data' : Data} {thread thread' : Thread}
    (h : Step (data, thread) (data', thread')) (hcurrent : thread.Current data)
    (hlock : data.free + thread.holding ≤ 1) : StepSpec data data' thread thread' := by
  replace h : next data thread = some (data', thread') := h
  cases thread with
  | counting todo scounter =>
      cases todo with
      | nil =>
          cases h
          exact ⟨rfl, by simp [Thread.pending], trivial, fun hne => absurd rfl hne,
            by simp [Thread.rank]⟩
      | cons c todo =>
          cases h
          refine ⟨rfl, ?_, trivial, fun hne => absurd rfl hne, by simp [Thread.rank]⟩
          funext d
          by_cases hd : d = c
          · subst hd
            simp [Thread.pending, List.count_cons]
            ring
          · simp [Thread.pending, List.count_cons, hd, Ne.symm hd]
  | waiting scounter =>
      simp only [next] at h
      split at h
      · cases h
      · cases h
        refine ⟨by simp [Data.free, Thread.holding, *], ?_, trivial, fun hne => absurd rfl hne,
          by simp [Thread.rank]⟩
        funext c
        simp [Thread.pending, count_indices]
  | adding todo scounter printed =>
      cases todo with
      | nil =>
          cases h
          have hlocked : data.locked = true := by
            by_contra hopen
            simp [Data.free, Thread.holding, hopen] at hlock
          refine ⟨by simp [Data.free, Thread.holding, hlocked], ?_, trivial,
            fun hne => absurd rfl hne, by simp [Thread.rank]⟩
          funext c
          simp [Thread.pending]
      | cons i todo =>
          cases h
          exact ⟨rfl, rfl, rfl, fun _ => rfl, by simp [Thread.rank]; omega⟩
  | loaded i x todo scounter printed =>
      cases h
      refine ⟨rfl, ?_, trivial, fun _ => rfl, by simp [Thread.rank]⟩
      funext c
      have hx : data.counter i = x := hcurrent
      by_cases hc : c = i
      · subst hc
        simp only [Pi.add_apply, Thread.pending, Function.update_self, List.count_cons_self, hx]
        rw [Nat.cast_add, Nat.cast_one]
        ring
      · simp [Thread.pending, List.count_cons, hc, Ne.symm hc]
  | added i todo scounter printed =>
      cases h
      exact ⟨rfl, rfl, trivial, fun _ => rfl, by simp [Thread.rank]⟩
  | finished printed => cases h

variable {n : ℕ}

/-- What holds in every state of every run from `start`. -/
structure Invariant (files : Fin n → Bytes) (stack : Fin n → UInt8 → Long)
    (state : Data × (Fin n → Thread)) : Prop where
  lock : state.1.free + total Thread.holding state.2 = 1
  counted : state.1.counter + total Thread.pending state.2 =
    fun c => ∑ i, (stack i c + ((files i).count c : Long))
  current : ∀ i, (state.2 i).Current state.1

theorem invariant_start (files : Fin n → Bytes) (stack : Fin n → UInt8 → Long) :
    Invariant files stack (start files stack) := by
  refine ⟨?_, ?_, fun _ => trivial⟩
  · simp [start, Data.free, total, Thread.holding]
  · funext c
    simp [start, total, Thread.pending]

theorem Invariant.holding_le {files : Fin n → Bytes} {stack : Fin n → UInt8 → Long}
    {state : Data × (Fin n → Thread)} (h : Invariant files stack state) (i : Fin n) :
    state.1.free + (state.2 i).holding ≤ 1 := by
  have hle : (state.2 i).holding ≤ total Thread.holding state.2 :=
    held_le_total (fun _ => Nat.zero_le _) state.2 i
  have hlock := h.lock
  omega

theorem Invariant.alone {files : Fin n → Bytes} {stack : Fin n → UInt8 → Long}
    {state : Data × (Fin n → Thread)} (h : Invariant files stack state) {i j : Fin n}
    (hij : i ≠ j) (hi : (state.2 i).holding = 1) : (state.2 j).holding = 0 := by
  have hle : (state.2 i).holding + (state.2 j).holding ≤ total Thread.holding state.2 :=
    held_add_le_total (fun _ => Nat.zero_le _) state.2 hij
  have hlock := h.lock
  omega

theorem Invariant.step {files : Fin n → Bytes} {stack : Fin n → UInt8 → Long}
    {state state' : Data × (Fin n → Thread)} (h : Invariant files stack state)
    (hstep : Interleaved Step state state') :
    Invariant files stack state' ∧ total Thread.rank state'.2 < total Thread.rank state.2 := by
  cases hstep with
  | @step data data' threads thread' i hstep =>
      have hspec := step_spec hstep (h.current i) (h.holding_le i)
      refine ⟨⟨?_, ?_, ?_⟩, total_update_lt Thread.rank hspec.rank⟩
      · exact (conserved_step Data.free Thread.holding hspec.lock).trans h.lock
      · exact (conserved_step Data.counter Thread.pending hspec.pending).trans h.counted
      · intro j
        dsimp only
        by_cases hji : j = i
        · subst hji
          rw [Function.update_self]
          exact hspec.current
        · rw [Function.update_of_ne hji]
          -- either the counters are the same or thread `j` is outside of the output loop
          by_cases hsame : data'.counter = data.counter
          · have hj : (threads j).Current data := h.current j
            generalize threads j = thread at hj ⊢
            cases thread with
            | loaded k x todo scounter printed =>
                have hk : data.counter k = x := hj
                show data'.counter k = x
                rw [hsame]
                exact hk
            | _ => trivial
          · have hj : (threads j).holding = 0 := h.alone (Ne.symm hji) (hspec.writes hsame)
            generalize threads j = thread at hj ⊢
            cases thread with
            | loaded k x todo scounter printed => cases hj
            | _ => trivial

/-- A thread that cannot go on waits for the mutex. -/
theorem next_of_not_finished {data : Data} {thread : Thread} (h : ¬ thread.Finished) :
    (∃ t, Step (data, thread) t) ∨ data.locked = true ∧ thread.holding = 0 := by
  cases thread with
  | counting todo scounter => cases todo <;> exact .inl ⟨_, rfl⟩
  | waiting scounter =>
      by_cases hlocked : data.locked = true
      · exact .inr ⟨hlocked, rfl⟩
      · refine .inl ⟨({ data with locked := true }, .adding indices scounter []), ?_⟩
        simp [Step, next, hlocked]
  | adding todo scounter printed => cases todo <;> exact .inl ⟨_, rfl⟩
  | loaded i x todo scounter printed => exact .inl ⟨_, rfl⟩
  | added i todo scounter printed => exact .inl ⟨_, rfl⟩
  | finished printed => exact absurd trivial h

/-- As long as a thread has not finished, some thread can go on. -/
theorem Invariant.progress {files : Fin n → Bytes} {stack : Fin n → UInt8 → Long}
    {state : Data × (Fin n → Thread)} (h : Invariant files stack state) :
    (∀ i, (state.2 i).Finished) ∨ ∃ state', Interleaved Step state state' := by
  obtain ⟨data, threads⟩ := state
  by_contra hcontra
  push Not at hcontra
  obtain ⟨⟨i, hi⟩, hstuck⟩ := hcontra
  have hall : ∀ j, ¬ (threads j).Finished → data.locked = true ∧ (threads j).holding = 0 := by
    intro j hj
    refine (next_of_not_finished hj).resolve_left ?_
    intro ⟨⟨data', thread'⟩, hstep⟩
    exact hstuck _ (.step j hstep)
  have hzero : ∀ j, (threads j).holding = 0 := by
    intro j
    by_cases hj : (threads j).Finished
    · generalize threads j = thread at hj ⊢
      cases thread <;> first | rfl | exact absurd hj id
    · exact (hall j hj).2
  have hlock := h.lock
  simp [total, hzero, Data.free, (hall i hi).1] at hlock

end SysProg.CountByFile
