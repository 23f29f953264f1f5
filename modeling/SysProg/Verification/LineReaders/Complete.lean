import SysProg.Verification.LineReaders.Printed

/-! # All threads come to an end

A thread that finds the mutex locked may go round in its loop as long as another one holds it. Apart
from that every step brings the program closer to its end. -/

namespace SysProg.LineReaders

open Transmission

variable {n : ℕ} {program : Program} {stdin : Bytes} {shared shared' : Shared}
  {threads : Fin (n + 1) → Thread} {holder : Option (Fin (n + 1))} {consumed : List Bytes}
  {i : Fin (n + 1)} {thread thread' : Thread} {state state' : State n}

/-! ## The steps that are left -/

/-- The steps that a thread may still make before it reads again. -/
def Pc.rank (done : Bool) : Pc → ℕ
  | .filled => 17
  | .copied _ => 16
  | .printed => 15
  | .starting => 14
  | .looping => if done then 6 else 13
  | .locking => 12
  | .tried none => 11
  | .reading => 10
  | .finishing _ => 9
  | .unlocked _ => 8
  | .ending => 7
  | .tried (some _) => 1
  | .returned | .exited => 0

theorem rank_done_le (done : Bool) (pc : Pc) : pc.rank true ≤ pc.rank done := by
  cases done with
  | true => exact le_rfl
  | false =>
      unfold Pc.rank
      split <;> simp

theorem rank_looping_le (done : Bool) : Pc.looping.rank done ≤ 13 := by
  cases done <;> simp [Pc.rank]

/-- A byte of the input is worth more than a turn of the loop. -/
theorem Step.rank_lt (h : Step program (shared, thread) (shared', thread')) :
    16 * shared'.stdin.length + thread'.pc.rank shared'.done <
      16 * shared.stdin.length + thread.pc.rank shared.done := by
  cases h with
  | start =>
      have hlooping := rank_looping_le shared.done
      change 16 * shared.stdin.length + Pc.looping.rank shared.done < 16 * shared.stdin.length + 14
      omega
  | leave hdone => simp [Pc.rank, hdone]
  | enter hdone => simp [Pc.rank, hdone]
  | lock _ => cases program <;> simp [Program.afterLock, Pc.rank]
  | fail _ _ _ => simp [Pc.rank]
  | report => simp [Shared.print, Pc.rank]
  | giveUp => simp [Shared.print, Pc.rank]
  | null _ => simp [Pc.rank]
  | read hstdin =>
      have := length_fgets_lt hstdin
      simp only [Shared.fill, Pc.rank]
      omega
  | empty _ => simp [Pc.rank]
  | copy _ => simp [Pc.rank]
  | print => simp [Shared.print, Pc.rank]
  | unlock =>
      have hlooping := rank_looping_le shared.done
      change 16 * shared.stdin.length + Pc.looping.rank shared.done < 16 * shared.stdin.length + 15
      omega
  | unlockLast => simp [Pc.rank]
  | announce => simp [Shared.print, Pc.rank]
  | finish => simp [Pc.rank]

theorem Step.done_or (h : Step program (shared, thread) (shared', thread')) :
    shared'.done = true ∨ shared'.done = shared.done := by
  cases h with
  | finish => exact .inl rfl
  | _ => exact .inr rfl

def State.rank (state : State n) : ℕ :=
  16 * state.1.stdin.length + total (fun thread => thread.pc.rank state.1.done) state.2

theorem State.rank_lt (h : Interleaved (Step program) state state') :
    State.rank state' < State.rank state := by
  cases h with
  | @step shared shared' threads thread' i hstep =>
      have hlt := hstep.rank_lt
      have hle : ∀ thread : Thread, thread.pc.rank shared'.done ≤ thread.pc.rank shared.done := by
        intro thread
        rcases hstep.done_or with hdone | hdone
        · rw [hdone]
          exact rank_done_le _ _
        · rw [hdone]
      have hupdate := total_update (fun thread => thread.pc.rank shared'.done) threads i thread'
      have hothers := total_add_le hle threads i
      simp only [State.rank] at *
      omega

theorem State.rank_le (h : Interleaved (Retry program) state state') :
    State.rank state' ≤ State.rank state + 1 := by
  cases h with
  | @step shared shared' threads thread' i hstep =>
      generalize hthread : threads i = thread at hstep
      cases hstep with
      | @busy _ name _ _ =>
          have hlooping := rank_looping_le shared.done
          have hupdate := total_update (fun thread => thread.pc.rank shared.done) threads i
            ⟨name, .looping⟩
          have hself : (threads i).pc.rank shared.done = 12 := by
            rw [hthread]
            rfl
          simp only [State.rank] at *
          omega

/-! ## No run gets stuck -/

/-- A thread can go on unless it waits for the mutex. -/
theorem exists_step (program : Program) (shared : Shared) (thread : Thread)
    (hended : thread.pc.ended = false)
    (hlock : thread.pc = .locking → shared.mutex1 = false) :
    ∃ t, Step program (shared, thread) t := by
  obtain ⟨name, pc⟩ := thread
  cases pc with
  | starting => exact ⟨_, .start⟩
  | looping =>
      cases hdone : shared.done with
      | false => exact ⟨_, .enter hdone⟩
      | true => exact ⟨_, .leave hdone⟩
  | locking => exact ⟨_, .lock (hlock rfl)⟩
  | tried retcode =>
      cases retcode with
      | none => exact ⟨_, .report⟩
      | some e => exact ⟨_, .giveUp⟩
  | reading =>
      by_cases hstdin : shared.stdin = []
      · exact ⟨_, .null hstdin⟩
      · exact ⟨_, .read hstdin⟩
  | filled =>
      by_cases hcopy : strdup shared.buff = []
      · exact ⟨_, .empty hcopy⟩
      · exact ⟨_, .copy hcopy⟩
  | copied myCopy => exact ⟨_, .print⟩
  | printed => exact ⟨_, .unlock⟩
  | finishing why => exact ⟨_, .unlockLast⟩
  | unlocked why => exact ⟨_, .announce⟩
  | ending => exact ⟨_, .finish⟩
  | returned => cases hended
  | exited => cases hended

theorem holds_not_ended {pc : Pc} (h : pc.holds = true) : pc.ended = false ∧ pc ≠ .locking := by
  unfold Pc.holds at h
  split at h <;> simp_all [Pc.ended]

/-- As long as a thread has not ended, there is a thread that does not wait. -/
theorem Inv.progress (h : Inv program stdin shared threads holder consumed)
    (hended : (threads i).pc.ended = false) :
    ∃ state, Interleaved (Step program) (shared, threads) state := by
  cases holder with
  | some j =>
      obtain ⟨hj, hnot⟩ := holds_not_ended ((h.holds j).mpr rfl)
      obtain ⟨t, ht⟩ := exists_step program shared (threads j) hj
        fun heq => absurd heq hnot
      exact ⟨_, .step j ht⟩
  | none =>
      obtain ⟨t, ht⟩ := exists_step program shared (threads i) hended
        fun _ => h.mutex
      exact ⟨_, .step i ht⟩

/-! ## The results -/

/-- A state as the runs reach it. -/
def Reached (program : Program) (stdin : Bytes) (state : State n) : Prop :=
  ∃ holder consumed, Inv program stdin state.1 state.2 holder consumed

theorem Reached.step (h : Reached program stdin state)
    (hstep : Interleaved (Step program) state state') : Reached program stdin state' := by
  obtain ⟨holder, consumed, hinv⟩ := h
  cases hstep with
  | step i hstep => exact hinv.step hstep

theorem Reached.retry (h : Reached program stdin state)
    (hstep : Interleaved (Retry program) state state') : Reached program stdin state' := by
  obtain ⟨holder, consumed, hinv⟩ := h
  cases hstep with
  | step i hstep => exact hinv.retry hstep

theorem returned_of_ended {pc : Pc} (hended : pc.ended = true) (hdoomed : pc.doomed = false) :
    pc = .returned := by
  cases pc with
  | returned => rfl
  | exited => cases hdoomed
  | _ => cases hended

/-- The mutex has one holder at most, not all threads give up, and the terminal shows the first
strings of the input, each once and in order. -/
structure Orderly (stdin : Bytes) (state : State n) : Prop where
  alone : ∀ i j, (state.2 i).pc.holds = true → (state.2 j).pc.holds = true → i = j
  alive : ∃ i, (state.2 i).pc.doomed = false
  /-- Until `done` is set, one of the threads that have not given up has not ended either. -/
  reader : state.1.done = false →
    ∃ i, (state.2 i).pc.doomed = false ∧ (state.2 i).pc.ended = false
  printed : printedTexts state.1.terminal <+: nonempty (texts stdin)

theorem Reached.orderly (h : Reached program stdin state) : Orderly stdin state := by
  obtain ⟨holder, consumed, hinv⟩ := h
  refine ⟨?_, hinv.alive, ?_, ?_⟩
  · intro i j hi hj
    exact Option.some.inj (((hinv.holds i).mp hi).symm.trans ((hinv.holds j).mp hj))
  · intro hdone
    obtain ⟨i, hi⟩ := hinv.alive
    refine ⟨i, hi, ?_⟩
    by_contra hended
    have hreturned := returned_of_ended (Bool.not_eq_false _ ▸ hended) hi
    rw [(hinv.thread i).returned hreturned] at hdone
    cases hdone
  · rw [hinv.texts, nonempty_append, hinv.lines.printed, List.append_assoc]
    exact List.prefix_append _ _

/-- In every state that the program reaches. -/
theorem lines_in_order (program : Program) (n : ℕ) (stdin : Bytes) :
    Always (Interleaved (ThreadRun program)) (Orderly stdin) (start n stdin) := by
  refine Always.of_invariant (I := Reached program stdin) ⟨none, [], inv_start program n stdin⟩
    ?_ fun state h => h.orderly
  intro state state' h hstep
  cases hstep with
  | step i hstep =>
      cases hstep with
      | inl hstep => exact h.step (.step i hstep)
      | inr hstep => exact h.retry (.step i hstep)

/-- The runs in which `pthread_mutex_trylock` returns `EBUSY` so many times at most. -/
inductive Limited (program : Program) : ℕ × State n → ℕ × State n → Prop
  | step {retries : ℕ} {state state' : State n} (h : Interleaved (Step program) state state') :
      Limited program (retries, state) (retries, state')
  | retry {retries : ℕ} {state state' : State n} (h : Interleaved (Retry program) state state') :
      Limited program (retries + 1, state) (retries, state')

/-- All threads have ended, one of them at least because of `done`, and all strings have been
printed; a string is left out only behind an empty one. -/
structure Complete (program : Program) (stdin : Bytes) (state : State n) : Prop where
  ended : ∀ i, (state.2 i).pc.ended = true
  returned : ∃ i, (state.2 i).pc = .returned
  all_return : program = .nonblocking → ∀ i, (state.2 i).pc = .returned
  printed : ∃ consumed rest, texts stdin = consumed ++ rest ∧
    printedTexts state.1.terminal = nonempty consumed ∧ (rest = [] ∨ [] ∈ consumed)

theorem Reached.complete (h : Reached program stdin state)
    (hended : ∀ i, (state.2 i).pc.ended = true) : Complete program stdin state := by
  obtain ⟨holder, consumed, hinv⟩ := h
  obtain ⟨i, hi⟩ := hinv.alive
  have hreturned := returned_of_ended (hended i) hi
  refine ⟨hended, ⟨i, hreturned⟩, ?_, consumed, texts state.1.stdin, hinv.texts, ?_, ?_⟩
  · intro hprogram j
    exact returned_of_ended (hended j) ((hinv.thread j).doomed hprogram)
  · have hnone : holder = none := by
      cases holder with
      | none => rfl
      | some j =>
          have hj := (holds_not_ended ((hinv.holds j).mpr rfl)).1
          rw [hended j] at hj
          cases hj
    have hprinted := hinv.lines.printed
    rw [hnone, Option.map_none, Option.elim_none, List.append_nil] at hprinted
    exact hprinted.symm
  · have hdone := (hinv.thread i).returned hreturned
    refine (hinv.done hdone).imp_left ?_
    intro hempty
    rw [hempty, texts_nil]

/-- Every run comes to its end, with all strings printed, although threads of `timedlock.c` give up
on the way. -/
theorem readers_complete (program : Program) (n : ℕ) (stdin : Bytes) (retries : ℕ) :
    Leads (Limited program) (fun s => Complete program stdin s.2) (retries, start n stdin) := by
  refine Leads.of_variant (I := fun s => Reached program stdin s.2)
    (fun s => 2 * s.1 + State.rank s.2) ?_ ?_ _ ⟨none, [], inv_start program n stdin⟩
  · rintro ⟨retries, state⟩ h
    by_cases hended : ∀ i, (state.2 i).pc.ended = true
    · exact .inl (h.complete hended)
    · simp only [not_forall, Bool.not_eq_true] at hended
      obtain ⟨i, hi⟩ := hended
      obtain ⟨holder, consumed, hinv⟩ := h
      obtain ⟨state', hstep⟩ := hinv.progress hi
      exact .inr ⟨_, .step hstep⟩
  · rintro _ _ h (⟨hstep⟩ | ⟨hstep⟩)
    · have := State.rank_lt hstep
      refine .inr ⟨h.step hstep, ?_⟩
      simp only
      omega
    · have := State.rank_le hstep
      refine .inr ⟨h.retry hstep, ?_⟩
      simp only
      omega

end SysProg.LineReaders
