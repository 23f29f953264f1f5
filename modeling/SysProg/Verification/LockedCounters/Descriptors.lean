import SysProg.Verification.LockedCounters.Output

/-! # When the descriptors run out

A thread that fails while it reads does not close its file. If there are so many of these that no
descriptor is left, another thread tries to open its file for ever. -/

namespace SysProg.LockedCounters

open Transmission

variable {program : Program} {n descriptors : ℕ} {counter : UInt8 → ℤ} {files : Fin n → File}

/-- No thread holds the lock of a counter. -/
def Shared.Free {ν : Type} (shared : Shared program ℤ ν) : Prop :=
  ∀ k, program.lock.Held 0 (shared.locks k)

theorem Shared.Free.setLock {ν : Type} {shared : Shared program ℤ ν} (h : shared.Free)
    (k : Fin program.LOCKS) {lock : program.Lock} (hlock : program.lock.Held 0 lock) :
    (shared.setLock k lock).Free := by
  intro k'
  by_cases hk : k' = k
  · subst hk
    simpa [Shared.setLock] using hlock
  · simpa [Shared.setLock, hk] using h k'

/-- Alone a thread comes through its file, and fails at the end. -/
theorem reaches_failed {ν : Type} (name : ν) {ending : Ending} (hleaks : leaks program ending)
    (todo : Bytes) {shared : Shared program ℤ ν} (hfree : shared.Free) :
    ∃ shared', shared'.Free ∧ shared'.descriptors = shared.descriptors ∧
      Reaches (Step program) (shared, .counting name todo ending) (shared', .failed) := by
  induction todo generalizing shared with
  | nil =>
      refine ⟨shared.print (.error name), hfree, rfl, .single ?_⟩
      cases ending with
      | notOpened | eof => cases hleaks
      | error => rfl
      | badDescriptor =>
          have hfails : program.onBadDescriptor = .fails := of_decide_eq_true hleaks
          rw [Step, next, atEnd]
          dsimp only
          rw [hfails]
  | cons c todo ih =>
      obtain ⟨locked, hlock⟩ := program.lock.wrlock_free (hfree (program.lockNum c))
      obtain ⟨-, hheld⟩ := program.lock.wrlock_held (hfree (program.lockNum c)) hlock
      obtain ⟨unlocked, hunlock, hunlocked⟩ := program.lock.wrunlock_held hheld
      let locked' := shared.setLock (program.lockNum c) locked
      let stored : Shared program ℤ ν :=
        { locked' with counter := Function.update shared.counter c (shared.counter c + 1) }
      have hlast : (stored.setLock (program.lockNum c) unlocked).Free := by
        have hlast := hfree.setLock (program.lockNum c) hunlocked
        simpa [stored, locked', Shared.Free, Shared.setLock] using hlast
      obtain ⟨shared', hfree', hdescriptors, hrun⟩ := ih hlast
      have h₁ : Step program (shared, .counting name (c :: todo) ending)
          (locked', .locked name c todo ending) := by
        rw [Step, next, hlock]
        rfl
      have h₂ : Step program (locked', .locked name c todo ending)
          (locked', .loaded name c (shared.counter c) todo ending) := rfl
      have h₃ : Step program (locked', .loaded name c (shared.counter c) todo ending)
          (stored, .stored name c todo ending) := rfl
      have h₄ : Step program (stored, .stored name c todo ending)
          (stored.setLock (program.lockNum c) unlocked, .counting name todo ending) := by
        have hlocks : stored.locks (program.lockNum c) = locked := Function.update_self ..
        rw [Step, next, hlocks, hunlock]
        rfl
      exact ⟨shared', hfree', hdescriptors, .head h₁ (.head h₂ (.head h₃ (.head h₄ hrun)))⟩

/-- A thread waits for a descriptor, and those that have one keep it. -/
structure Starved (i : Fin n) (state : State program ℤ n) : Prop where
  descriptors : state.1.descriptors = 0
  opens : (state.2 (some i)).Opens
  kept : ∀ j, (state.2 j).holding = 0 ∨ state.2 j = .failed

theorem Starved.step (hopens : program.opens = true) {i : Fin n} {state state' : State program ℤ n}
    (h : Starved i state) (hstep : Interleaved (Step program) state state') : Starved i state' := by
  cases hstep with
  | @step shared shared' threads thread' j hstep =>
      have hsteps : Steps program shared (threads j) shared' thread' := step_cases hstep
      have hdescriptors := hsteps.descriptors_eq hopens
      have hshared : shared.descriptors = 0 := h.descriptors
      have hholding : (threads j).holding = 0 := by
        refine (h.kept j).resolve_right ?_
        intro hfailed
        dsimp only at hfailed
        rw [hfailed] at hsteps
        cases hsteps
      have hji : some i ≠ j := by
        rintro rfl
        have hi : (threads (some i)).Opens := h.opens
        generalize threads (some i) = thread at hsteps hi
        cases hsteps with
        | openFile name file hfree => exact hfree hshared
        | _ => exact hi.elim
      refine ⟨?_, ?_, ?_⟩
      · dsimp only
        omega
      · dsimp only
        rw [Function.update_of_ne hji]
        exact h.opens
      · intro k
        dsimp only
        by_cases hk : k = j
        · subst hk
          rw [Function.update_self]
          left
          omega
        · rw [Function.update_of_ne hk]
          exact h.kept k

/-- The threads that fail can take all descriptors before another one opens its file. -/
theorem starved_reached (hopens : program.opens = true) (counter : UInt8 → ℤ)
    (hleaky : descriptors ≤ (leaky program files).card) (hn : descriptors < n) :
    ∃ i state, Reaches (Interleaved (Step program)) (start program descriptors counter files) state ∧
      Starved i state := by
  obtain ⟨T, hT, hcard⟩ := Finset.exists_subset_card_eq hleaky
  obtain ⟨i, -, hi⟩ : ∃ i ∈ Finset.univ, i ∉ T :=
    Finset.exists_mem_notMem_of_card_lt_card (by simpa [hcard] using hn)
  let S := T.map Function.Embedding.some
  let P : Finset (Option (Fin n)) → Shared program ℤ (Fin n) → Prop := fun S shared =>
    shared.Free ∧ shared.descriptors + S.card = descriptors
  have halone : ∀ S', ∀ j ∈ S, j ∉ S' → S' ⊆ S → ∀ shared, P S' shared →
      ∃ shared', P (insert j S') shared' ∧ Reaches (Step program)
        (shared, (start program descriptors counter files).2 j) (shared', .failed) := by
    rintro S' j hj hjS' hsub shared ⟨hfree, hshared⟩
    obtain ⟨j, hjT, rfl⟩ := Finset.mem_map.mp hj
    have hlt : S'.card < S.card := Finset.card_lt_card ⟨hsub, fun hsub' => hjS' (hsub' hj)⟩
    rw [Finset.card_map, hcard] at hlt
    have hleaks : leaks program (files j).ending := by simpa [leaky] using hT hjT
    have hopened : (files j).ending ≠ .notOpened := by
      intro hending
      rw [hending] at hleaks
      cases hleaks
    obtain ⟨shared', hfree', hdescriptors, hrun⟩ :=
      reaches_failed j hleaks (files j).bytes (show (shared.openFile (files j)).Free from hfree)
    refine ⟨shared', ⟨hfree', ?_⟩, .head ?_ hrun⟩
    · rw [hdescriptors, Finset.card_insert_of_notMem hjS', Shared.openFile]
      simp only [if_neg hopened]
      omega
    · simp only [start, first, hopens, Step, next, Function.Embedding.some_apply, if_true]
      rw [if_neg (by omega)]
  have hstart : P ∅ (start program descriptors counter files).1 :=
    ⟨fun _ => program.lock.held_free, rfl⟩
  obtain ⟨shared, ⟨-, hshared⟩, hrun⟩ := Interleaved.reaches_piecewise P
    (start program descriptors counter files).2 (fun _ => Thread.failed) halone hstart
  refine ⟨i, _, hrun, ?_, ?_, ?_⟩
  · dsimp only
    rw [Finset.card_map, hcard] at hshared
    omega
  · have hnot : some i ∉ S := by simpa [S] using hi
    simp [Finset.piecewise_eq_of_notMem _ _ _ hnot, start, first, hopens, Thread.Opens]
  · intro j
    by_cases hj : j ∈ S
    · exact .inr (Finset.piecewise_eq_of_mem S (fun _ => Thread.failed) _ hj)
    · left
      simp only [Finset.piecewise_eq_of_notMem _ _ _ hj]
      exact holding_start hopens j

theorem Thread.Opens.not_finished {ν : Type} {thread : Thread ℤ ν} (h : thread.Opens) :
    ¬ thread.Finished := by
  cases thread <;> first | exact id | exact h.elim

/-- Then not every run comes to the end of all threads. -/
theorem not_leads (hopens : program.opens = true) (counter : UInt8 → ℤ)
    (hleaky : descriptors ≤ (leaky program files).card) (hn : descriptors < n)
    {Q : State program ℤ n → Prop} (hQ : ∀ state, Q state → ∀ i, (state.2 i).Finished) :
    ¬ Leads (Interleaved (Step program)) Q (start program descriptors counter files) := by
  intro hleads
  obtain ⟨i, state, hrun, hstarved⟩ := starved_reached hopens counter hleaky hn
  obtain ⟨last, hlast, hafter | hbefore⟩ := hleads.before_or_after hrun
  · have hopening := (hafter.invariant (fun _ _ => Starved.step hopens) hstarved).opens
    exact hopening.not_finished (hQ last hlast (some i))
  · obtain rfl | ⟨next, hnext, -⟩ := hbefore.cases_head
    · exact hstarved.opens.not_finished (hQ last hlast (some i))
    · cases hnext with
      | @step shared shared' threads thread' j hstep =>
          have hfinished : (threads j).Finished := hQ _ hlast j
          generalize threads j = thread at hstep hfinished
          cases thread <;> first | exact hfinished.elim | cases hstep

end SysProg.LockedCounters
