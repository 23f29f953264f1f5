import SysProg.Verification.TypedQueue.Steps

/-! # What the three programs have in common

What is in the queue is known from how far the child and the parent are. The programs differ in the
order in which the parent gets the squares and in when it can get `'Q'`. -/

namespace SysProg.TypedQueue

open Message
open OneSender (Data Msg)

/-- How the parent and the child can be in the middle of a run: `Running k child` when the parent
has got `k` squares. `final k` tells how many squares there can be before `'Q'`. -/
structure Plan (program : Program) (capacity : ℕ) where
  order : ℕ → ℕ
  queue : ℕ → Child → List Msg
  Running : ℕ → Child → Prop
  final : ℕ → Prop
  queue_start : queue 0 (.sending 0) = []
  running_start : Running 0 (.sending 0)
  running_le : ∀ {k child}, Running k child → k ≤ N
  stays : ∀ {k child}, Running k child → program.last.any (program.first - k < ·) = false
  send : ∀ {k j}, Running k (.sending j) → j < N → (queue k (.sending j)).length < capacity →
    Running k (.sending (j + 1)) ∧
      queue k (.sending (j + 1)) = queue k (.sending j) ++ [message program j]
  sentAll : ∀ {k j}, Running k (.sending j) → N ≤ j →
    Running k .quitting ∧ queue k .quitting = queue k (.sending j)
  sendQuit : ∀ {k}, Running k .quitting → (queue k .quitting).length < capacity →
    Running k .exited ∧ queue k .exited = queue k .quitting ++ [quit program]
  receive : ∀ {k child msg rest}, Running k child →
    msgrcvTyp (program.msgtyp (program.first - k)) (queue k child) = some (msg, rest) →
      (msg = message program (order k) ∧ Running (k + 1) child ∧ rest = queue (k + 1) child) ∨
      (msg = quit program ∧ child = .exited ∧ final k)

namespace Plan

variable {program : Program} {capacity : ℕ} (plan : Plan program capacity)

inductive Inv : State → Prop
  | running (k : ℕ) (child : Child) (h : plan.Running k child) :
      Inv ⟨some (plan.queue k child), child,
        .receiving (program.first - k) (receivedBy program plan.order k)⟩
  | terminating (k : ℕ) (queue : Option (List Msg)) (h : plan.final k) :
      Inv ⟨queue, .exited, .terminating (allReceived program plan.order k)⟩
  | exited (k : ℕ) (h : plan.final k) :
      Inv ⟨none, .exited, .exited (allReceived program plan.order k)⟩

theorem inv_start : plan.Inv (start program) := by
  have h : plan.Inv _ := .running 0 (.sending 0) plan.running_start
  rw [plan.queue_start] at h
  simpa [receivedBy, start] using h

variable {plan}

theorem Inv.step {s t : State} (h : plan.Inv s) (hstep : Step program capacity s t) :
    plan.Inv t ∧ rank t < rank s := by
  cases h with
  | running k child h =>
      have hk := plan.running_le h
      have hstays := plan.stays h
      rw [loopStep_iff] at hstep
      generalize hqueue : plan.queue k child = queue at hstep
      cases hstep with
      | send j hj hroom =>
          rw [← hqueue] at hroom
          obtain ⟨hrunning, hqueue'⟩ := plan.send h hj hroom
          rw [← hqueue, ← hqueue']
          refine ⟨.running k _ hrunning, ?_⟩
          simp only [rank]
          omega
      | sentAll j hj =>
          obtain ⟨hrunning, hqueue'⟩ := plan.sentAll h hj
          rw [← hqueue, ← hqueue']
          refine ⟨.running k _ hrunning, ?_⟩
          simp only [rank]
          omega
      | sendQuit hroom =>
          rw [← hqueue] at hroom
          obtain ⟨hrunning, hqueue'⟩ := plan.sendQuit h hroom
          rw [← hqueue, ← hqueue']
          refine ⟨.running k _ hrunning, ?_⟩
          simp only [rank]
          omega
      | leave child hlast =>
          rw [hstays] at hlast
          cases hlast
      | receive child msg rest hlast hmsg hc =>
          rw [← hqueue] at hmsg
          rcases plan.receive h hmsg with ⟨rfl, hrunning, rfl⟩ | ⟨rfl, -, -⟩
          · have hnext : plan.Inv _ := .running (k + 1) child hrunning
            rw [receivedBy_succ] at hnext
            have hi : program.first - (k + 1 : ℕ) = program.first - k - 1 := by
              push_cast
              ring
            rw [hi] at hnext
            refine ⟨hnext, ?_⟩
            simp only [rank, List.length_append, receivedBy_length, List.length_singleton]
            omega
          · exact absurd rfl hc
      | receiveQuit child msg rest hlast hmsg hc =>
          rw [← hqueue] at hmsg
          rcases plan.receive h hmsg with ⟨rfl, -, -⟩ | ⟨rfl, rfl, hfinal⟩
          · exact absurd hc (by decide : 'C' ≠ 'Q')
          · refine ⟨.terminating k _ hfinal, ?_⟩
            simp only [rank, receivedBy_length]
            omega
  | terminating k queue h =>
      rw [step_terminating] at hstep
      subst hstep
      exact ⟨.exited k h, by simp [rank]⟩
  | exited k h => exact absurd hstep not_step_exited

/-- The parent exits with what the plan says, when the child has sent everything. -/
theorem Inv.of_exited {s : State} (h : plan.Inv s) {received : List (ℤ × Msg)}
    (hexited : s.parent = .exited received) :
    s.child = .exited ∧ ∃ k, plan.final k ∧ received = allReceived program plan.order k := by
  cases h with
  | running k child h => cases hexited
  | terminating k queue h => cases hexited
  | exited k h =>
      cases hexited
      exact ⟨rfl, k, h, rfl⟩

/-- What the parent has got when it exits. -/
def Receives (plan : Plan program capacity) (s : State) : Prop :=
  ∀ received, s.parent = .exited received →
    s.child = .exited ∧ ∃ k, plan.final k ∧ received = allReceived program plan.order k

theorem always_receives (plan : Plan program capacity) :
    Always (Step program capacity) plan.Receives (start program) :=
  .of_invariant plan.inv_start (fun _ _ h hstep => (h.step hstep).1)
    fun _ h _ hexited => h.of_exited hexited

/-- The parent has exited. -/
def ParentExited (s : State) : Prop :=
  ∃ received, s.parent = .exited received

/-- If the child or the parent can always go on, every run comes to its end. -/
theorem leads (plan : Plan program capacity)
    (hprogress : ∀ {k child}, plan.Running k child →
      (∃ j, child = .sending j ∧ N ≤ j) ∨
      (child ≠ .exited ∧ child ≠ .failed ∧ (plan.queue k child).length < capacity) ∨
      msgrcvTyp (program.msgtyp (program.first - k)) (plan.queue k child) ≠ none) :
    Leads (Step program capacity) ParentExited (start program) := by
  refine Leads.of_variant (I := plan.Inv) rank ?_ ?_ _ plan.inv_start
  · intro s h
    cases h with
    | running k child h =>
        right
        rcases hprogress h with ⟨j, rfl, hj⟩ | ⟨hexited, hfailed, hroom⟩ | hmsg
        · exact ⟨_, loopStep_iff.mpr (.sentAll j hj)⟩
        · cases child with
          | sending j =>
              by_cases hj : j < N
              · exact ⟨_, loopStep_iff.mpr (.send j hj hroom)⟩
              · exact ⟨_, loopStep_iff.mpr (.sentAll j (Nat.le_of_not_lt hj))⟩
          | quitting => exact ⟨_, loopStep_iff.mpr (.sendQuit hroom)⟩
          | exited => exact absurd rfl hexited
          | failed => exact absurd rfl hfailed
        · obtain ⟨⟨msg, rest⟩, hmsg⟩ := Option.ne_none_iff_exists'.mp hmsg
          by_cases hc : msg.data.c = 'Q'
          · exact ⟨_, loopStep_iff.mpr (.receiveQuit child msg rest (plan.stays h) hmsg hc)⟩
          · exact ⟨_, loopStep_iff.mpr (.receive child msg rest (plan.stays h) hmsg hc)⟩
    | terminating k queue h => exact .inr ⟨_, step_terminating.mpr rfl⟩
    | exited k h => exact .inl ⟨_, rfl⟩
  · intro s t h hstep
    exact .inr (h.step hstep)

/-- A run to the end needs room for what is final. -/
theorem final_of_leads (plan : Plan program capacity)
    (h : Leads (Step program capacity) ParentExited (start program)) : ∃ k, plan.final k := by
  obtain ⟨t, hrun, received, hexited⟩ := h.exists_reaches
  obtain ⟨-, k, hk, -⟩ := plan.always_receives t hrun received hexited
  exact ⟨k, hk⟩

end Plan

end SysProg.TypedQueue
