import SysProg.Verification.Semaphore.Flight

/-! # The protocol of the worker, its children and the parent

The parent waits for the children before it sends the last message, and nobody waits for ever. -/

namespace SysProg.Semaphore

open Message

variable {cfg : Config}

def Child.ended : Child → ℕ
  | .exited => 1
  | _ => 0

def Worker.ended : Worker → ℕ
  | .exited => 1
  | _ => 0

/-- The processes that the parent has waited for. -/
def Parent.waited (N : ℕ) : Parent → ℕ
  | .forking => 0
  | .waiting k => k
  | _ => N

/-- The last message has been sent. -/
def State.Quits (s : State cfg) : Prop :=
  quit cfg ∈ s.queue ∨ s.worker = .terminating ∨ s.worker = .exited

structure Ends (s : State cfg) : Prop where
  reaped : total Child.ended s.child + s.worker.ended = s.zombies + s.parent.waited cfg.N
  waited : ∀ k, s.parent = .waiting k → k ≤ cfg.N
  forked : s.parent ≠ .forking → cfg.N + 1 ≤ s.forked
  done : s.parent = .sending ∨ s.parent = .exited → ∀ i, s.child i = .exited
  quits : s.Quits ↔ s.parent = .exited

theorem ends_start : Ends (start cfg) where
  reaped := by simp [start, total, Child.ended, Worker.ended, Parent.waited]
  waited _ h := by cases h
  forked h := absurd rfl h
  done h := by rcases h with h | h <;> cases h
  quits := by simp [State.Quits, start]

theorem ended_of_ne {child : Child} (h : child ≠ .exited) : child.ended = 0 := by
  cases child <;> first | rfl | exact absurd rfl h

/-- A child goes on. -/
theorem Ends.goto {s : State cfg} (hs : Ends s) {i : Fin cfg.N} {child : Child} {semaphore : ℤ}
    {queue : List Msg} {zombies : ℕ} (hbefore : s.child i ≠ .exited)
    (hzombies : zombies = s.zombies + child.ended) (hquit : quit cfg ∈ queue ↔ quit cfg ∈ s.queue) :
    Ends ({ s with semaphore, queue, zombies }.goto i child) := by
  constructor
  · have htotal := total_goto Child.ended { s with semaphore, queue, zombies } i child
    have hreaped := hs.reaped
    dsimp only at htotal
    rw [ended_of_ne hbefore, Nat.add_zero] at htotal
    rw [htotal, hzombies]
    change total Child.ended s.child + child.ended + s.worker.ended =
      s.zombies + child.ended + s.parent.waited cfg.N
    omega
  · exact hs.waited
  · exact hs.forked
  · intro h
    exact absurd (hs.done h i) hbefore
  · exact (or_congr_left hquit).trans hs.quits

/-- The worker goes on. -/
theorem Ends.worker {s : State cfg} (hs : Ends s) {worker : Worker} {queue : List Msg}
    {zombies : ℕ} (hzombies : zombies + s.worker.ended = s.zombies + worker.ended)
    (hquits : State.Quits { s with queue, zombies, worker } ↔ s.Quits) :
    Ends { s with queue, zombies, worker } := by
  refine ⟨?_, hs.waited, hs.forked, hs.done, hquits.trans hs.quits⟩
  have hreaped := hs.reaped
  dsimp only
  omega

/-! ## The steps -/

structure Inv (s : State cfg) : Prop where
  flight : Flight s
  ends : Ends s

theorem quit_ne {msg : Msg} {n : ℤ} (h : owner msg = some n) : quit cfg ≠ msg := by
  rintro rfl
  cases h

theorem quit_mem_append {msg : Msg} {n : ℤ} (h : owner msg = some n) (queue : List Msg) :
    quit cfg ∈ queue ++ [msg] ↔ quit cfg ∈ queue := by
  simp [quit_ne h]

theorem quit_mem_rest {msg : Msg} {n type : ℤ} {queue rest : List Msg} (h : owner msg = some n)
    (hmsg : msgrcv type queue = some (msg, rest)) : quit cfg ∈ rest ↔ quit cfg ∈ queue := by
  rw [(msgrcv_perm hmsg).2.mem_iff, List.mem_cons]
  simp [quit_ne h]

theorem Inv.of_childStep {s t : State cfg} (hs : Inv s) {i : Fin cfg.N}
    (h : childStep s i = some t) : Inv t := by
  obtain ⟨hflight, hends⟩ := hs
  unfold childStep at h
  cases hchild : s.child i with
  | notForked =>
      rw [hchild] at h
      obtain ⟨-, h⟩ := Option.ite_none_right_eq_some.mp h
      obtain rfl := Option.some.inj h
      constructor
      · exact hflight.goto (by rw [hchild]; rfl) rfl (by rw [hchild]; rfl) hflight.nonneg
          (by simp) (by simp)
      · exact hends.goto (by simp [hchild]) rfl Iff.rfl
  | obtaining j =>
      rw [hchild] at h
      dsimp only at h
      split at h
      · next hj =>
          obtain ⟨semaphore, hsemop, rfl⟩ := Option.map_eq_some_iff.mp h
          obtain ⟨hnonneg, hvalue⟩ := Option.ite_none_right_eq_some.mp hsemop
          obtain rfl := Option.some.inj hvalue
          constructor
          · exact hflight.goto (by rw [hchild]; rfl) rfl (by rw [hchild]; simp [Child.units])
              hnonneg (by simpa using hj) (by simp)
          · exact hends.goto (by simp [hchild]) rfl Iff.rfl
      · obtain rfl := Option.some.inj h
        constructor
        · exact hflight.goto (by rw [hchild]; rfl) rfl (by rw [hchild]; rfl) hflight.nonneg
            (by simp) (by simp)
        · exact hends.goto (by simp [hchild]) rfl Iff.rfl
  | sending j =>
      rw [hchild] at h
      obtain ⟨queue, hqueue, rfl⟩ := Option.map_eq_some_iff.mp h
      obtain ⟨-, rfl⟩ := msgsnd_eq_some.mp hqueue
      constructor
      · exact hflight.childSends hchild
      · exact hends.goto (by simp [hchild]) rfl (quit_mem_append (owner_request i j) _)
  | receiving j =>
      rw [hchild] at h
      obtain ⟨⟨msg, queue⟩, hmsg, rfl⟩ := Option.map_eq_some_iff.mp h
      obtain ⟨rfl, hflight'⟩ := hflight.childReceives hchild hmsg
      refine ⟨hflight', ?_⟩
      exact hends.goto (by simp [hchild]) rfl (quit_mem_rest (owner_reply i j) hmsg)
  | freeing j data =>
      rw [hchild] at h
      obtain ⟨semaphore, hsemop, rfl⟩ := Option.map_eq_some_iff.mp h
      obtain ⟨hnonneg, hvalue⟩ := Option.ite_none_right_eq_some.mp hsemop
      obtain rfl := Option.some.inj hvalue
      constructor
      · exact hflight.goto (by rw [hchild]; rfl) rfl (by rw [hchild]; simp [Child.units])
          hnonneg (by simp) (by simp)
      · exact hends.goto (by simp [hchild]) rfl Iff.rfl
  | exited =>
      rw [hchild] at h
      cases h

theorem Inv.of_workerStep {s t : State cfg} (hs : Inv s) (h : workerStep s = some t) : Inv t := by
  obtain ⟨hflight, hends⟩ := hs
  unfold workerStep at h
  cases hworker : s.worker with
  | notForked =>
      rw [hworker] at h
      obtain ⟨-, h⟩ := Option.ite_none_right_eq_some.mp h
      obtain rfl := Option.some.inj h
      constructor
      · exact hflight.worker (by rw [hworker]; rfl) rfl
      · exact hends.worker (by rw [hworker]; rfl) (by simp [State.Quits, hworker])
  | receiving =>
      rw [hworker] at h
      obtain ⟨⟨msg, queue⟩, hmsg, rfl⟩ := Option.map_eq_some_iff.mp h
      rcases hflight.of_msgrcv hmsg with rfl | ⟨i, j, hreceiving, rfl⟩
      · have hquits : s.Quits := .inl ((msgrcv_perm hmsg).2.mem_iff.mpr (by simp))
        constructor
        · exact hflight.workerQuits hworker hmsg
        · exact hends.worker (by rw [hworker]; rfl) (iff_of_true (.inr (.inl rfl)) hquits)
      · constructor
        · exact hflight.workerReceives hworker hreceiving hmsg
        · refine hends.worker (by rw [hworker]; rfl) ?_
          simp [State.Quits, hworker, quit_mem_rest (owner_request i j) hmsg]
  | sending msg =>
      rw [hworker] at h
      obtain ⟨queue, hqueue, rfl⟩ := Option.map_eq_some_iff.mp h
      obtain ⟨-, rfl⟩ := msgsnd_eq_some.mp hqueue
      obtain ⟨i, j, -, rfl⟩ := hflight.held msg hworker
      constructor
      · exact hflight.workerSends hworker
      · refine hends.worker (by rw [hworker]; rfl) ?_
        simp [State.Quits, hworker, quit_ne (owner_reply i j)]
  | terminating =>
      rw [hworker] at h
      obtain rfl := Option.some.inj h
      constructor
      · exact hflight.worker (by rw [hworker]; rfl) rfl
      · exact hends.worker (by rw [hworker]; rfl) (by simp [State.Quits, hworker])
  | exited =>
      rw [hworker] at h
      cases h

theorem total_ended_le (child : Fin cfg.N → Child) : total Child.ended child ≤ cfg.N := by
  have hle : total Child.ended child ≤ ∑ _i : Fin cfg.N, 1 := by
    refine Finset.sum_le_sum fun i _ => ?_
    cases child i <;> simp [Child.ended]
  simpa using hle

/-- All children have ended if there are as many of these as there are children. -/
theorem exited_of_total {child : Fin cfg.N → Child} (h : cfg.N ≤ total Child.ended child)
    (i : Fin cfg.N) : child i = .exited := by
  by_contra hne
  have hupdate := total_update Child.ended child i .exited
  have hle := total_ended_le (Function.update child i .exited)
  rw [ended_of_ne hne] at hupdate
  simp only [Child.ended] at hupdate
  omega

/-- The parent goes on. -/
theorem Ends.parent {s : State cfg} (hs : Ends s) {parent : Parent} {queue : List Msg}
    {forked zombies : ℕ}
    (hreaped : zombies + parent.waited cfg.N = s.zombies + s.parent.waited cfg.N)
    (hwaited : ∀ k, parent = .waiting k → k ≤ cfg.N)
    (hforked : parent ≠ .forking → cfg.N + 1 ≤ forked)
    (hdone : parent = .sending ∨ parent = .exited → ∀ i, s.child i = .exited)
    (hquits : State.Quits { s with queue, forked, zombies, parent } ↔ parent = .exited) :
    Ends { s with queue, forked, zombies, parent } :=
  ⟨hs.reaped.trans hreaped.symm, hwaited, hforked, hdone, hquits⟩

theorem Flight.parent {s : State cfg} (hs : Flight s) (parent : Parent) (forked zombies : ℕ) :
    Flight { s with forked, zombies, parent } :=
  hs.of_flight rfl rfl hs.messages hs.held (fun _ => rfl) rfl

theorem Inv.of_parentStep {s t : State cfg} (hs : Inv s) (h : parentStep s = some t) : Inv t := by
  obtain ⟨hflight, hends⟩ := hs
  have hreaped := hends.reaped
  have hquits : s.parent ≠ .exited → ¬ s.Quits := fun hne h => hne (hends.quits.mp h)
  unfold parentStep at h
  split at h
  · next hparent =>
      have hnot : ¬ s.Quits := hquits (by simp [hparent])
      split at h
      · obtain rfl := Option.some.inj h
        refine ⟨hflight.parent .., hends.parent rfl hends.waited ?_ hends.done hends.quits⟩
        intro hne
        exact absurd hparent hne
      · next hlt =>
          obtain rfl := Option.some.inj h
          refine ⟨hflight.parent .., hends.parent ?_ ?_ ?_ (by simp) (iff_of_false hnot (by simp))⟩
          · rw [hparent]
            rfl
          · intro k hk
            rw [← Parent.waiting.inj hk]
            exact Nat.zero_le _
          · exact fun _ => not_lt.mp hlt
  · next k hparent =>
      have hnot : ¬ s.Quits := hquits (by simp [hparent])
      have hforked := hends.forked (by simp [hparent])
      rw [hparent] at hreaped
      split at h
      · next hk =>
          obtain ⟨hzombies, h⟩ := Option.ite_none_right_eq_some.mp h
          obtain rfl := Option.some.inj h
          refine ⟨hflight.parent .., hends.parent ?_ ?_ (fun _ => hforked) (by simp)
            (iff_of_false hnot (by simp))⟩
          · rw [hparent]
            simp only [Parent.waited]
            omega
          · intro k' hk'
            rw [← Parent.waiting.inj hk']
            exact hk
      · next hk =>
          obtain rfl := Option.some.inj h
          have hkN := hends.waited k hparent
          refine ⟨hflight.parent .., hends.parent ?_ (by simp) (fun _ => hforked) ?_
            (iff_of_false hnot (by simp))⟩
          · rw [hparent]
            simp only [Parent.waited]
            omega
          · intro _
            have hworker : s.worker.ended = 0 := by
              cases hworker : s.worker <;> first | rfl | exact absurd (.inr (.inr hworker)) hnot
            refine exited_of_total ?_
            simp only [Parent.waited] at hreaped
            omega
  · next hparent =>
      obtain ⟨queue, hqueue, rfl⟩ := Option.map_eq_some_iff.mp h
      obtain ⟨-, rfl⟩ := msgsnd_eq_some.mp hqueue
      have hforked := hends.forked (by simp [hparent])
      refine ⟨hflight.parentSends, hends.parent ?_ (by simp) (fun _ => hforked)
        (fun _ => hends.done (.inl hparent)) (iff_of_true ?_ rfl)⟩
      · rw [hparent]
        rfl
      · exact .inl (by simp)
  · cases h

theorem Inv.of_next {s t : State cfg} {action : Action cfg} (hs : Inv s)
    (h : next s action = some t) : Inv t := by
  cases action with
  | worker => exact hs.of_workerStep h
  | parent => exact hs.of_parentStep h
  | child i => exact hs.of_childStep h

/-! ## Progress -/

/-- Before the last message, all messages are requests and replies. -/
theorem Inv.outstanding_eq {s : State cfg} (hs : Inv s) (hquits : ¬ s.Quits) :
    s.outstanding = s.worker.held.length + s.queue.length := by
  rw [← List.length_append]
  refine List.countP_eq_length.mpr ?_
  intro msg hmsg
  rcases hs.flight.messages msg hmsg with rfl | ⟨i, j, -, rfl | rfl⟩
  · exfalso
    cases hworker : s.worker with
    | sending msg =>
        obtain ⟨i, j, -, rfl⟩ := hs.flight.held msg hworker
        rw [State.flight, hworker] at hmsg
        rcases List.mem_cons.mp hmsg with h | h
        · exact quit_ne (owner_reply i j) h
        · exact hquits (.inl h)
    | _ =>
        rw [State.flight, hworker] at hmsg
        exact hquits (.inl hmsg)
  · rfl
  · rw [owner_reply]
    rfl

/-- The worker can always send its reply. -/
theorem Inv.worker_sends {s : State cfg} (hs : Inv s) {msg : Msg}
    (hworker : s.worker = .sending msg) : workerStep s ≠ none := by
  have hquits : ¬ s.Quits := by
    intro h
    obtain ⟨i, j, hreceiving, -⟩ := hs.flight.held msg hworker
    have hexited := hs.ends.done (.inr (hs.ends.quits.mp h)) i
    rw [hexited] at hreceiving
    cases hreceiving
  have houtstanding := hs.flight.outstanding_le
  rw [hs.outstanding_eq hquits, hworker] at houtstanding
  have hlt : s.queue.length < capacity := by
    simp only [Worker.held, List.length_singleton] at houtstanding
    unfold capacity
    omega
  simp [workerStep, hworker, msgsnd, hlt]

/-- When the worker waits for a message and no child can go on, there is no message. -/
theorem Inv.queue_empty {s : State cfg} (hs : Inv s) (hworker : s.worker = .receiving)
    (hblocked : workerStep s = none)
    (hchildren : ∀ i, s.child i ≠ .exited → childStep s i = none) : s.queue = [] := by
  have hnone : msgrcv WORKER_TYPE s.queue = none := by
    simpa [workerStep, hworker] using hblocked
  have htype := msgrcv_eq_none.mp hnone
  rw [List.eq_nil_iff_forall_not_mem]
  intro msg hmsg
  rcases hs.flight.messages msg (List.mem_append_right _ hmsg) with
    rfl | ⟨i, j, hreceiving, rfl | rfl⟩
  · exact htype _ hmsg rfl
  · exact htype _ hmsg rfl
  · have hchild := hchildren i (by simp [hreceiving])
    have hnone' : msgrcv (number i) s.queue = none := by
      simpa [childStep, hreceiving] using hchild
    exact msgrcv_eq_none.mp hnone' _ hmsg rfl

/-- Without messages, a child that cannot go on has ended or waits for the semaphore. -/
theorem Inv.child_blocked {s : State cfg} (hs : Inv s) (hforked : cfg.N + 1 ≤ s.forked)
    (hheld : s.worker.held = []) (hqueue : s.queue = []) {i : Fin cfg.N}
    (hblocked : childStep s i = none) :
    s.child i = .exited ∨ (s.child i).units = 0 ∧ s.semaphore = 0 := by
  have hi := i.isLt
  have hnonneg := hs.flight.nonneg
  cases hchild : s.child i with
  | notForked =>
      have hlt : (i : ℕ) + 1 < s.forked := by omega
      simp [childStep, hchild, hlt] at hblocked
  | obtaining j =>
      refine .inr ⟨rfl, ?_⟩
      by_cases hj : j < cfg.rounds i
      · have hsemop : semop s.semaphore (-1) = none := by
          simpa [childStep, hchild, hj] using hblocked
        have hneg : ¬ 0 ≤ s.semaphore + -1 := by
          intro h
          rw [semop, if_pos h] at hsemop
          cases hsemop
        omega
      · simp [childStep, hchild, hj] at hblocked
  | sending j => simp [childStep, hchild, msgsnd, hqueue, capacity] at hblocked
  | receiving j =>
      have hone := hs.flight.one i
      rw [hchild, State.messagesOf, State.flight, hheld, hqueue] at hone
      cases hone
  | freeing j data =>
      have hpos : 0 ≤ s.semaphore + 1 := by omega
      simp [childStep, hchild, semop, hpos] at hblocked
  | exited => exact .inl rfl

/-- The units of the semaphore are not all lost. -/
theorem Inv.children_exited {s : State cfg} (hs : Inv s)
    (hblocked : ∀ i, s.child i = .exited ∨ (s.child i).units = 0 ∧ s.semaphore = 0) :
    ∀ i, s.child i = .exited := by
  intro i
  cases hblocked i with
  | inl hexited => exact hexited
  | inr hzero =>
      have htotal : total Child.units s.child = 0 := by
        refine Finset.sum_eq_zero fun i _ => ?_
        cases hblocked i with
        | inl hexited =>
            rw [hexited]
            rfl
        | inr hunits => exact hunits.1
      have hsemaphore := hs.flight.semaphore
      rw [htotal, hzero.2] at hsemaphore
      cases hsemaphore

/-- After the children, the parent goes on to its end. -/
theorem Inv.parent_goes {s : State cfg} (hs : Inv s) (hworker : s.worker = .receiving)
    (hqueue : s.queue = []) (hexited : ∀ i, s.child i = .exited) : parentStep s ≠ none := by
  have hreaped := hs.ends.reaped
  have htotal : total Child.ended s.child = cfg.N := by
    simp [total, hexited, Child.ended]
  rw [htotal, hworker] at hreaped
  cases hparent : s.parent with
  | forking =>
      unfold parentStep
      rw [hparent]
      dsimp only
      split <;> simp
  | waiting k =>
      rw [hparent] at hreaped
      simp only [Worker.ended, Parent.waited] at hreaped
      by_cases hk : k < cfg.N
      · have hzombies : 0 < s.zombies := by omega
        simp [parentStep, hparent, hk, hzombies]
      · simp [parentStep, hparent, hk]
  | sending => simp [parentStep, hparent, msgsnd, hqueue, capacity]
  | exited =>
      have hquits := hs.ends.quits.mpr hparent
      simp [State.Quits, hworker, hqueue] at hquits

theorem Inv.not_deadlocked {s : State cfg} (hs : Inv s) : ¬ s.Deadlocked := by
  intro ⟨⟨process, hunfinished⟩, hblocked⟩
  have hparent : s.parent ≠ .exited → parentStep s = none := hblocked .parent
  have hchild : ∀ i, s.child i ≠ .exited → childStep s i = none := fun i => hblocked (.child i)
  have hforking : s.parent ≠ .forking := by
    intro h
    have hnone := hparent (by simp [h])
    unfold parentStep at hnone
    rw [h] at hnone
    dsimp only at hnone
    split at hnone <;> cases hnone
  have hforked := hs.ends.forked hforking
  cases hworker : s.worker with
  | notForked =>
      have hpos : 0 < s.forked := by omega
      have hnone : workerStep s = none := hblocked .worker (by simp [State.Finished, hworker])
      simp [workerStep, hworker, hpos] at hnone
  | receiving =>
      have hnone : workerStep s = none := hblocked .worker (by simp [State.Finished, hworker])
      have hqueue := hs.queue_empty hworker hnone hchild
      have hexited : ∀ i, s.child i = .exited := by
        refine hs.children_exited fun i => ?_
        by_cases h : s.child i = .exited
        · exact .inl h
        · exact hs.child_blocked hforked (by rw [hworker]; rfl) hqueue (hchild i h)
      have hgoes := hs.parent_goes hworker hqueue hexited
      have hdone : s.parent = .exited := by
        by_contra h
        exact hgoes (hparent h)
      have hquits := hs.ends.quits.mpr hdone
      simp [State.Quits, hworker, hqueue] at hquits
  | sending msg => exact hs.worker_sends hworker (hblocked .worker (by simp [State.Finished, hworker]))
  | terminating =>
      have hnone : workerStep s = none := hblocked .worker (by simp [State.Finished, hworker])
      simp [workerStep, hworker] at hnone
  | exited =>
      have hdone := hs.ends.quits.mp (.inr (.inr hworker))
      apply hunfinished
      cases process with
      | worker => exact hworker
      | parent => exact hdone
      | child i => exact hs.ends.done (.inr hdone) i

/-- What the programs rely on in every state. -/
structure Correct (s : State cfg) : Prop where
  outstanding : s.outstanding ≤ 2
  replies : ∀ i j data, s.child i = .freeing j data → data = ⟨'Y', WORKER_TYPE, j * j⟩
  quits : s.worker = .terminating ∨ s.worker = .exited → ∀ i, s.child i = .exited
  progress : ¬ s.Deadlocked

/-- With any number of children and rounds, the protocol is correct in every state. -/
theorem semaphore_correct (cfg : Config) : Always Step Correct (start cfg) := by
  refine Always.of_invariant (I := Inv) ⟨flight_start, ends_start⟩ ?_ ?_
  · intro s t hs hst
    obtain ⟨action, h⟩ := hst
    exact hs.of_next h
  · intro s hs
    constructor
    · exact hs.flight.outstanding_le
    · exact hs.flight.replies
    · intro h
      exact hs.ends.done (.inr (hs.ends.quits.mp (.inr h)))
    · exact hs.not_deadlocked

end SysProg.Semaphore
