import SysProg.Model.Semaphore

/-! # Requests and replies on their way

Every request and every reply that is in the queue or with the worker belongs to one child that
waits, and each of these children has exactly one. The semaphore bounds their number. -/

namespace SysProg.Semaphore

open Message

variable {cfg : Config}

/-- The reply to a request. -/
def reply {N : ℕ} (i : Fin N) (j : ℕ) : Msg :=
  ⟨number i, ⟨'Y', WORKER_TYPE, j * j⟩⟩

/-- The child that a message belongs to. -/
def owner (msg : Msg) : Option ℤ :=
  if msg.data.ctrl = 'Q' then none
  else if msg.type = WORKER_TYPE then some msg.data.origin
  else some msg.type

theorem number_inj {N : ℕ} {i i' : Fin N} (h : number i = number i') : i = i' := by
  unfold number at h
  ext
  omega

theorem number_ne (i : Fin cfg.N) : number i ≠ WORKER_TYPE := by
  have hN := cfg.N_lt
  have hi := i.isLt
  unfold number
  omega

@[simp] theorem owner_request {N : ℕ} (i : Fin N) (j : ℕ) :
    owner (request i j) = some (number i) :=
  rfl

@[simp] theorem owner_reply (i : Fin cfg.N) (j : ℕ) : owner (reply i j) = some (number i) := by
  simp [owner, reply, number_ne i]

@[simp] theorem owner_quit : owner (quit cfg) = none :=
  rfl

/-- The worker squares the number in a request. -/
theorem answer_request {N : ℕ} {j : ℕ} (i : Fin N) (hj : j < 2 ^ 31) :
    answer (request i j) = reply i j := by
  have hsquare : (j : ℤ) * j < 2 ^ 31 * 2 ^ 31 := by
    have hcast : (j : ℤ) < 2 ^ 31 := by exact_mod_cast hj
    exact mul_self_lt_mul_self (Int.natCast_nonneg j) hcast
  have hnonneg : 0 ≤ (j : ℤ) * j := mul_nonneg (Int.natCast_nonneg j) (Int.natCast_nonneg j)
  have hlong : ((j : ℤ) * j).bmod (2 ^ 64) = j * j :=
    Int.bmod_eq_of_le (by norm_num; omega) (by norm_num; omega)
  simp only [answer, request, hlong, reply]

/-- The message that the worker is about to send. -/
def Worker.held : Worker → List Msg
  | .sending msg => [msg]
  | _ => []

/-- The messages in the queue and with the worker. -/
def State.flight (s : State cfg) : List Msg :=
  s.worker.held ++ s.queue

/-- The messages of one child. -/
def State.messagesOf (s : State cfg) (i : Fin cfg.N) : ℕ :=
  s.flight.countP fun msg => owner msg = some (number i)

/-- The requests and replies that are outstanding. -/
def State.outstanding (s : State cfg) : ℕ :=
  s.flight.countP fun msg => (owner msg).isSome

/-! ## What a child has -/

/-- The units of the semaphore that a child has taken. -/
def Child.units : Child → ℤ
  | .sending _ | .receiving _ | .freeing .. => 1
  | _ => 0

/-- The replies that a child waits for. -/
def Child.awaits : Child → ℕ
  | .receiving _ => 1
  | _ => 0

theorem Child.awaits_le_units (child : Child) : (child.awaits : ℤ) ≤ child.units := by
  cases child <;> simp [Child.awaits, Child.units]

structure Flight (s : State cfg) : Prop where
  messages : ∀ msg ∈ s.flight, msg = quit cfg ∨
    ∃ i j, s.child i = .receiving j ∧ (msg = request i j ∨ msg = reply i j)
  held : ∀ msg, s.worker = .sending msg → ∃ i j, s.child i = .receiving j ∧ msg = reply i j
  one : ∀ i, s.messagesOf i = (s.child i).awaits
  all : s.outstanding = total Child.awaits s.child
  rounds : ∀ i j, s.child i = .sending j ∨ s.child i = .receiving j → j < cfg.rounds i
  replies : ∀ i j data, s.child i = .freeing j data → data = (reply i j).data
  semaphore : s.semaphore + total Child.units s.child = 2
  nonneg : 0 ≤ s.semaphore

theorem Flight.outstanding_le {s : State cfg} (hs : Flight s) : s.outstanding ≤ 2 := by
  have hle : ((total Child.awaits s.child : ℕ) : ℤ) ≤ total Child.units s.child := by
    rw [total, total, Nat.cast_sum]
    exact Finset.sum_le_sum fun i _ => (s.child i).awaits_le_units
  have hsemaphore := hs.semaphore
  have hnonneg := hs.nonneg
  have hall := hs.all
  omega

theorem flight_start : Flight (start cfg) where
  messages _ h := by cases h
  held _ h := by cases h
  one _ := rfl
  all := by simp [State.outstanding, State.flight, start, Worker.held, total, Child.awaits]
  rounds _ _ h := by rcases h with h | h <;> cases h
  replies _ _ _ h := by cases h
  semaphore := by simp [start, total, Child.units]
  nonneg := by simp [start]

/-! ## Steps that leave the queue as it is -/

@[simp] theorem goto_child_self (s : State cfg) (i : Fin cfg.N) (child : Child) :
    (s.goto i child).child i = child :=
  Function.update_self ..

theorem goto_child_of_ne (s : State cfg) {i i' : Fin cfg.N} (child : Child) (hne : i' ≠ i) :
    (s.goto i child).child i' = s.child i' :=
  Function.update_of_ne hne ..

theorem forall_goto {P : Fin cfg.N → Child → Prop} {s : State cfg} (h : ∀ i, P i (s.child i))
    {i : Fin cfg.N} {child : Child} (hnew : P i child) (i' : Fin cfg.N) :
    P i' ((s.goto i child).child i') := by
  by_cases heq : i' = i
  · subst heq
    rwa [goto_child_self]
  · rw [goto_child_of_ne _ _ heq]
    exact h i'

theorem total_goto (held : Child → ℕ) (s : State cfg) (i : Fin cfg.N) (child : Child) :
    total held (s.goto i child).child + held (s.child i) = total held s.child + held child :=
  total_update held s.child i child

/-- The conditions that do not speak of the queue. -/
theorem Flight.child_goto {s : State cfg} (hs : Flight s) {i : Fin cfg.N} {child : Child}
    {semaphore : ℤ} (hrounds : ∀ j, child = .sending j ∨ child = .receiving j → j < cfg.rounds i)
    (hreplies : ∀ j data, child = .freeing j data → data = (reply i j).data)
    (hsemaphore : semaphore + child.units = s.semaphore + (s.child i).units) :
    (∀ i' j, (s.goto i child).child i' = .sending j ∨ (s.goto i child).child i' = .receiving j →
        j < cfg.rounds i') ∧
      (∀ i' j data, (s.goto i child).child i' = .freeing j data → data = (reply i' j).data) ∧
      semaphore + total Child.units (s.goto i child).child = 2 :=
  ⟨forall_goto (P := fun i' child => ∀ j, child = .sending j ∨ child = .receiving j →
      j < cfg.rounds i') hs.rounds hrounds,
    forall_goto (P := fun i' child => ∀ j data, child = .freeing j data →
      data = (reply i' j).data) hs.replies hreplies,
    (conserved_step (fun value : ℤ => value) Child.units hsemaphore).trans hs.semaphore⟩

/-- A child does something else than `msgsnd` and `msgrcv`. -/
theorem Flight.goto {s : State cfg} (hs : Flight s) {i : Fin cfg.N} {child : Child} {semaphore : ℤ}
    {zombies : ℕ} (hbefore : (s.child i).awaits = 0) (hafter : child.awaits = 0)
    (hsemaphore : semaphore + child.units = s.semaphore + (s.child i).units)
    (hnonneg : 0 ≤ semaphore) (hrounds : ∀ j, child = .sending j → j < cfg.rounds i)
    (hreplies : ∀ j data, child ≠ .freeing j data) :
    Flight ({ s with semaphore, zombies }.goto i child) := by
  have hne : ∀ i' j, s.child i' = .receiving j → i' ≠ i := by
    rintro i' j hreceiving rfl
    rw [hreceiving] at hbefore
    cases hbefore
  have hstays : ∀ i' j, s.child i' = .receiving j →
      (State.goto { s with semaphore, zombies } i child).child i' = .receiving j := by
    intro i' j h
    rwa [goto_child_of_ne _ _ (hne i' j h)]
  have hrounds' : ∀ j, child = .sending j ∨ child = .receiving j → j < cfg.rounds i := by
    intro j h
    rcases h with rfl | rfl
    · exact hrounds j rfl
    · cases hafter
  obtain ⟨hrounds'', hreplies', hunits⟩ := hs.child_goto hrounds'
    (fun j data h => absurd h (hreplies j data)) hsemaphore
  refine ⟨?_, ?_, ?_, ?_, hrounds'', hreplies', hunits, hnonneg⟩
  · intro msg hmsg
    rcases hs.messages msg hmsg with h | ⟨i', j, hreceiving, hmsg⟩
    · exact .inl h
    · exact .inr ⟨i', j, hstays i' j hreceiving, hmsg⟩
  · intro msg hworker
    obtain ⟨i', j, hreceiving, hmsg⟩ := hs.held msg hworker
    exact ⟨i', j, hstays i' j hreceiving, hmsg⟩
  · intro i'
    have hone : s.messagesOf i' = (s.child i').awaits := hs.one i'
    by_cases heq : i' = i
    · subst heq
      rw [goto_child_self, hafter, ← hbefore]
      exact hone
    · rw [goto_child_of_ne _ _ heq]
      exact hone
  · have htotal := total_goto Child.awaits { s with semaphore, zombies } i child
    have hall : s.outstanding = total Child.awaits s.child := hs.all
    dsimp only at htotal
    rw [hbefore, hafter, Nat.add_zero, Nat.add_zero] at htotal
    rw [htotal]
    exact hall

/-! ## Steps with the queue -/

/-- A message more on its way. -/
theorem messagesOf_cons {s t : State cfg} {msg : Msg} (hflight : t.flight.Perm (msg :: s.flight))
    (i : Fin cfg.N) :
    t.messagesOf i = s.messagesOf i + (if owner msg = some (number i) then 1 else 0) := by
  rw [State.messagesOf, hflight.countP_eq, List.countP_cons]
  simp [State.messagesOf]

/-- It is a message of one child only. -/
theorem messagesOf_cons_of_ne {s t : State cfg} {msg : Msg}
    (hflight : t.flight.Perm (msg :: s.flight)) {i i' : Fin cfg.N}
    (howner : owner msg = some (number i)) (hne : i' ≠ i) : t.messagesOf i' = s.messagesOf i' := by
  have hother : ¬ some (number i) = some (number i') := by
    intro h
    exact hne (number_inj (Option.some.inj h)).symm
  rw [messagesOf_cons hflight, howner, if_neg hother, Nat.add_zero]

theorem outstanding_cons {s t : State cfg} {msg : Msg}
    (hflight : t.flight.Perm (msg :: s.flight)) :
    t.outstanding = s.outstanding + (if (owner msg).isSome then 1 else 0) := by
  rw [State.outstanding, hflight.countP_eq, List.countP_cons]
  simp [State.outstanding]

theorem Flight.childSends {s : State cfg} (hs : Flight s) {i : Fin cfg.N} {j : ℕ}
    (hsending : s.child i = .sending j) :
    Flight ({ s with queue := s.queue ++ [request i j] }.goto i (.receiving j)) := by
  have hflight : (State.goto { s with queue := s.queue ++ [request i j] } i
      (.receiving j)).flight.Perm (request i j :: s.flight) := by
    change (s.worker.held ++ (s.queue ++ [request i j])).Perm _
    rw [← List.append_assoc]
    exact List.perm_append_singleton ..
  have hne : ∀ i' j', s.child i' = .receiving j' → i' ≠ i := by
    rintro i' j' hreceiving rfl
    rw [hsending] at hreceiving
    cases hreceiving
  have hrounds : ∀ j', Child.receiving j = .sending j' ∨ Child.receiving j = .receiving j' →
      j' < cfg.rounds i := by
    intro j' h
    rcases h with h | h
    · cases h
    · obtain rfl := Child.receiving.inj h
      exact hs.rounds i j (.inl hsending)
  have hsemaphore : s.semaphore + (Child.receiving j).units = s.semaphore + (s.child i).units := by
    rw [hsending]
    rfl
  obtain ⟨hrounds', hreplies, hunits⟩ :=
    hs.child_goto hrounds (fun j' data h => (by cases h)) hsemaphore
  refine ⟨?_, ?_, ?_, ?_, hrounds', hreplies, hunits, hs.nonneg⟩
  · intro msg hmsg
    rcases List.mem_cons.mp (hflight.mem_iff.mp hmsg) with rfl | hmsg
    · exact .inr ⟨i, j, goto_child_self .., .inl rfl⟩
    · rcases hs.messages msg hmsg with h | ⟨i', j', hreceiving, hmsg⟩
      · exact .inl h
      · exact .inr ⟨i', j', by rwa [goto_child_of_ne _ _ (hne i' j' hreceiving)], hmsg⟩
  · intro msg hworker
    obtain ⟨i', j', hreceiving, hmsg⟩ := hs.held msg hworker
    exact ⟨i', j', by rwa [goto_child_of_ne _ _ (hne i' j' hreceiving)], hmsg⟩
  · intro i'
    by_cases heq : i' = i
    · subst heq
      rw [messagesOf_cons hflight, hs.one, owner_request, goto_child_self, hsending, if_pos rfl]
      rfl
    · rw [goto_child_of_ne _ _ heq, messagesOf_cons_of_ne hflight (owner_request ..) heq]
      exact hs.one i'
  · have htotal := total_goto Child.awaits { s with queue := s.queue ++ [request i j] } i
      (.receiving j)
    have hall := hs.all
    dsimp only at htotal
    rw [hsending] at htotal
    simp only [Child.awaits, Nat.add_zero] at htotal
    rw [outstanding_cons hflight, owner_request, htotal, hall]
    rfl

/-- A child that waits gets the reply to its request. -/
theorem Flight.childReceives {s : State cfg} (hs : Flight s) {i : Fin cfg.N} {j : ℕ} {msg : Msg}
    {queue : List Msg} (hreceiving : s.child i = .receiving j)
    (hmsg : msgrcv (number i) s.queue = some (msg, queue)) :
    msg = reply i j ∧ Flight ({ s with queue }.goto i (.freeing j msg.data)) := by
  obtain ⟨htype, hqueue⟩ := msgrcv_perm hmsg
  have hflight : s.flight.Perm (msg ::
      (State.goto { s with queue } i (.freeing j msg.data)).flight) := by
    change (s.worker.held ++ s.queue).Perm (msg :: (s.worker.held ++ queue))
    exact (hqueue.append_left _).trans List.perm_middle
  have hreply : msg = reply i j := by
    rcases hs.messages msg (hflight.mem_iff.mpr (by simp)) with rfl | ⟨i', j', hchild, hmsg⟩
    · exact absurd htype.symm (number_ne i)
    · rcases hmsg with rfl | rfl
      · exact absurd htype.symm (number_ne i)
      · obtain rfl := number_inj htype
        rw [hreceiving] at hchild
        rw [Child.receiving.inj hchild]
  subst hreply
  refine ⟨rfl, ?_⟩
  have hone := hs.one i
  rw [messagesOf_cons hflight, owner_reply, if_pos rfl, hreceiving] at hone
  have hnone : ∀ msg ∈ (State.goto { s with queue } i (.freeing j (reply i j).data)).flight,
      owner msg ≠ some (number i) := by
    have hzero : (State.goto { s with queue } i (.freeing j (reply i j).data)).messagesOf i = 0 := by
      simpa [Child.awaits] using hone
    simpa [State.messagesOf, List.countP_eq_zero] using hzero
  have hstays : ∀ i' j', s.child i' = .receiving j' → i' ≠ i →
      (State.goto { s with queue } i (.freeing j (reply i j).data)).child i' = .receiving j' := by
    intro i' j' h hne
    rwa [goto_child_of_ne _ _ hne]
  have hreplies : ∀ j' data, Child.freeing j (reply i j).data = .freeing j' data →
      data = (reply i j').data := by
    intro j' data h
    obtain ⟨rfl, rfl⟩ := Child.freeing.inj h
    rfl
  have hsemaphore : s.semaphore + (Child.freeing j (reply i j).data).units =
      s.semaphore + (s.child i).units := by
    rw [hreceiving]
    rfl
  obtain ⟨hrounds, hreplies', hunits⟩ :=
    hs.child_goto (fun j' h => (by rcases h with h | h <;> cases h)) hreplies hsemaphore
  refine ⟨?_, ?_, ?_, ?_, hrounds, hreplies', hunits, hs.nonneg⟩
  · intro msg hmsg
    rcases hs.messages msg (hflight.mem_iff.mpr (List.mem_cons_of_mem _ hmsg)) with
      h | ⟨i', j', hchild, hmsg'⟩
    · exact .inl h
    · refine .inr ⟨i', j', hstays i' j' hchild ?_, hmsg'⟩
      rintro rfl
      rcases hmsg' with rfl | rfl
      · exact hnone _ hmsg (owner_request ..)
      · exact hnone _ hmsg (owner_reply ..)
  · intro msg hworker
    obtain ⟨i', j', hchild, rfl⟩ := hs.held msg hworker
    refine ⟨i', j', hstays i' j' hchild ?_, rfl⟩
    rintro rfl
    refine hnone (reply i' j') ?_ (owner_reply ..)
    change reply i' j' ∈ s.worker.held ++ queue
    have hworker' : s.worker = .sending (reply i' j') := hworker
    rw [hworker']
    simp [Worker.held]
  · intro i'
    by_cases heq : i' = i
    · subst heq
      rw [goto_child_self]
      simpa [Child.awaits] using hone
    · rw [goto_child_of_ne _ _ heq, ← messagesOf_cons_of_ne hflight (owner_reply ..) heq]
      exact hs.one i'
  · have htotal := total_goto Child.awaits { s with queue } i (.freeing j (reply i j).data)
    have hall := hs.all
    rw [outstanding_cons hflight, owner_reply] at hall
    dsimp only at htotal
    rw [hreceiving] at htotal
    simp only [Child.awaits, Nat.add_zero] at htotal
    rw [← htotal] at hall
    exact Nat.add_right_cancel hall

/-! ## Steps of the worker and of the parent -/

/-- The worker and the parent change the messages on their way only. -/
theorem Flight.of_flight {s t : State cfg} (hs : Flight s) (hchild : t.child = s.child)
    (hsemaphore : t.semaphore = s.semaphore)
    (hmessages : ∀ msg ∈ t.flight, msg = quit cfg ∨
      ∃ i j, s.child i = .receiving j ∧ (msg = request i j ∨ msg = reply i j))
    (hheld : ∀ msg, t.worker = .sending msg → ∃ i j, s.child i = .receiving j ∧ msg = reply i j)
    (hone : ∀ i, t.messagesOf i = s.messagesOf i) (hall : t.outstanding = s.outstanding) :
    Flight t := by
  constructor
  · rwa [hchild]
  · rwa [hchild]
  · intro i
    rw [hone, hchild, hs.one]
  · rw [hall, hchild, hs.all]
  · rw [hchild]
    exact hs.rounds
  · rw [hchild]
    exact hs.replies
  · rw [hsemaphore, hchild, hs.semaphore]
  · rw [hsemaphore]
    exact hs.nonneg

/-- The worker begins or ends. -/
theorem Flight.worker {s : State cfg} (hs : Flight s) {worker : Worker} {zombies : ℕ}
    (hbefore : s.worker.held = []) (hafter : worker.held = []) :
    Flight { s with zombies, worker } := by
  have hflight : State.flight { s with zombies, worker } = s.flight := by
    rw [State.flight, State.flight, hbefore, hafter]
  refine hs.of_flight rfl rfl ?_ ?_ ?_ ?_
  · rw [hflight]
    exact hs.messages
  · intro msg hworker
    rw [show worker = .sending msg from hworker] at hafter
    cases hafter
  · intro i
    rw [State.messagesOf, hflight, State.messagesOf]
  · rw [State.outstanding, hflight, State.outstanding]

/-- The message that the worker receives is the last one or a request. -/
theorem Flight.of_msgrcv {s : State cfg} (hs : Flight s) {msg : Msg} {queue : List Msg}
    (hmsg : msgrcv WORKER_TYPE s.queue = some (msg, queue)) :
    msg = quit cfg ∨ ∃ i j, s.child i = .receiving j ∧ msg = request i j := by
  obtain ⟨htype, hqueue⟩ := msgrcv_perm hmsg
  have hmem : msg ∈ s.flight := List.mem_append_right _ (hqueue.mem_iff.mpr (by simp))
  rcases hs.messages msg hmem with h | ⟨i, j, hreceiving, rfl | rfl⟩
  · exact .inl h
  · exact .inr ⟨i, j, hreceiving, rfl⟩
  · exact absurd htype (number_ne i)

/-- The worker gets a request and holds the reply to it. -/
theorem Flight.workerReceives {s : State cfg} (hs : Flight s) {i : Fin cfg.N} {j : ℕ}
    {queue : List Msg} (hworker : s.worker = .receiving) (hreceiving : s.child i = .receiving j)
    (hmsg : msgrcv WORKER_TYPE s.queue = some (request i j, queue)) :
    Flight { s with queue, worker := .sending (answer (request i j)) } := by
  obtain ⟨-, hqueue⟩ := msgrcv_perm hmsg
  rw [answer_request i ((hs.rounds i j (.inr hreceiving)).trans (cfg.rounds_lt i))]
  have hbefore : s.flight.Perm (request i j :: queue) := by
    rw [State.flight, hworker]
    exact hqueue
  have hafter : State.flight { s with queue, worker := .sending (reply i j) } =
      reply i j :: queue :=
    rfl
  refine hs.of_flight rfl rfl ?_ ?_ ?_ ?_
  · intro msg hmsg
    rcases List.mem_cons.mp (hafter ▸ hmsg) with rfl | hmsg
    · exact .inr ⟨i, j, hreceiving, .inr rfl⟩
    · exact hs.messages msg (hbefore.mem_iff.mpr (List.mem_cons_of_mem _ hmsg))
  · intro msg h
    obtain rfl := Worker.sending.inj h
    exact ⟨i, j, hreceiving, rfl⟩
  · intro i'
    rw [State.messagesOf, State.messagesOf, hafter, hbefore.countP_eq, List.countP_cons,
      List.countP_cons, owner_reply, owner_request]
  · rw [State.outstanding, State.outstanding, hafter, hbefore.countP_eq, List.countP_cons,
      List.countP_cons, owner_reply, owner_request]

/-- The worker gets the last message. -/
theorem Flight.workerQuits {s : State cfg} (hs : Flight s) {queue : List Msg}
    (hworker : s.worker = .receiving)
    (hmsg : msgrcv WORKER_TYPE s.queue = some (quit cfg, queue)) :
    Flight { s with queue, worker := .terminating } := by
  obtain ⟨-, hqueue⟩ := msgrcv_perm hmsg
  have hflight : s.flight.Perm (quit cfg ::
      State.flight { s with queue, worker := .terminating }) := by
    rw [State.flight, hworker]
    exact hqueue
  refine hs.of_flight rfl rfl ?_ ?_ ?_ ?_
  · intro msg hmsg
    exact hs.messages msg (hflight.mem_iff.mpr (List.mem_cons_of_mem _ hmsg))
  · intro msg h
    cases h
  · intro i
    rw [messagesOf_cons hflight, owner_quit, if_neg (by simp), Nat.add_zero]
  · rw [outstanding_cons hflight, owner_quit, if_neg (by simp), Nat.add_zero]

/-- The worker sends what it holds. -/
theorem Flight.workerSends {s : State cfg} (hs : Flight s) {msg : Msg}
    (hworker : s.worker = .sending msg) :
    Flight { s with queue := s.queue ++ [msg], worker := .receiving } := by
  have hflight : (State.flight { s with queue := s.queue ++ [msg], worker := .receiving }).Perm
      s.flight := by
    rw [State.flight, State.flight, hworker]
    exact List.perm_append_singleton ..
  refine hs.of_flight rfl rfl ?_ ?_ ?_ ?_
  · intro msg' hmsg
    exact hs.messages msg' (hflight.mem_iff.mp hmsg)
  · intro msg' h
    cases h
  · intro i
    rw [State.messagesOf, hflight.countP_eq, State.messagesOf]
  · rw [State.outstanding, hflight.countP_eq, State.outstanding]

/-- The parent sends the last message. -/
theorem Flight.parentSends {s : State cfg} (hs : Flight s) :
    Flight { s with queue := s.queue ++ [quit cfg], parent := .exited } := by
  have hflight : (State.flight { s with queue := s.queue ++ [quit cfg], parent := .exited }).Perm
      (quit cfg :: s.flight) := by
    rw [State.flight, State.flight, ← List.append_assoc]
    exact List.perm_append_singleton ..
  refine hs.of_flight rfl rfl ?_ hs.held ?_ ?_
  · intro msg hmsg
    rcases List.mem_cons.mp (hflight.mem_iff.mp hmsg) with rfl | hmsg
    · exact .inl rfl
    · exact hs.messages msg hmsg
  · intro i
    rw [messagesOf_cons hflight, owner_quit, if_neg (by simp), Nat.add_zero]
  · rw [outstanding_cons hflight, owner_quit, if_neg (by simp), Nat.add_zero]

end SysProg.Semaphore
