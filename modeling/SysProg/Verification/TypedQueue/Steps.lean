import SysProg.Model.TypedQueue

/-! # The steps of the child and the parent

As long as the parent asks for messages, the queue exists, and a step sends a message or receives
one. -/

namespace SysProg.TypedQueue

open Message
open OneSender (Data Msg)

variable {program : Program} {capacity : ℕ} {queue : List Msg} {child : Child} {i : ℤ}
  {received : List (ℤ × Msg)}

/-- The steps while the parent is in its loop. -/
inductive LoopStep (program : Program) (capacity : ℕ) (queue : List Msg) (i : ℤ)
    (received : List (ℤ × Msg)) : Child → State → Prop
  | send (j : ℕ) (hj : j < N) (hroom : queue.length < capacity) :
      LoopStep program capacity queue i received (.sending j)
        ⟨some (queue ++ [message program j]), .sending (j + 1), .receiving i received⟩
  | sentAll (j : ℕ) (hj : N ≤ j) :
      LoopStep program capacity queue i received (.sending j)
        ⟨some queue, .quitting, .receiving i received⟩
  | sendQuit (hroom : queue.length < capacity) :
      LoopStep program capacity queue i received .quitting
        ⟨some (queue ++ [quit program]), .exited, .receiving i received⟩
  | leave (child : Child) (hlast : program.last.any (i < ·) = true) :
      LoopStep program capacity queue i received child
        ⟨some queue, child, .terminating received⟩
  | receive (child : Child) (msg : Msg) (rest : List Msg)
      (hlast : program.last.any (i < ·) = false)
      (hmsg : msgrcvTyp (program.msgtyp i) queue = some (msg, rest)) (hc : msg.data.c ≠ 'Q') :
      LoopStep program capacity queue i received child
        ⟨some rest, child, .receiving (i - 1) (received ++ [(i, msg)])⟩
  | receiveQuit (child : Child) (msg : Msg) (rest : List Msg)
      (hlast : program.last.any (i < ·) = false)
      (hmsg : msgrcvTyp (program.msgtyp i) queue = some (msg, rest)) (hc : msg.data.c = 'Q') :
      LoopStep program capacity queue i received child
        ⟨some rest, child, .terminating (received ++ [(i, msg)])⟩

theorem childStep_loop {t : State}
    (h : childStep program capacity ⟨some queue, child, .receiving i received⟩ = some t) :
    LoopStep program capacity queue i received child t := by
  cases child with
  | sending j =>
      simp only [childStep, State.send] at h
      split at h
      · next hj =>
          obtain ⟨queue', hqueue', rfl⟩ := Option.map_eq_some_iff.mp h
          obtain ⟨hroom, rfl⟩ := msgsnd_eq_some.mp hqueue'
          exact .send j hj hroom
      · next hj =>
          obtain rfl := Option.some.inj h
          exact .sentAll j (Nat.le_of_not_lt hj)
  | quitting =>
      obtain ⟨queue', hqueue', rfl⟩ := Option.map_eq_some_iff.mp h
      obtain ⟨hroom, rfl⟩ := msgsnd_eq_some.mp hqueue'
      exact .sendQuit hroom
  | exited | failed => cases h

theorem parentStep_loop {t : State}
    (h : parentStep program ⟨some queue, child, .receiving i received⟩ = some t) :
    LoopStep program capacity queue i received child t := by
  simp only [parentStep] at h
  split at h
  · next hlast =>
      obtain rfl := Option.some.inj h
      exact .leave child hlast
  · next hlast =>
      rw [Bool.not_eq_true] at hlast
      obtain ⟨queue', hqueue', h⟩ := Option.bind_eq_some_iff.mp h
      obtain rfl := Option.some.inj hqueue'
      obtain ⟨⟨msg, rest⟩, hmsg, h⟩ := Option.bind_eq_some_iff.mp h
      split at h
      · next hc =>
          obtain rfl := Option.some.inj h
          exact .receiveQuit child msg rest hlast hmsg hc
      · next hc =>
          obtain rfl := Option.some.inj h
          exact .receive child msg rest hlast hmsg hc

theorem loopStep_iff {t : State} :
    Step program capacity ⟨some queue, child, .receiving i received⟩ t ↔
      LoopStep program capacity queue i received child t := by
  constructor
  · rintro ⟨- | -, h⟩
    · exact childStep_loop h
    · exact parentStep_loop h
  · intro h
    cases h with
    | send j hj hroom =>
        exact ⟨.child, by simp [step, childStep, State.send, msgsnd, hj, hroom]⟩
    | sentAll j hj => exact ⟨.child, by simp [step, childStep, hj.not_gt]⟩
    | sendQuit hroom => exact ⟨.child, by simp [step, childStep, State.send, msgsnd, hroom]⟩
    | leave child hlast => exact ⟨.parent, by simp [step, parentStep, hlast]⟩
    | receive child msg rest hlast hmsg hc =>
        exact ⟨.parent, by simp [step, parentStep, hlast, hmsg, hc]⟩
    | receiveQuit child msg rest hlast hmsg hc =>
        exact ⟨.parent, by simp [step, parentStep, hlast, hmsg, hc]⟩

/-- When the child has exited, the parent only has to remove the queue. -/
theorem step_terminating {queue : Option (List Msg)} {t : State} :
    Step program capacity ⟨queue, .exited, .terminating received⟩ t ↔
      t = ⟨none, .exited, .exited received⟩ := by
  constructor
  · rintro ⟨- | -, h⟩
    · cases h
    · exact (Option.some.inj h).symm
  · rintro rfl
    exact ⟨.parent, rfl⟩

theorem not_step_exited {queue : Option (List Msg)} {t : State} :
    ¬ Step program capacity ⟨queue, .exited, .exited received⟩ t := by
  rintro ⟨- | -, h⟩ <;> cases h

/-- How many squares the child has sent. -/
def Child.sent : Child → ℕ
  | .sending i => i
  | .quitting | .exited | .failed => N

/-- The last message, if the child has sent it. -/
def quits (program : Program) : Child → List Msg
  | .exited => [quit program]
  | .sending _ | .quitting | .failed => []

/-- The squares from `k` up to `s`. -/
def squares (program : Program) (k s : ℕ) : List Msg :=
  (List.range' k (s - k)).map (message program)

@[simp] theorem squares_length (k s : ℕ) : (squares program k s).length = s - k := by
  simp [squares]

theorem squares_succ {k s : ℕ} (h : k ≤ s) :
    squares program k (s + 1) = squares program k s ++ [message program s] := by
  rw [squares, Nat.sub_add_comm h, List.range'_1_concat, List.map_append, Nat.add_sub_cancel' h]
  rfl

theorem squares_cons {k s : ℕ} (h : k < s) :
    squares program k s = message program k :: squares program (k + 1) s := by
  rw [squares, squares, ← Nat.succ_pred_eq_of_pos (Nat.sub_pos_of_lt h), List.range'_succ]
  rfl

theorem mem_squares {k s : ℕ} {msg : Msg} (h : msg ∈ squares program k s) :
    ∃ j, k ≤ j ∧ j < s ∧ msg = message program j := by
  obtain ⟨j, hj, rfl⟩ := List.mem_map.mp h
  rw [List.mem_range'_1] at hj
  exact ⟨j, hj.1, by omega, rfl⟩

/-- The steps that the processes have left. -/
def rank (s : State) : ℕ :=
  (match s.child with
    | .sending i => N - i + 2
    | .quitting => 1
    | .exited | .failed => 0) +
  match s.parent with
    | .receiving _ received => N + 2 - received.length
    | .terminating _ => 1
    | .exited _ => 0

/-- The parent has got so many messages, the square `order j` in the turn `j`. -/
def receivedBy (program : Program) (order : ℕ → ℕ) (k : ℕ) : List (ℤ × Msg) :=
  (List.range k).map fun (j : ℕ) => (program.first - j, message program (order j))

@[simp] theorem receivedBy_length (order : ℕ → ℕ) (k : ℕ) :
    (receivedBy program order k).length = k := by
  simp [receivedBy]

theorem receivedBy_succ (order : ℕ → ℕ) (k : ℕ) :
    receivedBy program order (k + 1) =
      receivedBy program order k ++ [(program.first - k, message program (order k))] := by
  rw [receivedBy, List.range_succ, List.map_append]
  rfl

/-- All that the parent has got, when `'Q'` has come after so many squares. -/
def allReceived (program : Program) (order : ℕ → ℕ) (k : ℕ) : List (ℤ × Msg) :=
  receivedBy program order k ++ [(program.first - k, quit program)]

end SysProg.TypedQueue
