import SysProg.Verification.TypedQueue.Plans

/-! # What the parents get

The size of the queue decides if a program ends. `msgqueue.c` needs room for one message. The parent
of `msgqueue-positive-typed.c` starts with the last square, so that all of them must have room. The
parent of `msgqueue-negative-typed.c` takes 25 squares, and `'Q'` has to come before it goes on. -/

namespace SysProg.TypedQueue

open Message
open OneSender (Data Msg)

variable {capacity : ℕ}

/-! ## In the order of sending -/

/-- The messages that are sent and not yet received. -/
def waiting (program : Program) (k : ℕ) (child : Child) : List Msg :=
  squares program k child.sent ++ quits program child

theorem waiting_length (program : Program) (k : ℕ) (child : Child) :
    (waiting program k child).length = child.sent - k + (quits program child).length := by
  rw [waiting, List.length_append, squares_length]

theorem waiting_send {program : Program} {k j : ℕ} (h : k ≤ j) :
    waiting program k (.sending (j + 1)) = waiting program k (.sending j) ++ [message program j] := by
  simp [waiting, quits, Child.sent, squares_succ h]

theorem waiting_sendQuit (program : Program) (k : ℕ) :
    waiting program k .exited = waiting program k .quitting ++ [quit program] := by
  simp [waiting, quits, Child.sent]

/-- The next message is a square, or the last one. -/
theorem waiting_cases (program : Program) {k : ℕ} {child : Child} (hk : k ≤ child.sent)
    (hfailed : child ≠ .failed) :
    k < child.sent ∧ waiting program k child = message program k :: waiting program (k + 1) child ∨
    k = N ∧ child = .exited ∧ waiting program k child = [quit program] ∨
    k = child.sent ∧ child ≠ .exited ∧ waiting program k child = [] := by
  rcases Nat.lt_or_eq_of_le hk with hlt | heq
  · left
    exact ⟨hlt, by rw [waiting, squares_cons hlt, List.cons_append, waiting]⟩
  · right
    subst heq
    cases child with
    | exited => exact .inl ⟨rfl, rfl, by simp [waiting, quits, squares]⟩
    | failed => exact absurd rfl hfailed
    | sending j => exact .inr ⟨rfl, by simp, by simp [waiting, quits, squares]⟩
    | quitting => exact .inr ⟨rfl, by simp, by simp [waiting, quits, squares]⟩

/-- The child has sent at least what has been received, and not more than all. -/
def Sent (k : ℕ) (child : Child) : Prop :=
  k ≤ child.sent ∧ child.sent ≤ N ∧ child ≠ .failed

theorem Sent.send {k j : ℕ} (h : Sent k (.sending j)) (hj : j < N) :
    Sent k (.sending (j + 1)) :=
  ⟨Nat.le_succ_of_le h.1, hj, nofun⟩

theorem Sent.sentAll {k j : ℕ} (h : Sent k (.sending j)) (_ : N ≤ j) : Sent k .quitting :=
  ⟨h.1.trans h.2.1, le_rfl, nofun⟩

theorem Sent.sendQuit {k : ℕ} (h : Sent k .quitting) : Sent k .exited :=
  ⟨h.1, le_rfl, nofun⟩

theorem waiting_sentAll {program : Program} {k j : ℕ} (h : Sent k (.sending j)) (hj : N ≤ j) :
    waiting program k .quitting = waiting program k (.sending j) := by
  have hj : j = N := le_antisymm h.2.1 hj
  simp [waiting, quits, Child.sent, hj]

theorem mem_waiting {program : Program} {k : ℕ} {child : Child} {msg : Msg}
    (h : msg ∈ waiting program k child) :
    (∃ j, k ≤ j ∧ j < child.sent ∧ msg = message program j) ∨
      (child = .exited ∧ msg = quit program) := by
  rcases List.mem_append.mp h with h | h
  · exact .inl (mem_squares h)
  · cases child with
    | exited => exact .inr ⟨rfl, List.mem_singleton.mp h⟩
    | sending | quitting | failed => cases h

theorem quit_mem_waiting (program : Program) (k : ℕ) :
    quit program ∈ waiting program k .exited := by
  rw [waiting_sendQuit]
  exact List.mem_append_right _ (List.mem_singleton_self _)

theorem quits_eq_nil {program : Program} {child : Child} (h : child ≠ .exited) :
    quits program child = [] := by
  cases child with
  | exited => exact absurd rfl h
  | sending | quitting | failed => rfl

/-! ## `msgqueue.c` -/

/-- Nothing can be sent if the queue has no room at all. -/
def Fifo (capacity k : ℕ) (child : Child) : Prop :=
  Sent k child ∧ (0 < child.sent → 0 < capacity)

theorem Fifo.receive {k : ℕ} {child : Child} (h : Fifo capacity k child) {msg : Msg}
    {rest : List Msg}
    (hmsg : msgrcvTyp (msgqueue.msgtyp (msgqueue.first - k)) (waiting msgqueue k child) =
      some (msg, rest)) :
    (msg = message msgqueue k ∧ Fifo capacity (k + 1) child ∧
      rest = waiting msgqueue (k + 1) child) ∨
    (msg = quit msgqueue ∧ child = .exited ∧ k = N ∧ 0 < capacity) := by
  obtain ⟨hsent, hcapacity⟩ := h
  change msgrcvTyp 10 _ = _ at hmsg
  rw [msgrcvTyp_of_pos (by decide)] at hmsg
  rcases waiting_cases msgqueue hsent.1 hsent.2.2 with
    ⟨hlt, hqueue⟩ | ⟨hk, hchild, hqueue⟩ | ⟨-, -, hqueue⟩
  · rw [hqueue, msgrcv_cons _ (show (message msgqueue k).type = 10 from rfl)] at hmsg
    obtain ⟨rfl, rfl⟩ := Prod.mk.inj (Option.some.inj hmsg)
    exact .inl ⟨rfl, ⟨⟨hlt, hsent.2⟩, hcapacity⟩, rfl⟩
  · rw [hqueue, msgrcv_cons _ (show (quit msgqueue).type = 10 from rfl)] at hmsg
    obtain ⟨rfl, rfl⟩ := Prod.mk.inj (Option.some.inj hmsg)
    subst hchild
    exact .inr ⟨rfl, rfl, hk, hcapacity (by decide)⟩
  · rw [hqueue] at hmsg
    cases hmsg

/-- The parent gets all squares in the order of sending, and then `'Q'`. -/
def fifo (capacity : ℕ) : Plan msgqueue capacity where
  order j := j
  queue := waiting msgqueue
  Running := Fifo capacity
  final k := k = N ∧ 0 < capacity
  queue_start := rfl
  running_start := ⟨⟨le_rfl, Nat.zero_le N, nofun⟩, nofun⟩
  running_le h := h.1.1.trans h.1.2.1
  stays _ := rfl
  send h hj hroom := ⟨⟨h.1.send hj, fun _ => Nat.zero_lt_of_lt hroom⟩, waiting_send h.1.1⟩
  sentAll h hj := ⟨⟨h.1.sentAll hj, fun _ => h.2 (Nat.zero_lt_of_lt hj)⟩,
    waiting_sentAll h.1 hj⟩
  sendQuit h hroom := ⟨⟨h.1.sendQuit, fun _ => Nat.zero_lt_of_lt hroom⟩,
    waiting_sendQuit msgqueue _⟩
  receive h hmsg := h.receive hmsg

theorem msgqueue_leads_iff :
    Leads (Step msgqueue capacity) Plan.ParentExited (start msgqueue) ↔ 0 < capacity := by
  constructor
  · intro h
    obtain ⟨k, -, hcapacity⟩ := (fifo capacity).final_of_leads h
    exact hcapacity
  · intro hcapacity
    apply (fifo capacity).leads
    intro k child h
    by_cases hempty : waiting msgqueue k child = []
    · cases child with
      | sending j => exact .inr (.inl ⟨nofun, nofun, by simpa [fifo, hempty] using hcapacity⟩)
      | quitting => exact .inr (.inl ⟨nofun, nofun, by simpa [fifo, hempty] using hcapacity⟩)
      | exited =>
          rw [waiting_sendQuit] at hempty
          simp at hempty
      | failed => exact absurd rfl h.1.2.2
    · right
      right
      obtain ⟨msg, hmsg⟩ := List.exists_mem_of_ne_nil _ hempty
      change msgrcvTyp 10 _ ≠ none
      rw [msgrcvTyp_of_pos (by decide), Ne, msgrcv_eq_none]
      intro hall
      apply hall msg hmsg
      rcases mem_waiting hmsg with ⟨j, -, -, rfl⟩ | ⟨-, rfl⟩ <;> rfl

/-! ## `msgqueue-negative-typed.c` -/

/-- After 25 squares the parent asks for less than what the squares have. -/
def Lowest (capacity k : ℕ) (child : Child) : Prop :=
  Sent k child ∧ k ≤ 25 ∧ (child = .exited → N + 1 ≤ capacity + k)

theorem Lowest.pos {k : ℕ} (h : k ≤ 25) :
    msgqueueNegativeTyped.msgtyp (msgqueueNegativeTyped.first - k) < 0 := by
  change -(150 - k : ℤ) < 0
  omega

theorem Lowest.receive {k : ℕ} {child : Child} (h : Lowest capacity k child) {msg : Msg}
    {rest : List Msg}
    (hmsg : msgrcvTyp (msgqueueNegativeTyped.msgtyp (msgqueueNegativeTyped.first - k))
      (waiting msgqueueNegativeTyped k child) = some (msg, rest)) :
    (msg = message msgqueueNegativeTyped k ∧ Lowest capacity (k + 1) child ∧
      rest = waiting msgqueueNegativeTyped (k + 1) child) ∨
    (msg = quit msgqueueNegativeTyped ∧ child = .exited ∧ k ≤ 25 ∧ N + 1 ≤ capacity + k) := by
  obtain ⟨hsent, hk, hcapacity⟩ := h
  obtain ⟨hle, hleast, hmsg⟩ := msgrcvTyp_of_neg (Lowest.pos hk) hmsg
  change msg.type ≤ - -(150 - k : ℤ) at hle
  by_cases hchild : child = .exited
  · subst hchild
    right
    have htype : msg.type = 100 := by
      have hmem := (msgrcv_perm hmsg).2.mem_iff.mpr List.mem_cons_self
      rcases mem_waiting hmem with ⟨j, -, -, rfl⟩ | ⟨-, rfl⟩
      · have hlow := hleast _ (quit_mem_waiting msgqueueNegativeTyped k)
        change (j + 101 : ℤ) ≤ 100 at hlow
        omega
      · rfl
    have hsquares : ∀ msg ∈ waiting msgqueueNegativeTyped k .quitting, msg.type ≠ 100 := by
      intro msg hmem
      rcases mem_waiting hmem with ⟨j, -, -, rfl⟩ | ⟨hquitting, -⟩
      · change (j + 101 : ℤ) ≠ 100
        omega
      · cases hquitting
    rw [htype, waiting_sendQuit, msgrcv_append_cons hsquares rfl] at hmsg
    obtain ⟨rfl, -⟩ := Prod.mk.inj (Option.some.inj hmsg)
    exact ⟨rfl, rfl, hk, hcapacity rfl⟩
  · left
    rcases waiting_cases msgqueueNegativeTyped hsent.1 hsent.2.2 with
      ⟨hlt, hqueue⟩ | ⟨-, hexited, -⟩ | ⟨-, -, hqueue⟩
    · have htype : msg.type = (message msgqueueNegativeTyped k).type := by
        apply le_antisymm
        · exact hleast _ (by rw [hqueue]; exact List.mem_cons_self)
        · have hmem := (msgrcv_perm hmsg).2.mem_iff.mpr List.mem_cons_self
          rcases mem_waiting hmem with ⟨j, hj, -, rfl⟩ | ⟨hexited, -⟩
          · change (k + 101 : ℤ) ≤ j + 101
            omega
          · exact absurd hexited hchild
      rw [hqueue, htype, msgrcv_cons _ rfl] at hmsg
      obtain ⟨rfl, rfl⟩ := Prod.mk.inj (Option.some.inj hmsg)
      change (k + 101 : ℤ) ≤ - -(150 - k : ℤ) at hle
      exact ⟨rfl, ⟨⟨hlt, hsent.2⟩, by omega, fun h => absurd h hchild⟩, rfl⟩
    · exact absurd hexited hchild
    · rw [hqueue] at hmsg
      cases hmsg

/-- The parent gets up to 25 squares in the order of sending before it gets `'Q'`. -/
def lowest (capacity : ℕ) : Plan msgqueueNegativeTyped capacity where
  order j := j
  queue := waiting msgqueueNegativeTyped
  Running := Lowest capacity
  final k := k ≤ 25 ∧ N + 1 ≤ capacity + k
  queue_start := rfl
  running_start := ⟨⟨le_rfl, Nat.zero_le N, nofun⟩, Nat.zero_le 25, nofun⟩
  running_le h := h.1.1.trans h.1.2.1
  stays {k child} h := by
    have hk := h.2.1
    change decide ((150 - k : ℤ) < 50) = false
    rw [decide_eq_false_iff_not]
    omega
  send h hj _ := ⟨⟨h.1.send hj, h.2.1, nofun⟩, waiting_send h.1.1⟩
  sentAll h hj := ⟨⟨h.1.sentAll hj, h.2.1, nofun⟩, waiting_sentAll h.1 hj⟩
  sendQuit {k} h hroom := by
    rw [waiting_length] at hroom
    simp only [Child.sent, quits, List.length_nil] at hroom
    exact ⟨⟨h.1.sendQuit, h.2.1, fun _ => by omega⟩, waiting_sendQuit msgqueueNegativeTyped k⟩
  receive h hmsg := h.receive hmsg

/-- The next square is one that the parent asks for. -/
theorem Lowest.msgrcvTyp_ne_none {k : ℕ} {child : Child} (h : Lowest capacity k child)
    (hk : k < 25) (hlt : k < child.sent) :
    msgrcvTyp (msgqueueNegativeTyped.msgtyp (msgqueueNegativeTyped.first - k))
      (waiting msgqueueNegativeTyped k child) ≠ none := by
  rw [Ne, msgrcvTyp_eq_none (Lowest.pos h.2.1)]
  intro hall
  have hmem : message msgqueueNegativeTyped k ∈ waiting msgqueueNegativeTyped k child := by
    rw [waiting, squares_cons hlt]
    exact List.mem_cons_self
  have hlow := hall _ hmem
  change - -(150 - k : ℤ) < k + 101 at hlow
  omega

theorem msgqueueNegativeTyped_leads_iff :
    Leads (Step msgqueueNegativeTyped capacity) Plan.ParentExited (start msgqueueNegativeTyped) ↔
      76 ≤ capacity := by
  constructor
  · intro h
    obtain ⟨k, hk, hcapacity⟩ := (lowest capacity).final_of_leads h
    simp only [N] at hcapacity
    omega
  · intro hcapacity
    apply (lowest capacity).leads
    intro k child h
    have hle := h.1.2.1
    by_cases hchild : child = .exited
    · subst hchild
      right
      right
      rw [Ne, msgrcvTyp_eq_none (Lowest.pos h.2.1)]
      intro hall
      have hlow := hall _ (quit_mem_waiting msgqueueNegativeTyped k)
      change - -(150 - k : ℤ) < 100 at hlow
      have hk := h.2.1
      omega
    · right
      by_cases hroom : (waiting msgqueueNegativeTyped k child).length < capacity
      · exact .inl ⟨hchild, h.1.2.2, hroom⟩
      · -- a full queue holds more than the 75 squares that the parent does not ask for
        rw [waiting_length, quits_eq_nil hchild, List.length_nil] at hroom
        simp only [N] at hle
        exact .inr (h.msgrcvTyp_ne_none (by omega) (by omega))

/-! ## `msgqueue-positive-typed.c` -/

/-- The first square that the parent asks for is the last one. -/
def Highest (capacity k : ℕ) (child : Child) : Prop :=
  k ≤ N ∧ child.sent ≤ N ∧ child ≠ .failed ∧
    ((k = 0 ∧ child.sent ≤ capacity) ∨ (child.sent = N ∧ N ≤ capacity))

/-- The squares that wait are the first ones. -/
def firstSquares (k : ℕ) (child : Child) : List Msg :=
  squares msgqueuePositiveTyped 0 (child.sent - k) ++ quits msgqueuePositiveTyped child

theorem Highest.eq_zero {k : ℕ} {child : Child} (h : Highest capacity k child)
    (hsent : child.sent < N) : k = 0 := by
  rcases h.2.2.2 with ⟨hk, -⟩ | ⟨hall, -⟩
  · exact hk
  · exact absurd hall hsent.ne

theorem Highest.send {k j : ℕ} (h : Highest capacity k (.sending j)) (hj : j < N)
    (hroom : (firstSquares k (.sending j)).length < capacity) :
    Highest capacity k (.sending (j + 1)) ∧ firstSquares k (.sending (j + 1)) =
      firstSquares k (.sending j) ++ [message msgqueuePositiveTyped j] := by
  obtain rfl := h.eq_zero hj
  simp only [firstSquares, quits, Child.sent, Nat.sub_zero, List.append_nil,
    squares_length] at hroom ⊢
  exact ⟨⟨h.1, hj, nofun, .inl ⟨rfl, hroom⟩⟩, squares_succ (Nat.zero_le j)⟩

theorem Highest.sentAll {k j : ℕ} (h : Highest capacity k (.sending j)) (hj : N ≤ j) :
    Highest capacity k .quitting ∧ firstSquares k .quitting = firstSquares k (.sending j) := by
  obtain ⟨hk, hsent, -, hplan⟩ := h
  obtain rfl : j = N := le_antisymm hsent hj
  exact ⟨⟨hk, le_rfl, nofun, hplan⟩, rfl⟩

theorem Highest.sendQuit {k : ℕ} (h : Highest capacity k .quitting) :
    Highest capacity k .exited ∧ firstSquares k .exited =
      firstSquares k .quitting ++ [quit msgqueuePositiveTyped] := by
  obtain ⟨hk, -, -, hplan⟩ := h
  refine ⟨⟨hk, le_rfl, nofun, hplan⟩, ?_⟩
  simp [firstSquares, quits, Child.sent]

theorem msgqueuePositiveTyped_msgrcvTyp {k : ℕ} (hk : k ≤ N) (queue : List Msg) :
    msgrcvTyp (msgqueuePositiveTyped.msgtyp (msgqueuePositiveTyped.first - k)) queue =
      msgrcv (200 - k : ℤ) queue := by
  apply msgrcvTyp_of_pos
  change (0 : ℤ) < 200 - k
  simp only [N] at hk
  omega

/-- The squares before a square have other types. -/
theorem squares_type_ne {j : ℕ} {type : ℤ} (h : (j + 101 : ℤ) = type) :
    ∀ msg ∈ squares msgqueuePositiveTyped 0 j, msg.type ≠ type := by
  intro msg hmsg
  obtain ⟨j', -, hj', rfl⟩ := mem_squares hmsg
  change (j' + 101 : ℤ) ≠ type
  omega

/-- A square that the parent asks for is the last one that waits. -/
theorem msgrcv_firstSquares {k : ℕ} {child : Child} (hsent : child.sent = N) (hk : k < N) :
    msgrcv (200 - k : ℤ) (firstSquares k child) =
      some (message msgqueuePositiveTyped (N - 1 - k), firstSquares (k + 1) child) := by
  have htype : ((N - 1 - k : ℕ) + 101 : ℤ) = 200 - k := by
    simp only [N] at hk ⊢
    omega
  have hsucc : N - k = N - 1 - k + 1 := by omega
  have hpred : N - (k + 1) = N - 1 - k := by omega
  rw [firstSquares, hsent, hsucc, squares_succ (Nat.zero_le _), List.append_assoc,
    List.singleton_append, msgrcv_append_cons (squares_type_ne htype) htype, firstSquares, hsent,
    hpred]

/-- After all squares the parent asks for the type of `'Q'`. -/
theorem msgrcv_firstSquares_all {child : Child} (hsent : child.sent = N) :
    msgrcv (200 - N : ℤ) (firstSquares N child) =
      if child = .exited then some (quit msgqueuePositiveTyped, []) else none := by
  rw [firstSquares, hsent, Nat.sub_self]
  split
  · next hchild =>
      subst hchild
      rfl
  · next hchild =>
      rw [quits_eq_nil hchild]
      rfl

theorem Highest.receive {k : ℕ} {child : Child} (h : Highest capacity k child) {msg : Msg}
    {rest : List Msg}
    (hmsg : msgrcvTyp (msgqueuePositiveTyped.msgtyp (msgqueuePositiveTyped.first - k))
      (firstSquares k child) = some (msg, rest)) :
    (msg = message msgqueuePositiveTyped (N - 1 - k) ∧ Highest capacity (k + 1) child ∧
      rest = firstSquares (k + 1) child) ∨
    (msg = quit msgqueuePositiveTyped ∧ child = .exited ∧ k = N ∧ N ≤ capacity) := by
  have hk := h.1
  rw [msgqueuePositiveTyped_msgrcvTyp hk] at hmsg
  by_cases hsent : child.sent = N
  · have hcapacity : N ≤ capacity := by
      rcases h.2.2.2 with ⟨-, hle⟩ | ⟨-, hle⟩
      · exact hsent ▸ hle
      · exact hle
    rcases Nat.lt_or_eq_of_le hk with hlt | rfl
    · rw [msgrcv_firstSquares hsent hlt] at hmsg
      obtain ⟨rfl, rfl⟩ := Prod.mk.inj (Option.some.inj hmsg)
      exact .inl ⟨rfl, ⟨hlt, h.2.1, h.2.2.1, .inr ⟨hsent, hcapacity⟩⟩, rfl⟩
    · rw [msgrcv_firstSquares_all hsent, Option.ite_none_right_eq_some] at hmsg
      obtain ⟨hexited, hmsg⟩ := hmsg
      obtain ⟨rfl, -⟩ := Prod.mk.inj (Option.some.inj hmsg)
      exact .inr ⟨rfl, hexited, rfl, hcapacity⟩
  · -- the last square has not been sent
    exfalso
    have hlt : child.sent < N := lt_of_le_of_ne h.2.1 hsent
    obtain rfl := h.eq_zero hlt
    have hchild : child ≠ .exited := by
      rintro rfl
      exact hsent rfl
    rw [firstSquares, quits_eq_nil hchild, List.append_nil] at hmsg
    obtain ⟨htype, hperm⟩ := msgrcv_perm hmsg
    obtain ⟨j, -, hj, rfl⟩ := mem_squares (hperm.mem_iff.mpr List.mem_cons_self)
    change (j + 101 : ℤ) = 200 - (0 : ℕ) at htype
    simp only [N] at hlt
    omega

/-- The parent gets all squares, the last one first, and then `'Q'`. -/
def highest (capacity : ℕ) : Plan msgqueuePositiveTyped capacity where
  order j := N - 1 - j
  queue := firstSquares
  Running := Highest capacity
  final k := k = N ∧ N ≤ capacity
  queue_start := rfl
  running_start := ⟨Nat.zero_le N, Nat.zero_le N, nofun, .inl ⟨rfl, Nat.zero_le capacity⟩⟩
  running_le h := h.1
  stays {k child} h := by
    have hk := h.1
    simp only [N] at hk
    change decide ((200 - k : ℤ) < 100) = false
    rw [decide_eq_false_iff_not]
    omega
  send h hj hroom := h.send hj hroom
  sentAll h hj := h.sentAll hj
  sendQuit h _ := h.sendQuit
  receive h hmsg := h.receive hmsg

theorem msgqueuePositiveTyped_leads_iff :
    Leads (Step msgqueuePositiveTyped capacity) Plan.ParentExited (start msgqueuePositiveTyped) ↔
      N ≤ capacity := by
  constructor
  · intro h
    obtain ⟨k, -, hcapacity⟩ := (highest capacity).final_of_leads h
    exact hcapacity
  · intro hcapacity
    apply (highest capacity).leads
    intro k child h
    by_cases hsent : child.sent = N
    · right
      rcases Nat.lt_or_eq_of_le h.1 with hlt | rfl
      · right
        rw [msgqueuePositiveTyped_msgrcvTyp h.1]
        change msgrcv _ (firstSquares k child) ≠ none
        rw [msgrcv_firstSquares hsent hlt]
        exact nofun
      · by_cases hchild : child = .exited
        · right
          rw [msgqueuePositiveTyped_msgrcvTyp le_rfl]
          change msgrcv _ (firstSquares N child) ≠ none
          rw [msgrcv_firstSquares_all hsent, if_pos hchild]
          exact nofun
        · left
          refine ⟨hchild, h.2.2.1, ?_⟩
          change (firstSquares N child).length < capacity
          rw [firstSquares, quits_eq_nil hchild, hsent, Nat.sub_self]
          exact hcapacity.trans_lt' (by decide)
    · right
      left
      have hlt : child.sent < N := lt_of_le_of_ne h.2.1 hsent
      obtain rfl := h.eq_zero hlt
      have hchild : child ≠ .exited := by
        rintro rfl
        exact hsent rfl
      refine ⟨hchild, h.2.2.1, ?_⟩
      change (firstSquares 0 child).length < capacity
      rw [firstSquares, quits_eq_nil hchild, List.append_nil, squares_length]
      omega

/-! ## The three programs -/

/-- The parent exits in every run if and only if the queue has room for so many messages. -/
theorem typed_parents_exit_iff (capacity : ℕ) :
    (Leads (Step msgqueue capacity) Plan.ParentExited (start msgqueue) ↔ 0 < capacity) ∧
    (Leads (Step msgqueuePositiveTyped capacity) Plan.ParentExited (start msgqueuePositiveTyped) ↔
      100 ≤ capacity) ∧
    (Leads (Step msgqueueNegativeTyped capacity) Plan.ParentExited (start msgqueueNegativeTyped) ↔
      76 ≤ capacity) :=
  ⟨msgqueue_leads_iff, msgqueuePositiveTyped_leads_iff, msgqueueNegativeTyped_leads_iff⟩

/-- Whenever the parent exits, the child has sent all, and the parent has got `'Q'` after all
squares, or after the first ones if it asks for the lowest type. -/
theorem typed_parents_receive (capacity : ℕ) :
    Always (Step msgqueue capacity)
      (fun s => ∀ received, s.parent = .exited received →
        s.child = .exited ∧ received = allReceived msgqueue id 100) (start msgqueue) ∧
    Always (Step msgqueuePositiveTyped capacity)
      (fun s => ∀ received, s.parent = .exited received →
        s.child = .exited ∧ received = allReceived msgqueuePositiveTyped (99 - ·) 100)
      (start msgqueuePositiveTyped) ∧
    Always (Step msgqueueNegativeTyped capacity)
      (fun s => ∀ received, s.parent = .exited received → s.child = .exited ∧
        ∃ k, k ≤ 25 ∧ 101 ≤ capacity + k ∧ received = allReceived msgqueueNegativeTyped id k)
      (start msgqueueNegativeTyped) := by
  refine ⟨?_, ?_, ?_⟩
  · intro s hrun received hexited
    obtain ⟨hchild, k, ⟨rfl, -⟩, hreceived⟩ :=
      (fifo capacity).always_receives s hrun received hexited
    exact ⟨hchild, hreceived⟩
  · intro s hrun received hexited
    obtain ⟨hchild, k, ⟨rfl, -⟩, hreceived⟩ :=
      (highest capacity).always_receives s hrun received hexited
    exact ⟨hchild, hreceived⟩
  · intro s hrun received hexited
    obtain ⟨hchild, k, ⟨hk, hcapacity⟩, hreceived⟩ :=
      (lowest capacity).always_receives s hrun received hexited
    exact ⟨hchild, k, hk, hcapacity, hreceived⟩

end SysProg.TypedQueue
