import Mathlib

/-! # Message queues

A queue of messages that have types. It has room for a number of messages, and the messages of
one type leave it in the order in which they have been sent. -/

namespace SysProg

structure Message (δ : Type*) where
  type : ℤ
  data : δ
  deriving DecidableEq, Repr

namespace Message

variable {δ : Type*}

/-- Append a message to the queue. It blocks while the queue is full. -/
def msgsnd (capacity : ℕ) (queue : List (Message δ)) (msg : Message δ) :
    Option (List (Message δ)) :=
  if queue.length < capacity then some (queue ++ [msg]) else none

/-- Take the first message of a type. It blocks while there is none. -/
def msgrcv (type : ℤ) : List (Message δ) → Option (Message δ × List (Message δ))
  | [] => none
  | msg :: queue =>
      if msg.type = type then some (msg, queue)
      else (msgrcv type queue).map fun received => (received.1, msg :: received.2)

/-- The first message if `msgtyp` is 0, the first one of the type if it is positive, and the first
one of the lowest type up to `-msgtyp` if it is negative. -/
def msgrcvTyp (msgtyp : ℤ) (queue : List (Message δ)) : Option (Message δ × List (Message δ)) :=
  if msgtyp = 0 then queue.head?.map fun msg => (msg, queue.tail)
  else if 0 < msgtyp then msgrcv msgtyp queue
  else ((queue.map Message.type).filter (· ≤ -msgtyp)).min?.bind fun type => msgrcv type queue

/-- The messages of a type that are in a queue. -/
def ofType (type : ℤ) (queue : List (Message δ)) : List (Message δ) :=
  queue.filter fun msg => msg.type = type

variable {type type' : ℤ} {queue rest : List (Message δ)} {msg : Message δ} {capacity : ℕ}

theorem msgsnd_eq_some : msgsnd capacity queue msg = some rest ↔
    queue.length < capacity ∧ rest = queue ++ [msg] := by
  unfold msgsnd
  constructor
  · intro h
    obtain ⟨hlt, h⟩ := Option.ite_none_right_eq_some.mp h
    exact ⟨hlt, (Option.some.inj h).symm⟩
  · intro ⟨hlt, hrest⟩
    rw [if_pos hlt, hrest]

theorem msgrcv_eq_none : msgrcv type queue = none ↔ ∀ msg ∈ queue, msg.type ≠ type := by
  induction queue with
  | nil => simp [msgrcv]
  | cons head queue ih =>
      rw [msgrcv]
      by_cases htype : head.type = type
      · simp [htype]
      · simp [htype, ih]

/-- A message that is received leaves the others as they are. -/
theorem msgrcv_perm (h : msgrcv type queue = some (msg, rest)) :
    msg.type = type ∧ queue.Perm (msg :: rest) := by
  induction queue generalizing rest with
  | nil => cases h
  | cons head queue ih =>
      rw [msgrcv] at h
      split at h
      · next htype =>
          obtain ⟨rfl, rfl⟩ := Prod.mk.inj (Option.some.inj h)
          exact ⟨htype, .refl _⟩
      · obtain ⟨⟨msg', rest'⟩, hreceived, heq⟩ := Option.map_eq_some_iff.mp h
        obtain ⟨rfl, rfl⟩ := Prod.mk.inj heq
        obtain ⟨htype, hperm⟩ := ih hreceived
        exact ⟨htype, (hperm.cons head).trans (.swap msg' head rest')⟩

/-- It is the first one of its type. -/
theorem msgrcv_ofType (h : msgrcv type queue = some (msg, rest)) :
    ofType type queue = msg :: ofType type rest ∧
      ∀ type', type' ≠ type → ofType type' rest = ofType type' queue := by
  induction queue generalizing rest with
  | nil => cases h
  | cons head queue ih =>
      rw [msgrcv] at h
      split at h
      · next htype =>
          obtain ⟨rfl, rfl⟩ := Prod.mk.inj (Option.some.inj h)
          refine ⟨by simp [ofType, htype], ?_⟩
          intro type' hne
          simp [ofType, htype, hne.symm]
      · next htype =>
          obtain ⟨⟨msg', rest'⟩, hreceived, heq⟩ := Option.map_eq_some_iff.mp h
          obtain ⟨rfl, rfl⟩ := Prod.mk.inj heq
          obtain ⟨hfirst, hother⟩ := ih hreceived
          refine ⟨?_, ?_⟩
          · simpa [ofType, htype] using hfirst
          · intro type' hne
            have := hother type' hne
            simp only [ofType, List.filter_cons] at this ⊢
            rw [this]

theorem msgrcv_cons (queue : List (Message δ)) (h : msg.type = type) :
    msgrcv type (msg :: queue) = some (msg, queue) := by
  rw [msgrcv, if_pos h]

theorem msgrcv_append_cons (hqueue : ∀ msg ∈ queue, msg.type ≠ type) (h : msg.type = type)
    (rest : List (Message δ)) :
    msgrcv type (queue ++ msg :: rest) = some (msg, queue ++ rest) := by
  induction queue with
  | nil => exact msgrcv_cons rest h
  | cons head queue ih =>
      rw [List.forall_mem_cons] at hqueue
      rw [List.cons_append, msgrcv, if_neg hqueue.1, ih hqueue.2]
      rfl

theorem msgrcvTyp_of_pos {msgtyp : ℤ} (h : 0 < msgtyp) (queue : List (Message δ)) :
    msgrcvTyp msgtyp queue = msgrcv msgtyp queue := by
  rw [msgrcvTyp, if_neg h.ne', if_pos h]

/-- With a negative type it waits while all types are above. -/
theorem msgrcvTyp_eq_none {msgtyp : ℤ} (h : msgtyp < 0) :
    msgrcvTyp msgtyp queue = none ↔ ∀ msg ∈ queue, -msgtyp < msg.type := by
  rw [msgrcvTyp, if_neg h.ne, if_neg h.not_gt, Option.bind_eq_none_iff]
  constructor
  · intro hnone msg hmsg
    by_contra hle
    have hmem : msg.type ∈ (queue.map Message.type).filter (· ≤ -msgtyp) :=
      List.mem_filter.mpr ⟨List.mem_map_of_mem hmsg, by simpa using hle⟩
    obtain ⟨lowest, hlowest⟩ := Option.isSome_iff_exists.mp (List.isSome_min?_of_mem hmem)
    have hin := (List.min?_eq_some_iff.mp hlowest).1
    obtain ⟨msg', hmsg', htype⟩ := List.mem_map.mp (List.mem_filter.mp hin).1
    exact msgrcv_eq_none.mp (hnone lowest hlowest) msg' hmsg' htype
  · intro hall lowest hlowest
    have hin := List.mem_filter.mp (List.min?_eq_some_iff.mp hlowest).1
    obtain ⟨msg', hmsg', rfl⟩ := List.mem_map.mp hin.1
    have hlt := hall msg' hmsg'
    have hle : msg'.type ≤ -msgtyp := by simpa using hin.2
    omega

/-- With a negative type it takes the first message of the lowest type. -/
theorem msgrcvTyp_of_neg {msgtyp : ℤ} (h : msgtyp < 0)
    (hreceived : msgrcvTyp msgtyp queue = some (msg, rest)) :
    msg.type ≤ -msgtyp ∧ (∀ msg' ∈ queue, msg.type ≤ msg'.type) ∧
      msgrcv msg.type queue = some (msg, rest) := by
  rw [msgrcvTyp, if_neg h.ne, if_neg h.not_gt] at hreceived
  obtain ⟨lowest, hlowest, hreceived⟩ := Option.bind_eq_some_iff.mp hreceived
  obtain ⟨hin, hleast⟩ := List.min?_eq_some_iff.mp hlowest
  have htype := (msgrcv_perm hreceived).1
  subst htype
  have hle : msg.type ≤ -msgtyp := by simpa using (List.mem_filter.mp hin).2
  refine ⟨hle, ?_, hreceived⟩
  intro msg' hmsg'
  by_cases hbound : msg'.type ≤ -msgtyp
  · exact hleast _ (List.mem_filter.mpr ⟨List.mem_map_of_mem hmsg', by simpa using hbound⟩)
  · omega

theorem ofType_append_self (queue : List (Message δ)) (h : msg.type = type) :
    ofType type (queue ++ [msg]) = ofType type queue ++ [msg] := by
  simp [ofType, h]

theorem ofType_append_of_ne (queue : List (Message δ)) (h : msg.type ≠ type) :
    ofType type (queue ++ [msg]) = ofType type queue := by
  simp [ofType, h]

end Message

end SysProg
