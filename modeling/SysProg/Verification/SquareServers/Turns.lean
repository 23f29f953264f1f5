import SysProg.Model.SquareServers
import SysProg.Verification.SquareClient.Pieces

/-! # The turns of a handler

A handler answers each message until its client breaks off, or the answer that `send` takes has
another size than the message. -/

namespace SysProg.SquareServers

open Transmission ByteStream SquareClient

variable {peer : Peer} {k : ℕ} {squareBuffer : List (Option UInt8)} {pieces : List Bytes}

theorem receive_flatten_lt {pieces : List Bytes} (h : (receive (RCVBUFSIZE - 1) pieces).1 ≠ []) :
    (receive (RCVBUFSIZE - 1) pieces).2.flatten.length < pieces.flatten.length := by
  have hpos := List.length_pos_iff.mpr h
  have hsplit := congrArg List.length (receive_append (RCVBUFSIZE - 1) pieces)
  rw [List.length_append] at hsplit
  omega

/-- What `recv` gets one after the other. -/
def messages (pieces : List Bytes) : List Bytes :=
  if _ : (receive (RCVBUFSIZE - 1) pieces).1 = [] then []
  else (receive (RCVBUFSIZE - 1) pieces).1 :: messages (receive (RCVBUFSIZE - 1) pieces).2
termination_by pieces.flatten.length
decreasing_by exact receive_flatten_lt ‹_›

/-- The answer after `k` others is taken, with as many bytes as the message has. -/
def Peer.Takes (peer : Peer) (k : ℕ) (message : Bytes) : Prop :=
  (peer.send k).map (min ·.val 12) = some message.length

/-- The buffer is long enough for all that is stored there. -/
theorem turn_cases (peer : Peer) (k : ℕ) (hbuffer : squareBuffer.length = RCVBUFSIZE)
    (pieces : List Bytes) :
    ((receive (RCVBUFSIZE - 1) pieces).1 = [] ∧
      turn peer k squareBuffer pieces = .last [] peer.ending.outcome) ∨
    ((receive (RCVBUFSIZE - 1) pieces).1 ≠ [] ∧
      ¬ peer.Takes k (receive (RCVBUFSIZE - 1) pieces).1 ∧
      ∃ sent e, turn peer k squareBuffer pieces = .last sent (.exits e) ∧
        (sent = [] ↔ peer.send k = none)) ∨
    ((receive (RCVBUFSIZE - 1) pieces).1 ≠ [] ∧
      peer.Takes k (receive (RCVBUFSIZE - 1) pieces).1 ∧
      ∃ text squareBuffer', squareBuffer'.length = RCVBUFSIZE ∧ turn peer k squareBuffer pieces =
        .next text squareBuffer' (receive (RCVBUFSIZE - 1) pieces).2) := by
  have hle := receive_length_le (RCVBUFSIZE - 1) pieces
  rw [turn]
  generalize receive (RCVBUFSIZE - 1) pieces = received at hle ⊢
  obtain ⟨message, rest⟩ := received
  dsimp only at hle ⊢
  by_cases hmessage : message = []
  · exact .inl ⟨hmessage, if_pos hmessage⟩
  · right
    rw [if_neg hmessage]
    have hsize : 13 < RCVBUFSIZE := by decide
    obtain ⟨stored, hstore, hstored, -⟩ := store_cells squareBuffer 0 message (by omega)
    obtain ⟨closed, hclose, hclosed, -⟩ := store_cells stored message.length [0] (by
      rw [List.length_singleton]
      omega)
    have htext : (Square.square closed ++ [0]).length = 13 := by
      rw [List.length_append, Square.length_square, List.length_singleton]
    obtain ⟨printed, hprint, hprinted, -⟩ := store_cells closed 0 (Square.square closed ++ [0])
      (by omega)
    rw [hstore]
    simp only [bind, Except.bind, hclose, hprint]
    cases hsend : peer.send k with
    | none =>
        left
        exact ⟨hmessage, by simp [Peer.Takes, hsend], [], _, rfl, by simp⟩
    | some size =>
        have hlength : ((Square.square closed).take size).length = min size.val 12 := by
          rw [List.length_take, Square.length_square]
        dsimp only
        rw [hlength]
        by_cases htakes : min size.val 12 = message.length
        · right
          rw [if_neg (not_not_intro htakes)]
          exact ⟨hmessage, by simp [Peer.Takes, hsend, htakes], _, printed, by omega, rfl⟩
        · left
          rw [if_pos htakes]
          exact ⟨hmessage, by simp [Peer.Takes, hsend, htakes], _, _, rfl, by simp⟩

/-- A turn that is not the last one uses up some of the input. -/
theorem turn_next_lt {text : Bytes} {squareBuffer' : List (Option UInt8)} {pieces' : List Bytes}
    (h : turn peer k squareBuffer pieces = .next text squareBuffer' pieces') :
    pieces'.flatten.length < pieces.flatten.length := by
  rw [turn] at h
  by_cases hmessage : (receive (RCVBUFSIZE - 1) pieces).1 = []
  · rw [if_pos hmessage] at h
    cases h
  · rw [if_neg hmessage] at h
    dsimp only at h
    split at h
    · cases h
    · split at h
      · cases h
      · split at h
        · cases h
        · split at h
          · cases h
          · cases h
            exact receive_flatten_lt hmessage

/-- Nothing is sent in a turn whose `recv` blocks. -/
theorem turn_blocks_sent {sent : List Bytes}
    (h : turn peer k squareBuffer pieces = .last sent .blocks) : sent = [] := by
  rw [turn] at h
  split at h
  · exact (Turn.last.inj h).1.symm
  · dsimp only at h
    split at h
    · cases h
    · split at h
      · cases h
      · split at h
        · cases h
        · split at h <;> cases h

/-! ## A handler alone -/

/-- The turns of a handler after `k` answers: what it sends, and how it ends. -/
def handle (peer : Peer) (k : ℕ) (squareBuffer : List (Option UInt8)) (pieces : List Bytes) :
    List Bytes × Outcome :=
  match _ : turn peer k squareBuffer pieces with
  | .last sent outcome => (sent, outcome)
  | .next text squareBuffer' pieces' =>
      let later := handle peer (k + 1) squareBuffer' pieces'
      (text :: later.1, later.2)
termination_by pieces.flatten.length
decreasing_by exact turn_next_lt ‹_›

theorem handle_last {sent : List Bytes} {outcome : Outcome}
    (h : turn peer k squareBuffer pieces = .last sent outcome) :
    handle peer k squareBuffer pieces = (sent, outcome) := by
  rw [handle]
  split
  · next h' =>
      rw [h] at h'
      cases h'
      rfl
  · next h' =>
      rw [h] at h'
      cases h'

theorem handle_next {text : Bytes} {squareBuffer' : List (Option UInt8)} {pieces' : List Bytes}
    (h : turn peer k squareBuffer pieces = .next text squareBuffer' pieces') :
    handle peer k squareBuffer pieces =
      (text :: (handle peer (k + 1) squareBuffer' pieces').1,
        (handle peer (k + 1) squareBuffer' pieces').2) := by
  rw [handle]
  split
  · next h' =>
      rw [h] at h'
      cases h'
  · next h' =>
      rw [h] at h'
      cases h'
      rfl

/-- All answers from the one after `k` others on are taken, each with the size of its message. -/
def Peer.TakesAll (peer : Peer) (k : ℕ) : List Bytes → Prop
  | [] => True
  | message :: messages => peer.Takes k message ∧ peer.TakesAll (k + 1) messages

/-- A handler whose answers are taken comes to the end of what its client sends; else it exits. -/
theorem handle_outcome (peer : Peer) (k : ℕ) (hbuffer : squareBuffer.length = RCVBUFSIZE)
    (pieces : List Bytes) :
    (peer.TakesAll k (messages pieces) →
      (handle peer k squareBuffer pieces).2 = peer.ending.outcome) ∧
    (¬ peer.TakesAll k (messages pieces) →
      ∃ e, (handle peer k squareBuffer pieces).2 = .exits e) := by
  induction pieces using messages.induct generalizing k squareBuffer with
  | case1 pieces hmessage =>
      rcases turn_cases peer k hbuffer pieces with ⟨-, hturn⟩ | ⟨hne, -, -⟩ | ⟨hne, -, -⟩
      · rw [handle_last hturn, messages, dif_pos hmessage]
        exact ⟨fun _ => rfl, fun hnot => absurd trivial hnot⟩
      · exact absurd hmessage hne
      · exact absurd hmessage hne
  | case2 pieces hmessage ih =>
      rw [messages, dif_neg hmessage, Peer.TakesAll]
      rcases turn_cases peer k hbuffer pieces with
        ⟨hnil, -⟩ | ⟨-, htakes, sent, e, hturn, -⟩ | ⟨-, htakes, text, buffer', hbuffer', hturn⟩
      · exact absurd hnil hmessage
      · rw [handle_last hturn]
        exact ⟨fun hall => absurd hall.1 htakes, fun _ => ⟨e, rfl⟩⟩
      · rw [handle_next hturn, and_iff_right htakes]
        exact ih (k + 1) hbuffer'

/-- A handler sends nothing when it gets no message, or the first `send` fails. -/
theorem handle_sent_nil (peer : Peer) (k : ℕ) (hbuffer : squareBuffer.length = RCVBUFSIZE)
    (pieces : List Bytes) :
    (handle peer k squareBuffer pieces).1 = [] ↔ messages pieces = [] ∨ peer.send k = none := by
  rw [messages]
  rcases turn_cases peer k hbuffer pieces with
    ⟨hnil, hturn⟩ | ⟨hne, -, sent, e, hturn, hsent⟩ | ⟨hne, htakes, text, buffer', -, hturn⟩
  · rw [handle_last hturn, dif_pos hnil]
    simp
  · rw [handle_last hturn, dif_neg hne]
    simp [hsent]
  · rw [handle_next hturn, dif_neg hne]
    have hsend : peer.send k ≠ none := by
      intro hnone
      rw [Peer.Takes, hnone] at htakes
      cases htakes
    simp [hsend]

/-- How a handler ends, by the result of `handle_tcp_client`. -/
def outcomeOf : Except Failure Unit → Outcome
  | .ok () => .returns
  | .error e => .exits e

/-- A turn for a client that takes every answer and closes its connection at the end. -/
theorem handleTcpClient_eq (hending : peer.ending = .closes) {size : ℕ+} (hsize : 12 ≤ size.val)
    (hsend : peer.send k = some size) (squareBuffer : List (Option UInt8)) (pieces : List Bytes) :
    ((handleTcpClient squareBuffer pieces).1, outcomeOf (handleTcpClient squareBuffer pieces).2) =
      match turn peer k squareBuffer pieces with
      | .last sent outcome => (sent, outcome)
      | .next text squareBuffer pieces =>
          (text :: (handleTcpClient squareBuffer pieces).1,
            outcomeOf (handleTcpClient squareBuffer pieces).2) := by
  have htake (buffer : List (Option UInt8)) :
      (Square.square buffer).take size = Square.square buffer :=
    List.take_of_length_le (by rwa [Square.length_square])
  rw [handleTcpClient, turn]
  by_cases hmessage : (receive (RCVBUFSIZE - 1) pieces).1 = []
  · rw [dif_pos hmessage, if_pos hmessage, hending]
    rfl
  · rw [dif_neg hmessage, if_neg hmessage]
    dsimp only
    cases store squareBuffer 0 (receive (RCVBUFSIZE - 1) pieces).1 >>= fun buffer =>
        store buffer (receive (RCVBUFSIZE - 1) pieces).1.length [0] with
    | error e => rfl
    | ok buffer =>
        dsimp only
        cases store buffer 0 (Square.square buffer ++ [0]) with
        | error e => rfl
        | ok printed =>
            simp only [hsend, htake]
            split <;> rfl

/-- For such a client the turns one after the other are the function as a client alone meets it. -/
theorem handle_eq_handleTcpClient (hending : peer.ending = .closes)
    (hsend : ∀ k, ∃ size : ℕ+, 12 ≤ size.val ∧ peer.send k = some size) (k : ℕ)
    (squareBuffer : List (Option UInt8)) (pieces : List Bytes) :
    handle peer k squareBuffer pieces =
      ((handleTcpClient squareBuffer pieces).1,
        outcomeOf (handleTcpClient squareBuffer pieces).2) := by
  fun_induction handle peer k squareBuffer pieces with
  | case1 k squareBuffer pieces sent outcome hturn =>
      obtain ⟨size, hsize, htaken⟩ := hsend k
      rw [handleTcpClient_eq hending hsize htaken, hturn]
  | case2 k squareBuffer pieces text squareBuffer' pieces' hturn later ih =>
      obtain ⟨size, hsize, htaken⟩ := hsend k
      rw [handleTcpClient_eq hending hsize htaken, hturn]
      simp only [later, ih]

end SysProg.SquareServers
