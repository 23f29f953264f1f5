import SysProg.Verification.SquareServers.Isolation

/-! # Who is served

Exactly which clients can keep a client from its answers, in each of the three servers. -/

namespace SysProg.SquareServers

open Transmission ByteStream SquareClient

variable {ι : Type*} [Fintype ι] [DecidableEq ι] {server : Server} {peers : ι → Peer}
  {s t : State ι} {i j : ι}

/-- In every run the client gets what it would get alone. -/
def Served (server : Server) (peers : ι → Peer) (i : ι) : Prop :=
  Leads (Step server peers) (fun s => (s.connections i).sent = (alone (peers i)).1) start

/-- The handler of the client neither ends the server nor keeps it from accepting others. -/
def Harmless (server : Server) (peer : Peer) : Prop :=
  (server.exits = true → ∀ e, (alone peer).2 ≠ .exits e) ∧
    (server.concurrent = false → (alone peer).2 ≠ .blocks)

/-! ## Clients that are served -/

theorem served_of_silent (hsilent : (alone (peers i)).1 = []) : Served server peers i := by
  refine .now ?_
  rw [hsilent]
  rfl

/-- At the end of a run a client has got everything, unless another one is to blame. -/
theorem sent_of_stuck (hinv : s.Inv server peers) (hstuck : ∀ t, ¬ Step server peers s t)
    (hothers : ∀ j, j ≠ i → Harmless server (peers j)) :
    (s.connections i).sent = (alone (peers i)).1 := by
  have hended {outcome : Outcome} (h : (s.connections i).handler = .ended outcome) :
      (s.connections i).sent = (alone (peers i)).1 := by
    rw [(hinv.connections i).of_ended h]
  cases hrunning : s.running with
  | false =>
      obtain ⟨hexits, j, e, hj⟩ := hinv.exited hrunning
      by_cases hji : j = i
      · exact hended (hji ▸ hj)
      · refine absurd ?_ ((hothers j hji).1 hexits e)
        rw [(hinv.connections j).of_ended hj]
  | true =>
      rcases stuck_cases hrunning hstuck i with
        ⟨outcome, houtcome⟩ | ⟨squareBuffer, rest, more, hserving, hturn⟩ |
        ⟨hwaiting, hconcurrent, j, hj⟩
      · exact hended houtcome
      · have halone := (hinv.connections i).of_serving hserving
        rw [handle_last hturn] at halone
        rw [halone, turn_blocks_sent hturn, List.append_nil]
      · have hji : j ≠ i := by
          rintro rfl
          simp [Connection.served, hwaiting] at hj
        -- the client that is being served blocks, since the run has ended
        refine absurd ?_ ((hothers j hji).2 hconcurrent)
        rcases stuck_cases hrunning hstuck j with
          ⟨outcome, houtcome⟩ | ⟨squareBuffer, rest, more, hserving, hturn⟩ | ⟨hwaiting', -⟩
        · simp [Connection.served, houtcome] at hj
        · rw [(hinv.connections j).of_serving hserving, handle_last hturn]
        · simp [Connection.served, hwaiting'] at hj

theorem served_of_harmless (hothers : ∀ j, j ≠ i → Harmless server (peers j)) :
    Served server peers i :=
  (leads_stuck server peers).mono fun _ h => sent_of_stuck h.1 h.2 hothers

/-! ## A client that keeps another one from its answers -/

theorem Step.serve (h : s.running = true)
    (ht : SquareServers.serve server peers s j = some t) : Step server peers s t :=
  ⟨.serve j, by rw [step, if_pos h, ht]⟩

/-- The handler `j` can come to its last turn before any other one goes on. -/
theorem reaches_last (server : Server) (peers : ι → Peer) (hrunning : s.running = true) {squareBuffer : List (Option UInt8)}
    {rest : List Bytes} (hhandler : (s.connections j).handler = .serving squareBuffer rest) :
    ∃ t squareBuffer' rest' more, Reaches (Step server peers) s t ∧ t.running = true ∧
      (t.connections j).handler = .serving squareBuffer' rest' ∧
      turn (peers j) (t.connections j).sent.length squareBuffer' rest' = .last more
        (handle (peers j) (s.connections j).sent.length squareBuffer rest).2 ∧
      ∀ i, i ≠ j → t.connections i = s.connections i := by
  generalize hn : rest.flatten.length = n
  induction n using Nat.strong_induction_on generalizing s squareBuffer rest with
  | h n ih =>
    cases hturn : turn (peers j) (s.connections j).sent.length squareBuffer rest with
    | last more outcome =>
        rw [handle_last hturn]
        exact ⟨s, squareBuffer, rest, more, .refl, hrunning, hhandler, hturn, fun _ _ => rfl⟩
    | next text squareBuffer' rest' =>
        let s' := s.set j ⟨.serving squareBuffer' rest', (s.connections j).sent ++ [text]⟩
        have hserve : serve server peers s j = some s' := by
          simp only [serve, hhandler, hturn, s']
        have hrunning' : s'.running = true := hrunning
        have hnext : s'.connections j =
            ⟨.serving squareBuffer' rest', (s.connections j).sent ++ [text]⟩ :=
          Function.update_self ..
        obtain ⟨t, buffer, last, more, hrun, ht, hserving, hlast, hothers⟩ :=
          ih _ (hn ▸ turn_next_lt hturn) hrunning' (congrArg Connection.handler hnext) rfl
        refine ⟨t, buffer, last, more, hrun.head (.serve hrunning hserve), ht, hserving, ?_, ?_⟩
        · rw [hlast, hnext, handle_next hturn, List.length_append, List.length_singleton]
        · intro i hi
          rw [hothers i hi]
          exact Function.update_of_ne hi _ _

/-- What has been sent stays sent. -/
theorem sent_ne_nil_of_step (hstep : Step server peers s t) (h : (s.connections i).sent ≠ []) :
    (t.connections i).sent ≠ [] := by
  obtain ⟨-, j, connection, hconnection, ht⟩ := step_cases hstep
  rw [ht, Function.update_apply]
  split
  · next hi =>
      subst hi
      generalize s.connections i = before at hconnection h
      generalize t.running = running at hconnection
      cases hconnection with
      | accept sent => exact h
      | next sent hturn => exact List.append_ne_nil_of_left_ne_nil h _
      | returns sent hturn => exact List.append_ne_nil_of_left_ne_nil h _
      | exits sent hturn => exact List.append_ne_nil_of_left_ne_nil h _
  · exact h

/-- The server accepts a client that is not harmless before all others, and is stuck with it. -/
theorem reaches_stuck (hharm : ¬ Harmless server (peers j)) :
    ∃ t, Reaches (Step server peers) start t ∧ (∀ u, ¬ Step server peers t u) ∧
      ∀ i, i ≠ j → (t.connections i).sent = [] := by
  let s : State ι := start.set j ⟨.serving (List.replicate RCVBUFSIZE none) (peers j).pieces, []⟩
  have haccept : Step server peers start s :=
    ⟨.accept j, by simp [step, accept, start, s, Connection.served]⟩
  have hrunning : s.running = true := rfl
  have hserving : (s.connections j).handler =
      .serving (List.replicate RCVBUFSIZE none) (peers j).pieces := by simp [s, State.set]
  have hsent : (s.connections j).sent = [] := by simp [s, State.set]
  have hwaiting : ∀ i, i ≠ j → s.connections i = ⟨.waiting, []⟩ := fun i hi => by
    simp [s, State.set, start, hi]
  obtain ⟨t, squareBuffer, rest, more, hrun, hrunning', hhandler, hturn, hothers⟩ :=
    reaches_last server peers hrunning hserving
  rw [hsent, List.length_nil] at hturn
  change turn _ _ _ _ = .last more (alone (peers j)).2 at hturn
  have hrest : ∀ i, i ≠ j → t.connections i = ⟨.waiting, []⟩ := fun i hi =>
    (hothers i hi).trans (hwaiting i hi)
  rw [Harmless, not_and_or] at hharm
  simp only [not_forall, not_not] at hharm
  rcases hharm with ⟨hexits, e, he⟩ | ⟨hconcurrent, hblocks⟩
  · -- the handler exits, and the server with it
    rw [he] at hturn
    have hserve : serve server peers t j =
        some { t.set j ⟨.ended (.exits e), (t.connections j).sent ++ more⟩ with
          running := !server.exits } := by
      simp only [serve, hhandler, hturn]
    refine ⟨_, (hrun.head haccept).tail (.serve hrunning' hserve), ?_, ?_⟩
    · intro u hu
      have hstopped := (step_cases hu).1
      simp [hexits] at hstopped
    · intro i hi
      simp [State.set, hi, hrest i hi]
  · -- the handler blocks, and the other clients are not accepted
    rw [hblocks] at hturn
    refine ⟨t, hrun.head haccept, ?_, fun i hi => by rw [hrest i hi]⟩
    rintro u ⟨action, haction⟩
    cases action with
    | accept i =>
        obtain ⟨-, haction⟩ := Option.ite_none_right_eq_some.mp haction
        unfold accept at haction
        split at haction
        · obtain ⟨hfree, -⟩ := Option.ite_none_right_eq_some.mp haction
          have hbusy := (hfree.resolve_left (by simp [hconcurrent])) j
          simp [Connection.served, hhandler] at hbusy
        · cases haction
    | serve i =>
        obtain ⟨-, haction⟩ := Option.ite_none_right_eq_some.mp haction
        by_cases hi : i = j
        · subst hi
          simp [serve, hhandler, hturn] at haction
        · simp [serve, hrest i hi] at haction

/-- A client gets in every run what it would get alone, if and only if this is nothing, or all
others are harmless. -/
theorem served_iff (server : Server) (peers : ι → Peer) (i : ι) :
    Served server peers i ↔
      (alone (peers i)).1 = [] ∨ ∀ j, j ≠ i → Harmless server (peers j) := by
  constructor
  · intro h
    by_contra hnot
    simp only [not_or, not_forall] at hnot
    obtain ⟨hasks, j, hj, hharm⟩ := hnot
    obtain ⟨t, hrun, hstuck, hnil⟩ := reaches_stuck hharm
    have hsent : (t.connections i).sent ≠ [] := by
      refine (h.mono ?_).of_stuck (fun _ _ hu hstep => sent_ne_nil_of_step hstep hu) hrun hstuck
      intro u hu
      rwa [hu]
    exact hsent (hnil i (Ne.symm hj))
  · intro h
    exact h.elim served_of_silent served_of_harmless

/-! ## The three servers -/

/-- All answers to the client are taken, each with the size of its message. -/
def Peer.Patient (peer : Peer) : Prop :=
  peer.TakesAll 0 (messages peer.pieces)

/-- The client gets nothing even alone: it sends nothing, or it has gone before the first answer. -/
def Peer.Silent (peer : Peer) : Prop :=
  messages peer.pieces = [] ∨ peer.send 0 = none

theorem alone_outcome (peer : Peer) :
    (peer.Patient → (alone peer).2 = peer.ending.outcome) ∧
      (¬ peer.Patient → ∃ e, (alone peer).2 = .exits e) :=
  handle_outcome peer 0 List.length_replicate peer.pieces

theorem alone_exits_iff (peer : Peer) :
    (∀ e, (alone peer).2 ≠ .exits e) ↔ peer.Patient ∧ peer.ending ≠ .fails := by
  obtain ⟨hpatient, himpatient⟩ := alone_outcome peer
  by_cases h : peer.Patient
  · rw [hpatient h, and_iff_right h]
    cases peer.ending <;> simp [Ending.outcome]
  · obtain ⟨e, he⟩ := himpatient h
    exact iff_of_false (fun hall => hall e he) fun hboth => h hboth.1

theorem alone_blocks_iff (peer : Peer) :
    (alone peer).2 = .blocks ↔ peer.Patient ∧ peer.ending = .stays := by
  obtain ⟨hpatient, himpatient⟩ := alone_outcome peer
  by_cases h : peer.Patient
  · rw [hpatient h, and_iff_right h]
    cases peer.ending <;> simp [Ending.outcome]
  · obtain ⟨e, he⟩ := himpatient h
    rw [he]
    exact iff_of_false nofun fun hboth => h hboth.1

/-- The server that serves one client after the other needs clients that close their connections. -/
theorem harmless_tcpSquareServer (peer : Peer) :
    Harmless tcpSquareServer peer ↔ peer.Patient ∧ peer.ending = .closes := by
  have hharmless : Harmless tcpSquareServer peer ↔
      (∀ e, (alone peer).2 ≠ .exits e) ∧ (alone peer).2 ≠ .blocks := by
    simp [Harmless, tcpSquareServer]
  rw [hharmless, alone_exits_iff, ne_eq (alone peer).2, alone_blocks_iff]
  cases peer.ending <;> simp

/-- A child process harms nobody. -/
theorem harmless_tcpSquareServerFork (peer : Peer) : Harmless tcpSquareServerFork peer :=
  ⟨nofun, nofun⟩

theorem harmless_tcpSquareServerThread (peer : Peer) :
    Harmless tcpSquareServerThread peer ↔ peer.Patient ∧ peer.ending ≠ .fails := by
  rw [← alone_exits_iff]
  simp [Harmless, tcpSquareServerThread]

/-- A client gets in every run of `tcp-square-server` what it would get alone, if and only if this
is nothing, or all others take their answers and close their connections; of
`tcp-square-server-fork` in any case; of `tcp-square-server-thread` if and only if this is nothing,
or all others take their answers and do not let `recv` fail. -/
theorem servers_serve_iff (peers : ι → Peer) (i : ι) :
    (Served tcpSquareServer peers i ↔
      (peers i).Silent ∨ ∀ j, j ≠ i → (peers j).Patient ∧ (peers j).ending = .closes) ∧
    Served tcpSquareServerFork peers i ∧
    (Served tcpSquareServerThread peers i ↔
      (peers i).Silent ∨ ∀ j, j ≠ i → (peers j).Patient ∧ (peers j).ending ≠ .fails) := by
  have hsilent : (alone (peers i)).1 = [] ↔ (peers i).Silent :=
    handle_sent_nil (peers i) 0 List.length_replicate (peers i).pieces
  refine ⟨?_, ?_, ?_⟩
  · simp only [served_iff, hsilent, harmless_tcpSquareServer]
  · exact served_of_harmless fun j _ => harmless_tcpSquareServerFork (peers j)
  · simp only [served_iff, hsilent, harmless_tcpSquareServerThread]

end SysProg.SquareServers
