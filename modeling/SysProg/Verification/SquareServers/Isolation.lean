import SysProg.Verification.SquareServers.Turns

/-! # What clients do to each other

A handler in a process of its own ends alone. In the other servers a client that makes its handler
exit ends the server for all clients, and the server that serves one client after the other waits
for a client that stays connected. -/

namespace SysProg.SquareServers

open Transmission ByteStream SquareClient

variable {ι : Type*} [Fintype ι] [DecidableEq ι] {server : Server} {peers : ι → Peer}
  {s t : State ι} {i j : ι}

/-! ## The steps -/

/-- What a step does to the connection with a client. -/
inductive ConnectionStep (server : Server) (peer : Peer) : Connection → Connection → Bool → Prop
  | accept (sent : List Bytes) :
      ConnectionStep server peer ⟨.waiting, sent⟩
        ⟨.serving (List.replicate RCVBUFSIZE none) peer.pieces, sent⟩ true
  | next (sent : List Bytes) {squareBuffer squareBuffer' : List (Option UInt8)}
      {rest rest' : List Bytes} {text : Bytes}
      (hturn : turn peer sent.length squareBuffer rest = .next text squareBuffer' rest') :
      ConnectionStep server peer ⟨.serving squareBuffer rest, sent⟩
        ⟨.serving squareBuffer' rest', sent ++ [text]⟩ true
  | returns (sent : List Bytes) {squareBuffer : List (Option UInt8)} {rest more : List Bytes}
      (hturn : turn peer sent.length squareBuffer rest = .last more .returns) :
      ConnectionStep server peer ⟨.serving squareBuffer rest, sent⟩
        ⟨.ended .returns, sent ++ more⟩ true
  | exits (sent : List Bytes) {squareBuffer : List (Option UInt8)} {rest more : List Bytes}
      {e : Failure} (hturn : turn peer sent.length squareBuffer rest = .last more (.exits e)) :
      ConnectionStep server peer ⟨.serving squareBuffer rest, sent⟩
        ⟨.ended (.exits e), sent ++ more⟩ (!server.exits)

/-- A step concerns one client, and the server runs on unless a handler exits. -/
theorem step_cases (h : Step server peers s t) :
    s.running = true ∧ ∃ i connection,
      ConnectionStep server (peers i) (s.connections i) connection t.running ∧
        t.connections = Function.update s.connections i connection := by
  obtain ⟨action, h⟩ := h
  cases action with
  | accept i =>
      obtain ⟨hrunning, h⟩ := Option.ite_none_right_eq_some.mp h
      refine ⟨hrunning, i, ?_⟩
      unfold accept at h
      split at h
      · next hhandler =>
          obtain ⟨-, h⟩ := Option.ite_none_right_eq_some.mp h
          obtain rfl := Option.some.inj h
          refine ⟨_, ?_, rfl⟩
          have hstep : ConnectionStep server (peers i) _ _ true := .accept (s.connections i).sent
          rw [← hhandler] at hstep
          simpa [State.set, hrunning] using hstep
      · cases h
  | serve i =>
      obtain ⟨hrunning, h⟩ := Option.ite_none_right_eq_some.mp h
      refine ⟨hrunning, i, ?_⟩
      simp only [serve] at h
      split at h
      · next squareBuffer rest hhandler =>
          have hconnection : s.connections i = ⟨.serving squareBuffer rest, (s.connections i).sent⟩ :=
            by rw [← hhandler]
          generalize (s.connections i).sent = sent at h hconnection
          rw [hconnection]
          split at h
          · next text squareBuffer' rest' hturn =>
              obtain rfl := Option.some.inj h
              refine ⟨_, ?_, rfl⟩
              simpa [State.set, hrunning] using ConnectionStep.next sent hturn
          · next more hturn =>
              obtain rfl := Option.some.inj h
              refine ⟨_, ?_, rfl⟩
              simpa [State.set, hrunning] using ConnectionStep.returns sent hturn
          · next more e hturn =>
              obtain rfl := Option.some.inj h
              exact ⟨_, .exits sent hturn, rfl⟩
          · cases h
      · cases h

/-- Why a connection does not go on while the server runs. -/
theorem stuck_cases (hrunning : s.running = true) (hstuck : ∀ t, ¬ Step server peers s t) (i : ι) :
    (∃ outcome, (s.connections i).handler = .ended outcome) ∨
    (∃ squareBuffer rest more, (s.connections i).handler = .serving squareBuffer rest ∧
      turn (peers i) (s.connections i).sent.length squareBuffer rest = .last more .blocks) ∨
    ((s.connections i).handler = .waiting ∧ server.concurrent = false ∧
      ∃ j, (s.connections j).served = true) := by
  cases hhandler : (s.connections i).handler with
  | ended outcome => exact .inl ⟨outcome, rfl⟩
  | waiting =>
      right; right
      have haccept : accept server peers s i = none := by
        by_contra hne
        obtain ⟨t, ht⟩ := Option.ne_none_iff_exists'.mp hne
        exact hstuck t ⟨.accept i, by rw [step, if_pos hrunning, ht]⟩
      simp only [accept, hhandler] at haccept
      split at haccept
      · cases haccept
      · next hnot => simpa using hnot
  | serving squareBuffer rest =>
      right; left
      have hserve : serve server peers s i = none := by
        by_contra hne
        obtain ⟨t, ht⟩ := Option.ne_none_iff_exists'.mp hne
        exact hstuck t ⟨.serve i, by rw [step, if_pos hrunning, ht]⟩
      simp only [serve, hhandler] at hserve
      split at hserve
      · cases hserve
      · cases hserve
      · cases hserve
      · next more hturn => exact ⟨squareBuffer, rest, more, rfl, hturn⟩

/-! ## The invariant -/

/-- What a client would get from a server of its own. -/
def alone (peer : Peer) : List Bytes × Outcome :=
  handle peer 0 (List.replicate RCVBUFSIZE none) peer.pieces

/-- What has been sent and what is still to be sent is what the client would get alone. -/
inductive Connection.Inv (peer : Peer) : Connection → Prop
  | waiting : Inv peer ⟨.waiting, []⟩
  | serving {squareBuffer : List (Option UInt8)} {rest sent : List Bytes}
      (h : alone peer = (sent ++ (handle peer sent.length squareBuffer rest).1,
        (handle peer sent.length squareBuffer rest).2)) :
      Inv peer ⟨.serving squareBuffer rest, sent⟩
  | ended {sent : List Bytes} {outcome : Outcome} (h : alone peer = (sent, outcome)) :
      Inv peer ⟨.ended outcome, sent⟩

/-- The turns that are left are less than that. -/
def Connection.rank (peer : Peer) (connection : Connection) : ℕ :=
  match connection.handler with
  | .waiting => peer.pieces.flatten.length + 2
  | .serving _ rest => rest.flatten.length + 1
  | .ended _ => 0

theorem ConnectionStep.inv {peer : Peer} {connection connection' : Connection} {running : Bool}
    (hstep : ConnectionStep server peer connection connection' running) (h : connection.Inv peer) :
    connection'.Inv peer ∧ connection'.rank peer < connection.rank peer := by
  cases hstep with
  | accept sent =>
      cases h with
      | waiting => exact ⟨.serving rfl, Nat.lt_succ_self _⟩
  | next sent hturn =>
      cases h with
      | serving h =>
          rw [handle_next hturn] at h
          refine ⟨.serving ?_, Nat.succ_lt_succ (turn_next_lt hturn)⟩
          rw [h, List.length_append, List.length_singleton, List.append_assoc]
          rfl
  | returns sent hturn =>
      cases h with
      | serving h =>
          rw [handle_last hturn] at h
          exact ⟨.ended h, Nat.succ_pos _⟩
  | exits sent hturn =>
      cases h with
      | serving h =>
          rw [handle_last hturn] at h
          exact ⟨.ended h, Nat.succ_pos _⟩

/-- When the server has exited, it is because of a handler that has exited. -/
structure State.Inv (server : Server) (peers : ι → Peer) (s : State ι) : Prop where
  connections : ∀ i, (s.connections i).Inv (peers i)
  exited : s.running = false → server.exits = true ∧
    ∃ j e, (s.connections j).handler = .ended (.exits e)

omit [Fintype ι] [DecidableEq ι] in
theorem State.inv_start : (start : State ι).Inv server peers :=
  ⟨fun _ => .waiting, nofun⟩

def State.rank (peers : ι → Peer) (s : State ι) : ℕ :=
  ∑ i, (s.connections i).rank (peers i)

theorem State.Inv.step (h : s.Inv server peers) (hstep : Step server peers s t) :
    t.Inv server peers ∧ t.rank peers < s.rank peers := by
  obtain ⟨hrunning, i, connection, hconnection, ht⟩ := step_cases hstep
  obtain ⟨hinv, hlt⟩ := hconnection.inv (h.connections i)
  have hupdate : ∀ j, t.connections j = if j = i then connection else s.connections j := by
    intro j
    rw [ht, Function.update_apply]
  refine ⟨⟨?_, ?_⟩, ?_⟩
  · intro j
    rw [hupdate j]
    split
    · next hj => exact hj ▸ hinv
    · exact h.connections j
  · intro hexited
    generalize hs : s.connections i = before at hconnection
    generalize hrun : t.running = running at hconnection hexited
    cases hconnection with
    | accept | next | returns => cases hexited
    | @exits sent squareBuffer rest more e hturn =>
        refine ⟨by simpa using hexited, i, e, ?_⟩
        rw [hupdate i, if_pos rfl]
  · apply Finset.sum_lt_sum
    · intro j _
      rw [hupdate j]
      split
      · next hj => exact hj ▸ hlt.le
      · exact le_rfl
    · refine ⟨i, Finset.mem_univ i, ?_⟩
      rw [hupdate i, if_pos rfl]
      exact hlt

/-- Every run ends. -/
theorem leads_stuck (server : Server) (peers : ι → Peer) :
    Leads (Step server peers)
      (fun s => s.Inv server peers ∧ ∀ t, ¬ Step server peers s t) start := by
  refine Leads.of_variant (I := State.Inv server peers) (State.rank peers) ?_ ?_ _ State.inv_start
  · intro s h
    by_cases hstuck : ∃ t, Step server peers s t
    · exact .inr hstuck
    · exact .inl ⟨h, not_exists.mp hstuck⟩
  · intro s t h hstep
    exact .inr (h.step hstep)

theorem Connection.Inv.of_ended {peer : Peer} {connection : Connection} (h : connection.Inv peer)
    {outcome : Outcome} (hended : connection.handler = .ended outcome) :
    alone peer = (connection.sent, outcome) := by
  cases h with
  | waiting => cases hended
  | serving => cases hended
  | ended h =>
      cases hended
      exact h

theorem Connection.Inv.of_serving {peer : Peer} {connection : Connection} (h : connection.Inv peer)
    {squareBuffer : List (Option UInt8)} {rest : List Bytes}
    (hserving : connection.handler = .serving squareBuffer rest) :
    alone peer = (connection.sent ++ (handle peer connection.sent.length squareBuffer rest).1,
      (handle peer connection.sent.length squareBuffer rest).2) := by
  cases h with
  | waiting => cases hserving
  | serving h =>
      cases hserving
      exact h
  | ended => cases hserving

end SysProg.SquareServers
