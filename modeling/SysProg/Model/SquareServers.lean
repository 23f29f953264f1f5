import SysProg.Library.Actions
import SysProg.Model.SquareClient

/-! # Square servers for many clients

`main` of `posix/socket/tcp-square-server.c`, `tcp-square-server-fork.c` and
`tcp-square-server-thread.c` from the first `accept` on. They call `handle_tcp_client` itself, or
in a child process, or in a thread. -/

namespace SysProg.SquareServers

open Transmission ByteStream SquareClient

/-! ## A handler -/

/-- What `recv` returns when all bytes of the client have been received: 0 or -1, or it does not
return because the client stays connected. -/
inductive Ending where
  | closes
  | fails
  | stays
  deriving DecidableEq, Repr

/-- What the handler of a client gets from its socket. The `send` after `k` others takes `send k`
bytes, or the whole text if it is shorter; `none` stands for a `send` that returns -1 or raises
`SIGPIPE`, which ends the process as well. -/
structure Peer where
  pieces : List Bytes
  ending : Ending
  send : ℕ → Option ℕ+

/-- How `handle_tcp_client` ends: it returns, or it calls `exit`, or `recv` blocks for ever. -/
inductive Outcome where
  | returns
  | exits (failure : Failure)
  | blocks
  deriving DecidableEq, Repr

def Ending.outcome : Ending → Outcome
  | .closes => .returns
  | .fails => .exits (.dieWithError "recv() failed")
  | .stays => .blocks

/-- A turn of the loop of `handle_tcp_client`: it is the last one, or the loop goes on. -/
inductive Turn where
  | last (sent : List Bytes) (outcome : Outcome)
  | next (sent : Bytes) (squareBuffer : List (Option UInt8)) (pieces : List Bytes)

/-- The turn after `k` answers. -/
def turn (peer : Peer) (k : ℕ) (squareBuffer : List (Option UInt8)) (pieces : List Bytes) : Turn :=
  let message := (receive (RCVBUFSIZE - 1) pieces).1
  if message = [] then .last [] peer.ending.outcome
  else
    match store squareBuffer 0 message >>= fun buffer => store buffer message.length [0] with
    | .error e => .last [] (.exits e)
    | .ok buffer =>
        let text := Square.square buffer
        match store buffer 0 (text ++ [0]) with
        | .error e => .last [] (.exits e)
        | .ok buffer =>
            match peer.send k with
            | none => .last [] (.exits (.dieWithError "send() failed"))
            | some size =>
                -- compared with the size of the message, not with that of the text
                let sent := text.take size
                if sent.length ≠ message.length then
                  .last [sent] (.exits (.dieWithError "send() failed"))
                else .next sent buffer (receive (RCVBUFSIZE - 1) pieces).2

/-! ## The servers -/

/-- What the copies of the program differ in. -/
structure Server where
  /-- The next client is accepted while others are served. -/
  concurrent : Bool
  /-- `exit` in `handle_tcp_client` ends the process that accepts, with all its handlers. -/
  exits : Bool

def tcpSquareServer : Server := ⟨false, true⟩

def tcpSquareServerFork : Server := ⟨true, false⟩

def tcpSquareServerThread : Server := ⟨true, true⟩

inductive Handler where
  /-- The client has not been accepted. -/
  | waiting
  | serving (squareBuffer : List (Option UInt8)) (pieces : List Bytes)
  | ended (outcome : Outcome)

/-- A client, with what has been sent to it. -/
structure Connection where
  handler : Handler
  sent : List Bytes

def Connection.served (connection : Connection) : Bool :=
  match connection.handler with
  | .serving _ _ => true
  | .waiting | .ended _ => false

variable {ι : Type*} [Fintype ι] [DecidableEq ι]

structure State (ι : Type*) where
  running : Bool
  connections : ι → Connection

def start : State ι :=
  ⟨true, fun _ => ⟨.waiting, []⟩⟩

/-- The server accepts the client `i`, or the handler of the client makes a turn of its loop. -/
inductive Action (ι : Type*) where
  | accept (i : ι)
  | serve (i : ι)
  deriving DecidableEq, Repr

def State.set (s : State ι) (i : ι) (connection : Connection) : State ι :=
  { s with connections := Function.update s.connections i connection }

def accept (server : Server) (peers : ι → Peer) (s : State ι) (i : ι) : Option (State ι) :=
  match (s.connections i).handler with
  | .waiting =>
      if server.concurrent ∨ ∀ j, (s.connections j).served = false then
        let squareBuffer := List.replicate RCVBUFSIZE none
        some (s.set i ⟨.serving squareBuffer (peers i).pieces, (s.connections i).sent⟩)
      else none
  | _ => none

/-- A handler whose `recv` blocks makes no turn. -/
def serve (server : Server) (peers : ι → Peer) (s : State ι) (i : ι) : Option (State ι) :=
  let sent := (s.connections i).sent
  match (s.connections i).handler with
  | .serving squareBuffer pieces =>
      match turn (peers i) sent.length squareBuffer pieces with
      | .next text squareBuffer pieces =>
          some (s.set i ⟨.serving squareBuffer pieces, sent ++ [text]⟩)
      | .last more .returns => some (s.set i ⟨.ended .returns, sent ++ more⟩)
      | .last more (.exits e) =>
          some { s.set i ⟨.ended (.exits e), sent ++ more⟩ with running := !server.exits }
      | .last _ .blocks => none
  | _ => none

/-- Nothing happens any more when the server has exited. -/
def step (server : Server) (peers : ι → Peer) (s : State ι) : Action ι → Option (State ι)
  | .accept i => if s.running then accept server peers s i else none
  | .serve i => if s.running then serve server peers s i else none

def Step (server : Server) (peers : ι → Peer) : State ι → State ι → Prop :=
  Acts (step server peers)

end SysProg.SquareServers
