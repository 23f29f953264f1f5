import SysProg.Library.Actions
import SysProg.Model.FsortMetrics
import SysProg.Model.UdpSquare

/-! # Clients of the square server for datagrams

`main` in `posix/socket/udp-square-client.c`, several times and from different addresses, with one
`posix/socket/udp-square-server.c`. The network may lose, duplicate and reorder datagrams. Other
sockets may send anything to the server and to the clients, with any source address. -/

namespace SysProg.UdpSquareClients

open Transmission UdpSquare

/-- `sin_addr` and `sin_port` -/
structure Address where
  ip : UInt32
  port : UInt16
  deriving DecidableEq, Repr

/-- The host of the server, which is bound to `INADDR_ANY`. -/
structure Host where
  interfaces : List UInt32
  serverPort : UInt16

/-- Where a client has called `die_with_error`. -/
inductive Death where
  /-- "input word too long" -/
  | inputTooLong
  /-- "sendto() sent a different number of bytes than expected" -/
  | sendto
  /-- "recvfrom() failed", since it has returned -1 -/
  | recvfrom
  /-- "recvfrom() failed", since it has returned another number than expected -/
  | length
  /-- "Error: received a packet from unknown source." -/
  | unknownSource
  deriving DecidableEq, Repr

/-- Where a client is in `main`. -/
inductive Client where
  | starting
  /-- Before `recvfrom` returns. -/
  | waiting (x : ℤ)
  | printed (x y : ℤ)
  /-- `usage(argv[0], "input word too long")` -/
  | usage
  | died (death : Death)
  deriving DecidableEq, Repr

/-- `server_address`, `argv[2]`, and what `square_buffer` contains at the start. -/
structure Args where
  serverAddress : Address
  word : CString
  squareBuffer : InputBuffer

/-- A datagram to a server. The source is the address of a client, or another one. -/
structure Request (ι : Type) where
  source : Option ι
  destination : Address
  datagram : Bytes
  deriving DecidableEq, Repr

/-- A datagram to a client. -/
structure Reply where
  source : Address
  datagram : Bytes
  deriving DecidableEq, Repr

/-- `square_string` with its NUL byte, and `send_string_len` as its length. -/
def request (x : ℤ) : Bytes :=
  format12d x ++ [0]

/-- `main` up to `sendto`: the client ends before it, or it sends its number. -/
def prepare (args : Args) : Except Client ℤ :=
  if SQUAREMAX < args.word.bytes.length then .error .usage
  else
    let x := atoi args.word.bytes
    if SQUAREMAX < (format12d x).length then .error (.died .inputTooLong) else .ok x

/-- `main` from `recvfrom` on, which gets `SQUAREMAX` bytes at most. -/
def receiveReply (args : Args) (x : ℤ) (reply : Reply) : Client :=
  let squareBuffer := (recvfrom args.squareBuffer reply.datagram).bytes
  let respStringLen := (reply.datagram.take SQUAREMAX).length
  if respStringLen ≠ (request x).length then .died .length
  -- the port is not compared
  else if args.serverAddress.ip ≠ reply.source.ip then .died .unknownSource
  else .printed x (atoi (squareBuffer.set respStringLen 0))

inductive Server where
  | running
  /-- `atoi` reads behind `input_buffer`; what happens then is not considered. -/
  | fault
  /-- `recvfrom` or `sendto` has failed. -/
  | died
  deriving DecidableEq, Repr

structure State (ι : Type) where
  /-- `input_buffer` of the server -/
  inputBuffer : InputBuffer
  server : Server
  clients : ι → Client
  /-- The datagrams under way. -/
  requests : List (Request ι)
  replies : ι → List Reply
  /-- What other sockets have sent until now. -/
  foreignRequests : List (Request ι)
  foreignReplies : ι → List Reply

variable {ι : Type} [DecidableEq ι]

def State.setClient (s : State ι) (i : ι) (client : Client) : State ι :=
  { s with clients := Function.update s.clients i client }

def State.setReplies (s : State ι) (i : ι) (replies : List Reply) : State ι :=
  { s with replies := Function.update s.replies i replies }

/-- The server answers to the source of a request. -/
def State.answer (s : State ι) (source : Option ι) (reply : Reply) : State ι :=
  match source with
  | none => s
  | some i => s.setReplies i (s.replies i ++ [reply])

inductive Action (ι : Type) where
  | send (i : ι) (sent : Bool)
  | receive (i : ι) (reply : Reply)
  | recvfromFails (i : ι)
  /-- A turn of the loop of the server, which answers from one of its addresses. -/
  | serve (request : Request ι) (interface : UInt32) (sent : Bool)
  | serverFails
  /-- Another socket sends to a server or a client. -/
  | injectRequest (request : Request ι)
  | injectReply (i : ι) (reply : Reply)
  /-- The network. -/
  | loseRequest (request : Request ι)
  | loseReply (i : ι) (reply : Reply)
  | duplicateRequest (request : Request ι)
  | duplicateReply (i : ι) (reply : Reply)

def send (args : ι → Args) (s : State ι) (i : ι) (sent : Bool) : Option (State ι) :=
  if s.clients i = .starting then
    match prepare (args i) with
    | .error client => some (s.setClient i client)
    | .ok x =>
        if sent then
          let requests := s.requests ++ [⟨some i, (args i).serverAddress, request x⟩]
          some (State.setClient { s with requests } i (.waiting x))
        else some (s.setClient i (.died .sendto))
  else none

def receive (args : ι → Args) (s : State ι) (i : ι) (reply : Reply) : Option (State ι) :=
  match s.clients i with
  | .waiting x =>
      if reply ∈ s.replies i then
        some ((s.setReplies i ((s.replies i).erase reply)).setClient i
          (receiveReply (args i) x reply))
      else none
  | _ => none

def recvfromFails (s : State ι) (i : ι) : Option (State ι) :=
  match s.clients i with
  | .waiting _ => some (s.setClient i (.died .recvfrom))
  | _ => none

def serve (host : Host) (s : State ι) (request : Request ι) (interface : UInt32) (sent : Bool) :
    Option (State ι) :=
  if s.server = .running ∧ request ∈ s.requests ∧ request.destination.ip ∈ host.interfaces ∧
      request.destination.port = host.serverPort ∧ interface ∈ host.interfaces then
    let s := { s with requests := s.requests.erase request }
    match replyTo s.inputBuffer request.datagram with
    | .error _ => some { s with server := .fault }
    | .ok reply =>
        if sent then
          let inputBuffer := recvfrom s.inputBuffer request.datagram
          some (State.answer { s with inputBuffer } request.source
            ⟨⟨interface, host.serverPort⟩, reply⟩)
        else some { s with server := .died }
  else none

def step (host : Host) (args : ι → Args) (s : State ι) : Action ι → Option (State ι)
  | .send i sent => send args s i sent
  | .receive i reply => receive args s i reply
  | .recvfromFails i => recvfromFails s i
  | .serve request interface sent => serve host s request interface sent
  | .serverFails => if s.server = .running then some { s with server := .died } else none
  | .injectRequest request =>
      some { s with
        requests := s.requests ++ [request]
        foreignRequests := s.foreignRequests ++ [request] }
  | .injectReply i reply =>
      some { s.setReplies i (s.replies i ++ [reply]) with
        foreignReplies := Function.update s.foreignReplies i (s.foreignReplies i ++ [reply]) }
  | .loseRequest request => some { s with requests := s.requests.erase request }
  | .loseReply i reply => some (s.setReplies i ((s.replies i).erase reply))
  | .duplicateRequest request =>
      if request ∈ s.requests then some { s with requests := s.requests ++ [request] } else none
  | .duplicateReply i reply =>
      if reply ∈ s.replies i then some (s.setReplies i (s.replies i ++ [reply])) else none

def Step (host : Host) (args : ι → Args) : State ι → State ι → Prop :=
  Acts (step host args)

/-- The server runs, nothing has been sent. -/
def start (inputBuffer : InputBuffer) : State ι :=
  ⟨inputBuffer, .running, fun _ => .starting, [], fun _ => [], [], fun _ => []⟩

end SysProg.UdpSquareClients
