import SysProg.Library.Conversation
import SysProg.Library.Pieces
import SysProg.Model.Text

/-! # The square server and its client

`handle_tcp_client` of `posix/socket/tcp-square-server-protocol.c` and of
`posix/daemon/daemon.c`, and `main` of `posix/socket/tcp-square-client-protocol.c` from the
connection on. What happens between two system calls is one step with the first of them. -/

namespace SysProg.Square

open Transmission

/-! ## The server -/

/-- The message at the end of a connection. -/
inductive Report where
  | printf (text : String)
  | syslogInfo (text : String)
  deriving DecidableEq, Repr

/-- What the copies of `handle_tcp_client` differ in. -/
structure Server where
  RCVBUFSIZE : ℕ
  report : Report

def squareServer : Server :=
  ⟨32, .printf "connection terminated by client\n"⟩

def daemon : Server :=
  ⟨32, .syslogInfo "connection terminated by client\n"⟩

/-- `handle_tcp_client` in a call of `read_and_store_string`, of `write_string` or of
`write_eot`. `fault` is an access outside of the memory of a buffer. -/
inductive HandleTcpClient where
  | receive (call : ReadAndStore)
  | reply (call : WriteString)
  | endOfTransmission (call : WriteString)
  | closed (report : Report)
  | fault
  deriving DecidableEq, Repr

/-- The text that is printed into `square_buffer`. -/
def square (buffer : List (Option UInt8)) : Bytes :=
  let x := atoi (cString buffer)
  let y := int32 (x * x)
  format12d y

def Server.afterReceive (server : Server) : ReadAndStore → HandleTcpClient
  | .returned ulen result =>
      if ulen = 0 then .endOfTransmission writeEot
      else
        match result with
        | none => .fault
        | some buffer =>
            let squareBuffer := square buffer ++ [0]
            if squareBuffer.length ≤ server.RCVBUFSIZE then
              .reply (writeString squareBuffer (strlen squareBuffer))
            else .fault
  | call => .receive call

def HandleTcpClient.afterReply : WriteString → HandleTcpClient
  | .returned => .receive .header
  | call => .reply call

def Server.afterEndOfTransmission (server : Server) : WriteString → HandleTcpClient
  | .returned => .closed server.report
  | call => .endOfTransmission call

def Server.reader (server : Server) : ByteStream.Reader HandleTcpClient UInt8 where
  asked
    | .receive call => call.asked
    | _ => none
  whole handler := handler = .receive .header
  onRead
    | .receive call, bytes => server.afterReceive (call.onRead (.received bytes))
    | handler, _ => handler

def Server.writer (server : Server) : ByteStream.Writer HandleTcpClient UInt8 where
  offered
    | .reply call => call.offered
    | .endOfTransmission call => call.offered
    | _ => none
  whole
    | .reply call => Transmission.writer.whole call
    | .endOfTransmission call => Transmission.writer.whole call
    | _ => False
  onWrite
    | .reply call, k => .afterReply (call.onWrite k)
    | .endOfTransmission call, k => server.afterEndOfTransmission (call.onWrite k)
    | handler, _ => handler

def Server.party (server : Server) : ByteStream.Party HandleTcpClient UInt8 where
  reader := server.reader
  writer := server.writer
  thinks _ := none
  offered_of_asked handler h := by
    cases handler with
    | receive call => rfl
    | reply call => exact absurd rfl h
    | endOfTransmission call => exact absurd rfl h
    | closed report => rfl
    | fault => rfl
  asked_of_thinks _ h := absurd rfl h
  offered_of_thinks _ h := absurd rfl h

/-- The handler, the pieces in which the requests arrive and the bytes it has sent. -/
structure Connection where
  handler : HandleTcpClient
  incoming : List Bytes
  outgoing : Bytes
  deriving DecidableEq

inductive Server.Step (server : Server) : Connection → Connection → Prop
  | read {handler handler' : HandleTcpClient} {incoming incoming' : List Bytes} {outgoing : Bytes}
      (hread : ByteStream.PieceStep server.reader (handler, incoming) (handler', incoming')) :
      Server.Step server ⟨handler, incoming, outgoing⟩ ⟨handler', incoming', outgoing⟩
  | write {handler handler' : HandleTcpClient} {incoming : List Bytes} {outgoing outgoing' : Bytes}
      (hwrite : ByteStream.WriteStep server.writer (handler, outgoing) (handler', outgoing')) :
      Server.Step server ⟨handler, incoming, outgoing⟩ ⟨handler', incoming, outgoing'⟩

/-! ## The client -/

/-- What the client does with a line of input. -/
inductive Line where
  | ignored
  | terminated
  | number (x : ℤ)
  deriving DecidableEq, Repr

/-- The loop from the call of `strlen` on; `line` is what `fgets` has stored. -/
def readLine (line : Bytes) : Line :=
  let line := line ++ [0]
  let n := strlen line
  if n = 0 then .ignored
  else
    let line := if line.getD (n - 1) 0 = 10 then line.set (n - 1) 0 else line
    if line.getD 0 0 = 3 ∨ line.getD 0 0 = 4 ∨ line.take (strlen line) = [81, 85, 73, 84] then
      .terminated
    else .number (atoi line)

inductive ClientPhase where
  | prompt
  | send (x : ℤ) (call : WriteString)
  | receive (x : ℤ) (call : ReadAndStore)
  | sendEndOfTransmission (call : WriteString)
  | receiveEndOfTransmission (call : ReadAndStore)
  | closed
  | fault
  deriving DecidableEq, Repr

/-- `printed` has the values of `x` and `y` that have been printed. The program does not keep
`sent` and `received`: the strings it has passed to `write_string` and the blocks with the
strings that have come back. -/
structure Client where
  stdin : Bytes
  phase : ClientPhase
  printed : List (ℤ × ℤ)
  sent : List Bytes
  received : List (List (Option UInt8))
  deriving DecidableEq, Repr

def Client.start (stdin : Bytes) : Client :=
  ⟨stdin, .prompt, [], [], []⟩

/-- Without input `fgets` leaves `line` as it is, which is undefined. -/
def Client.enterLine (client : Client) : Client :=
  let line := (fgets 4096 client.stdin).1
  let client := { client with stdin := (fgets 4096 client.stdin).2 }
  if line = [] then { client with phase := .fault }
  else
    match readLine line with
    | .ignored => client
    | .terminated => { client with phase := .sendEndOfTransmission writeEot }
    | .number x =>
        { client with
          phase := .send x (writeString (format12d x ++ [0]) (sizeT (-1)))
          sent := client.sent ++ [format12d x] }

def Client.afterReceive (client : Client) (x : ℤ) : ReadAndStore → Client
  | .returned ulen result =>
      if ulen = 0 then { client with phase := .sendEndOfTransmission writeEot }
      else
        match result with
        | none => { client with phase := .fault }
        | some buffer =>
            { client with
              phase := .prompt
              printed := client.printed ++ [(x, atoi (cString buffer))]
              received := client.received ++ [buffer] }
  | call => { client with phase := .receive x call }

def ClientPhase.afterSend (x : ℤ) : WriteString → ClientPhase
  | .returned => .receive x .header
  | call => .send x call

def ClientPhase.afterSendEndOfTransmission : WriteString → ClientPhase
  | .returned => .receiveEndOfTransmission .header
  | call => .sendEndOfTransmission call

def ClientPhase.afterReceiveEndOfTransmission : ReadAndStore → ClientPhase
  | .returned _ _ => .closed
  | call => .receiveEndOfTransmission call

def clientReader : ByteStream.Reader Client UInt8 where
  asked client :=
    match client.phase with
    | .receive _ call => call.asked
    | .receiveEndOfTransmission call => call.asked
    | _ => none
  whole client := client.phase = .receiveEndOfTransmission .header ∨
    ∃ x, client.phase = .receive x .header
  onRead client bytes :=
    match client.phase with
    | .receive x call => client.afterReceive x (call.onRead (.received bytes))
    | .receiveEndOfTransmission call =>
        { client with phase := .afterReceiveEndOfTransmission (call.onRead (.received bytes)) }
    | _ => client

def clientWriter : ByteStream.Writer Client UInt8 where
  offered client :=
    match client.phase with
    | .send _ call => call.offered
    | .sendEndOfTransmission call => call.offered
    | _ => none
  whole client :=
    match client.phase with
    | .send _ call => Transmission.writer.whole call
    | .sendEndOfTransmission call => Transmission.writer.whole call
    | _ => False
  onWrite client k :=
    match client.phase with
    | .send x call => { client with phase := .afterSend x (call.onWrite k) }
    | .sendEndOfTransmission call =>
        { client with phase := .afterSendEndOfTransmission (call.onWrite k) }
    | _ => client

def clientParty : ByteStream.Party Client UInt8 where
  reader := clientReader
  writer := clientWriter
  thinks client :=
    match client.phase with
    | .prompt => some client.enterLine
    | _ => none
  offered_of_asked := by
    intro ⟨stdin, phase, printed, sent, received⟩ h
    cases phase with
    | send x call => exact absurd rfl h
    | sendEndOfTransmission call => exact absurd rfl h
    | _ => rfl
  asked_of_thinks := by
    intro ⟨stdin, phase, printed, sent, received⟩ h
    cases phase with
    | receive x call => exact absurd rfl h
    | receiveEndOfTransmission call => exact absurd rfl h
    | _ => rfl
  offered_of_thinks := by
    intro ⟨stdin, phase, printed, sent, received⟩ h
    cases phase with
    | send x call => exact absurd rfl h
    | sendEndOfTransmission call => exact absurd rfl h
    | _ => rfl

/-- A client and the handler that serves it. -/
abbrev Session :=
  ByteStream.Duplex Client HandleTcpClient UInt8

abbrev Server.SessionStep (server : Server) : Session → Session → Prop :=
  ByteStream.DuplexStep clientParty server.party

def Session.start (stdin : Bytes) : Session :=
  ⟨.start stdin, .receive .header, [], []⟩

end SysProg.Square
