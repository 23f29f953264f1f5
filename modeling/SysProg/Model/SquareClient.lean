import SysProg.Library.Pieces
import SysProg.Model.Square

/-! # The square client without a protocol

`main` of `posix/socket/tcp-square-client.c` and `tcp-square-client-ipv6.c` from the
connection on, which differ in the address, and `handle_tcp_client` of
`posix/socket/tcp-square-server.c`. `send` takes each string as a whole; the pieces say
what `recv` gets. -/

namespace SysProg.SquareClient

open Transmission ByteStream

def RCVBUFSIZE : ℕ := 32

/-- How a program ends that does not reach its end; `fault` is an access outside of a buffer. -/
inductive Failure where
  | dieWithError (message : String)
  | fault
  deriving DecidableEq, Repr

/-- Stores the bytes at `square_buffer + ptr`. -/
def store (squareBuffer : List (Option UInt8)) (ptr : ℕ) (bytes : Bytes) :
    Except Failure (List (Option UInt8)) :=
  match storeBytes squareBuffer ptr bytes with
  | some squareBuffer => .ok squareBuffer
  | none => .error .fault

/-! ## The client -/

/-- The body of the loop behind `recv`: the NUL byte is put at `bytes_received`. -/
def storePiece (squareBuffer : List (Option UInt8)) (ptr : ℕ) (bytes : Bytes) :
    Except Failure (List (Option UInt8)) := do
  let squareBuffer ← store squareBuffer ptr bytes
  store squareBuffer bytes.length [0]

/-- The loop from a turn on. -/
def receiveLoop (inputStringLen : ℕ) (pieces : List Bytes) (squareBuffer : List (Option UInt8))
    (totalBytesReceived ptr : ℕ) : Except Failure (List (Option UInt8)) :=
  if totalBytesReceived < inputStringLen then
    let received := receive (RCVBUFSIZE - 1 - totalBytesReceived) pieces
    let bytesReceived := received.1.length
    if bytesReceived = 0 then
      .error (.dieWithError "recv() failed or connection closed prematurely")
    else do
      let squareBuffer ← storePiece squareBuffer ptr received.1
      receiveLoop inputStringLen received.2 squareBuffer (totalBytesReceived + bytesReceived)
        (ptr + bytesReceived)
  else .ok squareBuffer
termination_by inputStringLen - totalBytesReceived
decreasing_by
  have hpos : ¬ (receive (RCVBUFSIZE - 1 - totalBytesReceived) pieces).1.length = 0 := ‹_›
  omega

/-- What the client sends. -/
def inputString (x : ℤ) : Bytes :=
  format12d x

/-- What the client prints at the end, and the string that it has parsed. -/
structure Printed where
  squareString : Bytes
  x : ℤ
  y : ℤ
  deriving DecidableEq, Repr

/-- A client with its number and the pieces in which the reply arrives. -/
abbrev Client :=
  ℤ → List Bytes → Except Failure Printed

def clientMain : Client :=
  fun x pieces => do
    let inputStringLen := strlen (inputString x ++ [0])
    let squareBuffer ← receiveLoop inputStringLen pieces (List.replicate RCVBUFSIZE none) 0 0
    let y := atoi (cString squareBuffer)
    .ok ⟨cString squareBuffer, x, y⟩

def tcpSquareClient : Client :=
  clientMain

def tcpSquareClientIpv6 : Client :=
  clientMain

/-! ## The server -/

/-- `handle_tcp_client`: the strings that it sends, and how it ends. -/
def handleTcpClient (squareBuffer : List (Option UInt8)) (pieces : List Bytes) :
    List Bytes × Except Failure Unit :=
  if _ : (receive (RCVBUFSIZE - 1) pieces).1 = [] then ([], .ok ())
  else
    let message := (receive (RCVBUFSIZE - 1) pieces).1
    match store squareBuffer 0 message >>= fun buffer => store buffer message.length [0] with
    | .error e => ([], .error e)
    | .ok buffer =>
        let text := Square.square buffer
        match store buffer 0 (text ++ [0]) with
        | .error e => ([], .error e)
        | .ok buffer =>
            if text.length ≠ message.length then
              ([text], .error (.dieWithError "send() failed"))
            else
              let later := handleTcpClient buffer (receive (RCVBUFSIZE - 1) pieces).2
              (text :: later.1, later.2)
termination_by pieces.flatten.length
decreasing_by
  have hpos := List.length_pos_iff.mpr ‹¬(receive (RCVBUFSIZE - 1) pieces).1 = []›
  have hsplit := congrArg List.length (receive_append (RCVBUFSIZE - 1) pieces)
  rw [List.length_append] at hsplit
  omega

end SysProg.SquareClient
