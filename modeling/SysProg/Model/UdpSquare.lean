import SysProg.Model.Memory
import SysProg.Model.Text

/-! # The square server for datagrams

The loop of `main` in `posix/socket/udp-square-server.c`. The clients and the output to the
terminal are left out. -/

namespace SysProg.UdpSquare

open Transmission

def SQUAREMAX : ℕ := 31

/-- `input_buffer`, which all datagrams are received in -/
structure InputBuffer where
  bytes : Bytes
  length_eq : bytes.length = SQUAREMAX + 1

/-- What follows the white space and the sign. -/
def unsigned (str : Bytes) : Bytes :=
  match str.dropWhile isspace with
  | 45 :: str => str
  | 43 :: str => str
  | str => str

/-- `atoi` stops at a character that does not belong to the number. -/
def numberEnds (str : Bytes) : Bool :=
  (unsigned str).any fun b => !isdigit b

/-- `atoi(input_buffer)`, which must not read behind the array -/
def atoiBuffer (buffer : InputBuffer) : Run ℤ :=
  if numberEnds buffer.bytes then .ok (atoi buffer.bytes) else .error .index

/-- The rest of a longer datagram is lost. -/
def recvfrom (buffer : InputBuffer) (datagram : Bytes) : InputBuffer where
  bytes := datagram.take SQUAREMAX ++ buffer.bytes.drop (datagram.take SQUAREMAX).length
  length_eq := by
    have := buffer.length_eq
    simp only [List.length_append, List.length_take, List.length_drop]
    omega

/-- What the server sends back. -/
def replyTo (buffer : InputBuffer) (datagram : Bytes) : Run Bytes := do
  let x ← atoiBuffer (recvfrom buffer datagram)
  let y := int32 (x * x)
  .ok (format12d y ++ [0])

/-- The buffer and the replies after some turns of the loop. -/
def serve (buffer : InputBuffer) : List Bytes → Run (InputBuffer × List Bytes)
  | [] => .ok (buffer, [])
  | datagram :: datagrams => do
      let reply ← replyTo buffer datagram
      let (final, replies) ← serve (recvfrom buffer datagram) datagrams
      .ok (final, reply :: replies)

/-- A datagram of 1 to `SQUAREMAX` bytes. -/
structure Datagram where
  bytes : Bytes
  pos : 0 < bytes.length
  le : bytes.length ≤ SQUAREMAX

end SysProg.UdpSquare
