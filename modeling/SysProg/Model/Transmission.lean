import SysProg.Library.ByteStream

/-! # The transmission protocol

`posix/lib/transmission-protocols.c`. A frame is the length of a string as four bytes in
network order, followed by the string. Each function is a machine that makes one call of
`read`, `recv` or `write` after the other; it keeps the results of these calls in
variables of type `size_t`. -/

namespace SysProg.Transmission

abbrev Bytes :=
  List UInt8

/-- The conversion to `size_t`. -/
def sizeT (n : ℤ) : ℕ :=
  (n % 2 ^ 64).toNat

/-- The four bytes of `htonl(n)`. -/
def htonl (n : ℕ) : Bytes :=
  [UInt8.ofNat (n / 2 ^ 24), UInt8.ofNat (n / 2 ^ 16), UInt8.ofNat (n / 2 ^ 8), UInt8.ofNat n]

def ntohl (bytes : Bytes) : ℕ :=
  bytes.foldl (fun n b => 256 * n + b.toNat) 0

def frame (str : Bytes) : Bytes :=
  htonl str.length ++ str

def strlen (str : Bytes) : ℕ :=
  (str.takeWhile fun b => b != 0).length

/-! ## `write_string` -/

/-- `exited` is the way out for a string that is too long. -/
inductive WriteString where
  | header (str : Bytes) (len : ℕ)
  | payload (str : Bytes) (ptr : ℤ) (restLen : ℕ)
  | returned
  | exited
  deriving DecidableEq, Repr

/-- `str` is the memory that the pointer leads to, with the NUL byte of the string. -/
def writeString (str : Bytes) (len : ℕ) : WriteString :=
  let len := if len = sizeT (-1) then strlen str else len
  let ulen := len % 2 ^ 32
  if ulen ≠ len then .exited else .header str len

def writeEot : WriteString :=
  writeString [0] 0

/-- The bytes that the next `write` offers; it does not read beyond the memory. -/
def WriteString.offered : WriteString → Option Bytes
  | .header _ len => some (htonl (len % 2 ^ 32))
  | .payload str ptr restLen =>
      if 0 ≤ ptr ∧ ptr + restLen ≤ str.length then some ((str.drop ptr.toNat).take restLen)
      else none
  | .returned => none
  | .exited => none

/-- The test `rest_len > 0`. -/
def WriteString.loop (str : Bytes) (ptr : ℤ) (restLen : ℕ) : WriteString :=
  if restLen > 0 then .payload str ptr restLen else .returned

/-- The function ignores the result of the `write` of the header. -/
def WriteString.onWrite : WriteString → ℤ → WriteString
  | .header str len, _ => .loop str 0 len
  | .payload str ptr restLen, partialLen =>
      .loop str (ptr + partialLen) (sizeT (restLen - partialLen))
  | .returned, _ => .returned
  | .exited, _ => .exited

/-! ## The two readers -/

/-- What `read` or `recv` stores and returns: no bytes at the end of the stream, or -1. -/
inductive ReadResult where
  | received (bytes : Bytes)
  | failed

def ReadResult.bytes : ReadResult → Bytes
  | .received bytes => bytes
  | .failed => []

def ReadResult.count : ReadResult → ℤ
  | .received bytes => bytes.length
  | .failed => -1

/-- `read_and_store_string`. `buffer` is the block of memory with the bytes that have been
stored; `fault` is an access outside of it. What it returns is `ulen` and the block that
`*result` leads to, if it has been set. -/
inductive ReadAndStore where
  | header
  | payload (ulen : ℕ) (buffer : List (Option UInt8)) (ptr : ℤ) (restLen : ℕ)
  | returned (ulen : ℕ) (result : Option (List (Option UInt8)))
  | died
  | fault
  deriving DecidableEq, Repr

def ReadAndStore.asked : ReadAndStore → Option ℕ
  | .header => some 4
  | .payload _ _ _ restLen => some restLen
  | _ => none

/-- `malloc(ulen + 1)` computes with 32 bits. -/
def ReadAndStore.allocate (ulen : ℕ) : ReadAndStore :=
  let buffer := List.replicate ((ulen + 1) % 2 ^ 32) none
  if ulen < buffer.length then .payload ulen (buffer.set ulen (some 0)) 0 ulen else .fault

/-- The bytes that a call stores at `ptr`. -/
def storeBytes (buffer : List (Option UInt8)) (ptr : ℤ) (bytes : Bytes) :
    Option (List (Option UInt8)) :=
  if bytes = [] then some buffer
  else if 0 ≤ ptr ∧ ptr + bytes.length ≤ buffer.length then
    some (buffer.take ptr.toNat ++ bytes.map some ++ buffer.drop (ptr.toNat + bytes.length))
  else none

def ReadAndStore.onRead : ReadAndStore → ReadResult → ReadAndStore
  | .header, result =>
      if sizeT result.count ≠ 4 then .returned 0 none
      else
        let ulen := ntohl result.bytes
        if ulen = 0 then .returned 0 (some [some 0]) else .allocate ulen
  | .payload ulen buffer ptr restLen, result =>
      match storeBytes buffer ptr result.bytes with
      | none => .fault
      | some buffer =>
          if sizeT result.count = 0 then .died
          else
            let restLen := sizeT (restLen - sizeT result.count)
            if restLen > 0 then .payload ulen buffer (ptr + result.count) restLen
            else .returned ulen (some buffer)
  | r, _ => r

/-- A call of `consume`: the length it is given and the bytes that have just been read
into the buffer. -/
structure Consumed where
  len : ℕ
  received : Bytes
  deriving DecidableEq, Repr

/-- `read_string_fragmentable` with the calls of `consume` it has made. -/
inductive ReadFragmentable where
  | header
  | payload (ulen restLen : ℕ) (calls : List Consumed)
  | returned (ulen : ℕ) (calls : List Consumed)
  | died
  deriving DecidableEq, Repr

def ReadFragmentable.asked (bufferSize : ℕ) : ReadFragmentable → Option ℕ
  | .header => some 4
  | .payload _ restLen _ => some (if restLen > bufferSize then bufferSize else restLen)
  | _ => none

def ReadFragmentable.onRead : ReadFragmentable → ReadResult → ReadFragmentable
  | .header, result =>
      if sizeT result.count ≠ 4 then .died
      else
        let ulen := ntohl result.bytes
        if ulen = 0 then .returned 0 [] else .payload ulen ulen []
  | .payload ulen restLen calls, result =>
      if sizeT result.count = 0 then .died
      else
        let calls := calls ++ [⟨sizeT result.count, result.bytes⟩]
        let restLen := sizeT (restLen - sizeT result.count)
        if restLen > 0 then .payload ulen restLen calls else .returned ulen calls
  | r, _ => r

/-! ## The functions on a stream -/

/-- The header is accepted by one `write`. -/
def writer : ByteStream.Writer WriteString UInt8 where
  offered := WriteString.offered
  whole
    | .header _ _ => True
    | _ => False
  onWrite w k := w.onWrite k

/-- The header is returned by one `recv`. -/
def storeReader : ByteStream.Reader ReadAndStore UInt8 where
  asked := ReadAndStore.asked
  whole r := r = .header
  onRead r bytes := r.onRead (.received bytes)

def fragmentReader (bufferSize : ℕ) : ByteStream.Reader ReadFragmentable UInt8 where
  asked := ReadFragmentable.asked bufferSize
  whole r := r = .header
  onRead r bytes := r.onRead (.received bytes)

end SysProg.Transmission
