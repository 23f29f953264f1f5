import SysProg.Model.Text

/-! # The transmission of the sorted words

`transmit_sorted_words` of `posix/socket/tcp-thread-sorted-once-server.c`, from the moment on
when the words have been sorted, and the loop of `posix/socket/tcp-thread-sorted-once-client.c`
that prints them. -/

namespace SysProg.SortedWords

open Transmission

/-! ## The server -/

/-- A computation that calls `write_string`: its calls and its result. There is no result after
an access outside of `line`. -/
def Emits (α : Type) : Type :=
  List WriteString × Option α

instance : Monad Emits where
  pure a := ([], some a)
  bind m f :=
    match m with
    | (calls, none) => (calls, none)
    | (calls, some a) => (calls ++ (f a).1, (f a).2)

def emit (call : WriteString) : Emits Unit :=
  ([call], some ())

def LINE_SIZE : ℤ :=
  200

/-- The block of the array `line`, the pointer `pos` into it, and `used_len`. -/
structure Line where
  block : Bytes
  pos : ℤ
  usedLen : ℕ
  deriving DecidableEq, Repr

/-- Bytes are stored in the block. -/
def store (block : Bytes) (pos : ℤ) (bytes : Bytes) : Emits Bytes :=
  ([], if 0 ≤ pos ∧ pos + bytes.length ≤ block.length then
    some (block.take pos.toNat ++ bytes ++ block.drop (pos.toNat + bytes.length)) else none)

/-- The line is ended and written. -/
def Line.flush (line : Line) : Emits Line := do
  let block ← store line.block line.pos [10]
  let usedLen := sizeT (line.usedLen + 1)
  emit (writeString block usedLen)
  return ⟨block, line.pos, usedLen⟩

/-- The line is ended when `len` more bytes do not fit. -/
def Line.makeRoom (line : Line) (len : ℤ) : Emits Line :=
  if sizeT (line.usedLen + len) > LINE_SIZE then do
    let flushed ← line.flush
    return ⟨flushed.block, 0, 0⟩
  else return line

/-- The last line is ended. -/
def Line.finish (line : Line) : Emits Line :=
  if line.usedLen > 0 then line.flush else return line

/-- The rest of the loop body, when `len` has been computed for the string `str`. -/
def Line.append (line : Line) (str : Bytes) (len : ℤ) : Emits Line := do
  let line ← line.makeRoom len
  if len > LINE_SIZE + 1 then
    emit (writeString str (sizeT (len - 1)))
    emit (writeString [10, 0] 1)
    return line
  else
    let block ← store line.block line.pos (32 :: str)
    return ⟨block, line.pos + len, sizeT (line.usedLen + len)⟩

/-- The body of the loop; `str` is the memory with the word and its NUL byte. -/
def Line.addWord (line : Line) (str : Bytes) : Emits Line :=
  line.append str (int32 (strlen str + 1))

/-- `"------------------------------------------------------------\n"` -/
def rule : Bytes :=
  List.replicate 60 45 ++ [10]

/-- `"thread %d\n"` -/
def threadTitle (idx : ℤ) : Bytes :=
  [116, 104, 114, 101, 97, 100, 32] ++ formatInt idx ++ [10]

/-- `"GETX"` with its NUL byte -/
def GETX : Bytes :=
  [71, 69, 84, 88, 0]

/-- `buff` is the command that has been read, `block` the array `line`. -/
def transmitSortedWords (buff : Bytes) (idx : ℤ) (block : Bytes) (strings : List Bytes) :
    Emits Unit :=
  if buff = GETX then do
    emit (writeString (10 :: rule ++ [0]) (sizeT (-1)))
    let block ← store block 0 (threadTitle idx ++ [0])
    emit (writeString block (sizeT (-1)))
    emit (writeString (rule ++ [0]) (sizeT (-1)))
    let line ← strings.foldlM Line.addWord ⟨block, 0, 0⟩
    let _ ← line.finish
    emit (writeString (rule ++ [10] ++ [0]) (sizeT (-1)))
    emit (writeString [0] 0)
  else pure ()

/-- Calls of `write_string`, one after the other. -/
def callsWriter : ByteStream.Writer (List WriteString) UInt8 where
  offered
    | [] => none
    | call :: _ => call.offered
  whole
    | [] => False
    | call :: _ => Transmission.writer.whole call
  onWrite
    | [], _ => []
    | call :: calls, k =>
        match call.onWrite k with
        | .returned => calls
        | call => call :: calls

/-! ## The client -/

def RCVBUFSIZE : ℕ :=
  4096

/-- The call of `read_string_fragmentable` and the calls of `consume` before it, or the end of
the loop. -/
inductive Client where
  | receive (earlier : List Consumed) (call : ReadFragmentable)
  | done (earlier : List Consumed)
  deriving DecidableEq, Repr

def Client.start : Client :=
  .receive [] .header

/-- `consume` writes the bytes of its buffer to the standard output. -/
def consumed (calls : List Consumed) : Bytes :=
  calls.flatMap fun call => call.received.take call.len

def Client.stdout : Client → Bytes
  | .receive earlier (.payload _ _ calls) => consumed (earlier ++ calls)
  | .receive earlier (.returned _ calls) => consumed (earlier ++ calls)
  | .receive earlier _ => consumed earlier
  | .done earlier => consumed earlier

/-- `if (ulen == 0) break;` -/
def Client.afterReceive (earlier : List Consumed) : ReadFragmentable → Client
  | .returned ulen calls =>
      if ulen = 0 then .done (earlier ++ calls) else .receive (earlier ++ calls) .header
  | call => .receive earlier call

def clientReader : ByteStream.Reader Client UInt8 where
  asked
    | .receive _ call => call.asked RCVBUFSIZE
    | .done _ => none
  whole
    | .receive _ call => call = .header
    | .done _ => False
  onRead
    | .receive earlier call, bytes => .afterReceive earlier (call.onRead (.received bytes))
    | .done earlier, _ => .done earlier

end SysProg.SortedWords
