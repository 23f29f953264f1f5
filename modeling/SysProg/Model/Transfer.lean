import SysProg.Library.Channel
import SysProg.Model.Memory
import SysProg.Model.Transmission

/-! # Reading and writing all of a buffer

`readn` and `writen` of `posix/lib/lib.c`. Each call of `read` or `write` transfers a part of what
is left, nothing, or fails with a value of `errno`. -/

namespace SysProg.Transfer

open Transmission ByteStream

def EINTR : ℤ :=
  4

/-- What a system call returns, or the value of `errno` if it returns -1. -/
abbrev Outcome (α : Type) :=
  Except ℤ α

/-- The conversion to `ssize_t`. -/
def ssizeT (n : ℤ) : ℤ :=
  n.bmod (2 ^ 64)

/-! ## `writen` -/

inductive Writen where
  | loop (bufPtr restSize writtenSize : ℕ)
  | returned (size : ℤ)
  deriving DecidableEq, Repr

/-- The test `rest_size > 0`. -/
def Writen.test (bufPtr restSize writtenSize : ℕ) : Writen :=
  if restSize > 0 then .loop bufPtr restSize writtenSize else .returned (ssizeT writtenSize)

def writen (fd : ℤ) (totalSize : ℕ) : Writen :=
  if fd < 0 then .returned fd else .test 0 totalSize 0

/-- The bytes that the next `write` offers; it does not read beyond the buffer. -/
def Writen.offered (buf : Bytes) : Writen → Option Bytes
  | .loop bufPtr restSize _ =>
      if bufPtr + restSize ≤ buf.length then some ((buf.drop bufPtr).take restSize) else none
  | .returned _ => none

def Writen.onWrite : Writen → Outcome ℕ → Writen
  | .loop bufPtr restSize writtenSize, .error errno =>
      if errno = EINTR then .test bufPtr restSize writtenSize else .returned (-1)
  | .loop bufPtr restSize writtenSize, .ok partialSize =>
      if partialSize = 0 then .returned (ssizeT writtenSize)
      else .test (bufPtr + partialSize) (sizeT (restSize - partialSize))
        (sizeT (writtenSize + partialSize))
  | w, _ => w

def Writen.result : Writen → Option ℤ
  | .loop _ _ _ => none
  | .returned size => some size

/-! ## `readn` -/

/-- `fault` is an access outside of the buffer. -/
inductive Readn where
  | loop (buf : List (Option UInt8)) (bufPtr restSize readSize : ℕ)
  | returned (buf : List (Option UInt8)) (size : ℤ)
  | fault
  deriving DecidableEq, Repr

/-- The test `rest_size > 0`. -/
def Readn.test (buf : List (Option UInt8)) (bufPtr restSize readSize : ℕ) : Readn :=
  if restSize > 0 then .loop buf bufPtr restSize readSize else .returned buf (ssizeT readSize)

def readn (fd : ℤ) (buf : List (Option UInt8)) (totalSize : ℕ) : Readn :=
  if fd < 0 then .returned buf fd else .test buf 0 totalSize 0

def Readn.asked : Readn → Option ℕ
  | .loop _ _ restSize _ => some restSize
  | _ => none

def Readn.onRead : Readn → Outcome Bytes → Readn
  | .loop buf bufPtr restSize readSize, .error errno =>
      if errno = EINTR then .test buf bufPtr restSize readSize else .returned buf (-1)
  | .loop buf bufPtr restSize readSize, .ok bytes =>
      match storeBytes buf bufPtr bytes with
      | none => .fault
      | some buf =>
          let partialSize := bytes.length
          if partialSize = 0 then .returned buf (ssizeT readSize)
          else .test buf (bufPtr + partialSize) (sizeT (restSize - partialSize))
            (sizeT (readSize + partialSize))
  | r, _ => r

def Readn.result : Readn → Option ℤ
  | .returned _ size => some size
  | _ => none

def Readn.buffer : Readn → List (Option UInt8)
  | .loop buf _ _ _ => buf
  | .returned buf _ => buf
  | .fault => []

/-! ## The functions on a channel -/

def writer (buf : Bytes) : ByteStream.Writer Writen UInt8 where
  offered := Writen.offered buf
  whole _ := False
  onWrite w k := w.onWrite (.ok k)

def reader : ByteStream.Reader Readn UInt8 where
  asked := Readn.asked
  whole _ := False
  onRead r bytes := r.onRead (.ok bytes)

/-- `writen` and `readn` at the ends of a channel: a transfer, or a call that is interrupted by a
signal. -/
inductive FifoStep (capacity : ℕ) (buf : Bytes) :
    Channel Writen Readn UInt8 → Channel Writen Readn UInt8 → Prop
  | transfers {s t : Channel Writen Readn UInt8}
      (htransfer : ChannelStep capacity (writer buf) reader s t) : FifoStep capacity buf s t
  | writeInterrupted {w : Writen} {items : Bytes} {r : Readn} (hoffer : w.offered buf ≠ none) :
      FifoStep capacity buf ⟨w, items, r⟩ ⟨w.onWrite (.error EINTR), items, r⟩
  | readInterrupted {w : Writen} {items : Bytes} {r : Readn} (hask : r.asked ≠ none) :
      FifoStep capacity buf ⟨w, items, r⟩ ⟨w, items, r.onRead (.error EINTR)⟩

end SysProg.Transfer
