import SysProg.Model.Text

/-! # The square daemon behind a named pipe

`find_start` and `daemon_process` of `posix/processes/h3-daemon-named-pipe.c`. A read gets some of
the bytes in the pipe, or nothing at the end of file, after which the pipe is opened again. -/

namespace SysProg.DaemonNamedPipe

open Transmission

/-- The daemon in `find_start`, in the loop after it, or after `exit(0)`. -/
inductive Daemon where
  | findStart
  | squaring
  | exited
  deriving DecidableEq, Repr

/-- The number of bytes that the next read asks for. -/
def Daemon.asked : Daemon → Option ℕ
  | .findStart => some 1
  | .squaring => some 1024
  | .exited => none

/-- What is written to `out` after a read. -/
def outbuf (buf : Bytes) : Bytes :=
  let x := atoi buf
  let y := int32 (x * x)
  formatInt y ++ [10]

/-- The daemon after a read, and what it has written. -/
def Daemon.onRead : Daemon → Bytes → Daemon × Bytes
  | .findStart, buf => if buf = [83] then (.squaring, []) else (.findStart, [])
  | .squaring, buf =>
      if buf = [] then (.squaring, [])
      else if buf.any fun b => b == 81 || b == 113 then (.exited, [])
      else (.squaring, outbuf buf)
  | .exited, _ => (.exited, [])

/-- No read gets more than it asks for. -/
inductive Daemon.Reads : Daemon → List Bytes → Prop
  | nil (daemon : Daemon) : Reads daemon []
  | read {daemon : Daemon} {n : ℕ} {buf : Bytes} {reads : List Bytes}
      (hask : daemon.asked = some n) (hle : buf.length ≤ n)
      (hrest : Reads (daemon.onRead buf).1 reads) : Reads daemon (buf :: reads)

/-- What is written to the output file in the course of the reads. -/
def Daemon.written (daemon : Daemon) : List Bytes → Bytes
  | [] => []
  | buf :: reads => (daemon.onRead buf).2 ++ (daemon.onRead buf).1.written reads

/-! ## Messages -/

def natural (digits : Bytes) : Option ℤ :=
  if digits ≠ [] ∧ digits.all isdigit then some (digitsValue digits) else none

/-- The number that a text is: an optional sign and digits. -/
def number (text : Bytes) : Option ℤ :=
  match text with
  | 45 :: digits => (natural digits).map (- ·)
  | 43 :: digits => natural digits
  | digits => natural digits

/-- A message to the daemon that is not meant to stop it; the square of a number is an `int`. -/
structure Message where
  text : Bytes
  newline_notMem : 10 ∉ text
  upper_notMem : 81 ∉ text
  lower_notMem : 113 ∉ text
  number_le : ∀ x, number text = some x → |x| ≤ 46340

def Message.value (message : Message) : Option ℤ :=
  number message.text

def Message.line (message : Message) : Bytes :=
  message.text ++ [10]

/-- The bytes in the pipe: the start signal and the messages. -/
def pipe (messages : List Message) : Bytes :=
  83 :: messages.flatMap Message.line

/-- The squares of the numbers, one per line. -/
def squares (messages : List Message) : Bytes :=
  (messages.filterMap Message.value).flatMap fun x => formatInt (x * x) ++ [10]

end SysProg.DaemonNamedPipe
