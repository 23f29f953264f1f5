import SysProg.Model.Pager

/-! # The pager for lines

The loop of `posix/io/least.c` over the keys. Of the memory at `buff` only what has been written
is modelled: the `size` bytes that `read` has delivered and a NUL byte. -/

namespace SysProg.Least

open Pager SplitToArray Transmission

def FILE_SIZE : ℕ := 64 * 1024 * 1024

/-- What one `read` delivers. -/
structure Content where
  bytes : Bytes
  length_le : bytes.length ≤ FILE_SIZE

/-- The variables of the loop and what has been printed. -/
structure View where
  buff : Bytes
  pos : ℕ
  prevC : UInt8
  output : List Printf
  quit : Bool
  deriving DecidableEq, Repr

def View.initial (content : Content) : View :=
  ⟨content.bytes ++ [0], 0, 0, [], false⟩

/-- `buff[j]` with an `int` as index. -/
def loadInt (buff : Bytes) (j : ℤ) : Run UInt8 :=
  if 0 ≤ j then load buff j.toNat else .error .index

/-- The loop of `'J'` that looks for a newline. -/
def lineBefore (buff : Bytes) (j : ℤ) : Run ℕ :=
  if 0 ≤ j then do
    let b ← loadInt buff j
    if b = 10 then .ok (j + 1).toNat else lineBefore buff (j - 1)
  else .ok 0
termination_by (j + 1).toNat

/-- The loop of `'K'` that looks for a newline. -/
def lineAfter (buff : Bytes) (size : ℕ) (j : ℤ) : Run ℕ :=
  if j < (size : ℤ) - 1 then do
    let b ← loadInt buff j
    if b = 10 then .ok (j + 1).toNat else lineAfter buff size (j + 1)
  else .ok size
termination_by ((size : ℤ) - 1 - j).toNat

/-- `strncpy` from `buff + off` to a `line` of `n + 1` bytes: the string in it. -/
def copyLine (buff : Bytes) (off n : ℕ) : Run Bytes := do
  let line ← loadRange buff off n
  .ok (line.takeWhile (· != 0))

/-- Print `n` bytes from `off` on, if `n` is not zero, and move to `newPos`. -/
def View.display (s : View) (c : UInt8) (off n newPos : ℕ) : Run View :=
  if n > 0 then do
    let line ← copyLine s.buff off n
    .ok { s with
      pos := newPos
      prevC := c
      output := s.output ++ onChange s.prevC c "\n" ++ [⟨"%s", line⟩] }
  else
    .ok { s with pos := newPos, prevC := c, output := s.output ++ onChange s.prevC c "\n" }

/-- One turn of the loop. The difference `pos - 2` is a `size_t` before it is converted. -/
def press (size : ℕ) (s : View) (key : UInt8) : Run View :=
  if isIgnored key then .ok s
  else
    let c := toUpper key
    let printed := s.output ++ onChange s.prevC c "\n"
    if isQuit c then .ok { s with output := s.output ++ [⟨"\nQ\n", []⟩], quit := true }
    else if isUp c then do
      let newPos ← lineBefore s.buff (int32 ((s.pos + (2 ^ 64 - 2)) % 2 ^ 64 : ℕ))
      s.display c newPos (s.pos - newPos) newPos
    else if isDown c then do
      let newPos ← lineAfter s.buff size (int32 s.pos)
      s.display c s.pos (newPos - s.pos) newPos
    else if c = 72 ∨ c = 2 then
      if s.pos > 0 then do
        let b ← load s.buff (s.pos - 1)
        .ok { s with pos := s.pos - 1, prevC := c, output := printed ++ [⟨"%c", [b]⟩] }
      else .ok { s with prevC := c, output := printed }
    else if c = 76 ∨ c = 6 then
      if s.pos < size then do
        let b ← load s.buff s.pos
        .ok { s with pos := s.pos + 1, prevC := c, output := printed ++ [⟨"%c", [b]⟩] }
      else .ok { s with prevC := c, output := printed }
    else if c = 71 then do
      let rest ← stringAt s.buff s.pos
      .ok { s with pos := size, prevC := c, output := printed ++ [⟨"%s", rest⟩] }
    else if c = 70 then do
      let cc ← load s.buff s.pos
      let buff := s.buff.set s.pos 0
      let front ← stringAt buff 0
      .ok { s with
        buff := buff.set s.pos cc
        pos := 0
        prevC := c
        output := printed ++ [⟨"%s\n", front⟩] }
    else .ok { s with prevC := c, output := s.output ++ printOther s.prevC c }

/-- A key is pressed before the pager has ended. -/
def Presses (size : ℕ) (s t : View) : Prop :=
  s.quit = false ∧ ∃ key, press size s key = .ok t

end SysProg.Least
