import SysProg.Model.SplitToArray
import SysProg.Model.Text

/-! # The keys of the pagers

What the loops of `posix/io/least.c` and `posix/io/wleast.c` have in common. -/

namespace SysProg.Pager

open Transmission

/-- A `printf` and the bytes for its `%s`, `%c` and `%x`. -/
structure Printf where
  format : String
  arg : Bytes
  deriving DecidableEq, Repr

/-- As `char` is signed, only the characters from `'\173'` to `'\177'` are greater than `'z'`. -/
def isIgnored (c : UInt8) : Bool :=
  c == 0 || 122 < c && c < 128

def toUpper (c : UInt8) : UInt8 :=
  if 97 ≤ c && c ≤ 122 then c - 97 + 65 else c

/-- The first `printf` of a command. -/
def onChange (prevC c : UInt8) (format : String) : List Printf :=
  if c ≠ prevC then [⟨format, []⟩] else []

/-- The commands of the `switch` that end the loop. -/
def isQuit (c : UInt8) : Bool :=
  c == 81 || c == 3 || c == 4

/-- `'J'` or `'\x10'` -/
def isUp (c : UInt8) : Bool :=
  c == 74 || c == 16

/-- `'K'` or `'\x0e'` -/
def isDown (c : UInt8) : Bool :=
  c == 75 || c == 14

/-- What the commands print that move nothing. -/
def printOther (prevC c : UInt8) : List Printf :=
  if c = 45 then
    onChange prevC c "\n------------------------------------------------------------\n"
  else if c = 10 ∨ c = 13 then [⟨"\n", []⟩]
  else [⟨"\nunknown code: %x / %c\n", [c, c]⟩]

end SysProg.Pager
