import SysProg.Model.Pager

/-! # The pager for words

The loop of `posix/io/wleast.c` over the keys, for the array that `split_to_array` returns: the
`memory` of the strings and the pointers into it. -/

namespace SysProg.Wleast

open Pager SplitToArray Transmission

/-- The variables of the loop and what has been printed. -/
structure View where
  pos : ℕ
  prevC : UInt8
  output : List Printf
  quit : Bool
  deriving DecidableEq, Repr

def View.initial : View :=
  ⟨0, 0, [], false⟩

/-- Print the string with number `newPos`. -/
def View.display (s : View) (memory : Bytes) (strings : List ℕ) (c : UInt8) (format : String)
    (newPos pos : ℕ) : Run View := do
  let pointer ← load strings newPos
  let string ← stringAt memory pointer
  .ok { s with
    pos := pos
    prevC := c
    output := s.output ++ onChange s.prevC c "\n" ++ [⟨format, string⟩] }

/-- One turn of the loop. For an empty array, `strings.len - 1` is no index either. -/
def press (memory : Bytes) (strings : List ℕ) (s : View) (key : UInt8) : Run View :=
  if isIgnored key then .ok s
  else
    let c := toUpper key
    if isQuit c then .ok { s with output := s.output ++ [⟨"\nQ\n", []⟩], quit := true }
    else if isUp c then
      let newPos := if s.pos > 0 then s.pos - 1 else 0
      s.display memory strings c " %s" newPos newPos
    else if isDown c then
      let newPos := if s.pos < strings.length then s.pos else strings.length - 1
      s.display memory strings c " %s" newPos (newPos + 1)
    else if c = 71 then
      let newPos := strings.length - 1
      s.display memory strings c " %s <<<" newPos (newPos + 1)
    else if c = 70 then s.display memory strings c " >>> %s" 0 1
    else .ok { s with prevC := c, output := s.output ++ printOther s.prevC c }

/-- A key is pressed before the pager has ended. -/
def Presses (memory : Bytes) (strings : List ℕ) (s t : View) : Prop :=
  s.quit = false ∧ ∃ key, press memory strings s key = .ok t

end SysProg.Wleast
