import SysProg.Model.FsortMetrics
import SysProg.Model.SplitToArray

/-! # The smallest and the largest string of several files

`posix/threads/find-extreme-strings.c`: a thread for each file finds the extreme strings of its
file, and `main` merges the results in the order of the files. -/

namespace SysProg.FindExtremeStrings

open Transmission SplitToArray

/-- `struct result`, with the strings that its members point to. -/
structure Result where
  min : Bytes
  max : Bytes
  deriving DecidableEq

/-- One turn of the loop of `run`. A string whose first character is NUL is empty. -/
def Result.update (result : Result) (str : Bytes) : Result where
  min := if result.min = [] ∨ 0 < strcmp result.min str then str else result.min
  max := if result.max = [] ∨ strcmp result.max str < 0 then str else result.max

def scan : List Bytes → Result
  | [] => ⟨[], []⟩
  | first :: strings => (first :: strings).foldl Result.update ⟨first, first⟩

/-- The thread function; `none` if it has ended the process. -/
def run (file : Bytes) : Run (Option Result) := do
  let strings ← readToArray file
  match strings with
  | none => .ok none
  | some (content, pointers) => do
      let strings ← stringsAt content pointers
      .ok (some (scan strings))

/-- One turn of the loop of `main` that joins the threads, with `none` for `NULL`. -/
def merge (result : Option Result) (next : Result) : Option Result :=
  match result with
  | none => some next
  | some result => some {
      min := if 0 < strcmp result.min next.min then next.min else result.min
      max := if strcmp result.max next.max < 0 then next.max else result.max }

/-- The results of the threads, or `none` if one of them has ended the process. -/
def results : List Bytes → Run (Option (List Result))
  | [] => .ok (some [])
  | file :: files => do
      let result ← run file
      let rest ← results files
      .ok (result.bind fun result => rest.map (result :: ·))

/-- What the program prints as `min` and `max`. -/
def findExtremeStrings (files : List Bytes) : Run (Option Result) := do
  let found ← results files
  match found with
  | none => .ok none
  | some found =>
      match found.foldl merge none with
      | none => .error .nullPointer
      | some result => .ok (some result)

end SysProg.FindExtremeStrings
