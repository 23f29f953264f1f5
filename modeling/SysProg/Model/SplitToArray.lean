import SysProg.Model.Memory
import SysProg.Model.Transmission

/-! # Splitting a file into strings

`read_to_array` and `split_to_array` of `posix/lib/lib.c`. The strings are moved together in the
memory that holds the contents of the file, and the array has pointers into that memory. -/

namespace SysProg.SplitToArray

open Transmission

def MAX_BLOCK_COUNT : ℕ := 100000

def MAX_BLOCK_SIZE : ℕ := 100000

/-- As `char` is signed, the bytes from 160 on are the characters from `'\240'` to `'\377'`. -/
def isStringChar (c : UInt8) : Bool :=
  65 ≤ c && c ≤ 90 || 48 ≤ c && c ≤ 57 || 97 ≤ c && c ≤ 122 || 160 ≤ c

/-- The two-level structure for the string pointers, with `none` for a `NULL` pointer and for
memory that has not been written. -/
structure Blocks where
  strings : ℕ → Option (ℕ → Option ℕ)
  stringCount : ℕ
  blockCount : ℕ
  stringPos : ℕ
  blockPos : ℕ

def Blocks.initial : Blocks :=
  ⟨fun _ => none, 0, 0, 0, 0⟩

/-- Store a string pointer. -/
def Blocks.record (blocks : Blocks) (stringPointer : ℕ) : Run Blocks :=
  if blocks.blockPos < MAX_BLOCK_COUNT then
    let block := (blocks.strings blocks.blockPos).getD fun _ => none
    .ok {
      strings := Function.update blocks.strings blocks.blockPos
        (some (Function.update block blocks.stringPos (some stringPointer)))
      stringCount := blocks.stringCount + 1
      blockCount := if (blocks.strings blocks.blockPos).isNone then blocks.blockCount + 1
        else blocks.blockCount
      stringPos := if MAX_BLOCK_SIZE ≤ blocks.stringPos + 1 then 0 else blocks.stringPos + 1
      blockPos := if MAX_BLOCK_SIZE ≤ blocks.stringPos + 1 then blocks.blockPos + 1
        else blocks.blockPos }
  else .error .index

/-- `blocks[block_pos].strings[string_pos]` -/
def Blocks.load (blocks : Blocks) (blockPos stringPos : ℕ) : Run ℕ :=
  match blocks.strings blockPos with
  | none => .error .nullPointer
  | some strings =>
      match strings stringPos with
      | none => .error .index
      | some stringPointer => .ok stringPointer

/-- The loop that copies the string pointers to the result, for `count` more of them. -/
def Blocks.collect (blocks : Blocks) : ℕ → ℕ → ℕ → Run (List ℕ)
  | 0, _, _ => .ok []
  | count + 1, blockPos, stringPos => do
      let stringPointer ← blocks.load blockPos stringPos
      let rest ← if MAX_BLOCK_SIZE ≤ stringPos + 1 then blocks.collect count (blockPos + 1) 0
        else blocks.collect count blockPos (stringPos + 1)
      .ok (stringPointer :: rest)

/-- The loop that goes through one string: the contents, `source_pointer` and
`target_pointer` after it. -/
def copyString (content : Bytes) (endPointer source target : ℕ) : Run (Bytes × ℕ × ℕ) :=
  if source ≤ endPointer then do
    let c ← load content source
    if isStringChar c then do
      let content ← storeRange content target [c]
      copyString content endPointer (source + 1) (target + 1)
    else do
      let content ← storeRange content target [0]
      .ok (content, source + 1, target + 1)
  else .ok (content, source, target)
termination_by endPointer + 1 - source

/-- The loop after it: `source_pointer` at the next string. -/
def skipSeparators (content : Bytes) (endPointer source : ℕ) : Run ℕ :=
  if source ≤ endPointer then do
    let c ← load content source
    if isStringChar c then .ok source
    else skipSeparators content endPointer (source + 1)
  else .ok source
termination_by endPointer + 1 - source

/-- `if (target_pointer > string_pointer)` -/
def recordString (blocks : Blocks) (stringPointer target : ℕ) : Run Blocks :=
  if stringPointer < target then blocks.record stringPointer else .ok blocks

/-- The outer loop, for at most `fuel` turns. -/
def splitLoop (endPointer : ℕ) : ℕ → Bytes → ℕ → ℕ → Blocks → Run (Bytes × Blocks)
  | 0, content, source, _, blocks =>
      if source ≤ endPointer then .error .nonTermination else .ok (content, blocks)
  | fuel + 1, content, source, target, blocks =>
      if source ≤ endPointer then do
        let (content, source, stringEnd) ← copyString content endPointer source target
        let blocks ← recordString blocks target stringEnd
        let source ← skipSeparators content endPointer source
        splitLoop endPointer fuel content source stringEnd blocks
      else .ok (content, blocks)

/-- The memory and the pointers into it. The last loop counts them with an `int`. -/
def splitToArray (content : Bytes) (size : ℕ) : Run (Bytes × List ℕ) := do
  let (content, blocks) ← splitLoop size (size + 1) content 0 0 .initial
  if blocks.stringCount < 2 ^ 31 then do
    let strings ← blocks.collect blocks.stringCount 0 0
    .ok (content, strings)
  else .error .overflow

/-- What one `read` transfers at most. -/
def MAX_RW_COUNT : ℕ := 0x7ffff000

/-- `none` if `read` has not delivered the whole file, which ends the process. -/
def readToArray (file : Bytes) : Run (Option (Bytes × List ℕ)) :=
  if min file.length MAX_RW_COUNT < file.length then .ok none
  else do
    let strings ← splitToArray (file ++ [0]) file.length
    .ok (some strings)

/-- The string that a pointer points to. -/
def stringAt (content : Bytes) (pointer : ℕ) : Run Bytes :=
  if 0 ∈ content.drop pointer then .ok ((content.drop pointer).takeWhile (· != 0))
  else .error .index

/-- The strings of an array, in its order. -/
def stringsAt (content : Bytes) : List ℕ → Run (List Bytes)
  | [] => .ok []
  | pointer :: pointers => do
      let string ← stringAt content pointer
      let rest ← stringsAt content pointers
      .ok (string :: rest)

end SysProg.SplitToArray
