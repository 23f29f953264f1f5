import SysProg.Model.SortedWords

/-! # The printing of the sorted words

`print_sorted_words` of `posix/threads/thread-sort-once.c` and `thread-sort-once-pd.c`, from the
moment on when the words have been sorted. -/

namespace SysProg.PrintedWords

open Transmission SortedWords

/-- A computation that prints: its texts and its result. A text is `none` if it comes from memory
that has not been written, and there is no result after an access outside of `line`. -/
def Prints (α : Type) : Type :=
  List (Option Bytes) × Option α

instance : Monad Prints where
  pure a := ([], some a)
  bind m f :=
    match m with
    | (texts, none) => (texts, none)
    | (texts, some a) => (texts ++ (f a).1, (f a).2)

def printf (text : Option Bytes) : Prints Unit :=
  ([text], some ())

/-- `printf("%s\n", str)` -/
def printLine (str : Option Bytes) : Prints Unit :=
  printf (str.map fun bytes => bytes ++ [10])

/-- The string at the beginning of a block of memory. -/
def stringAt : List (Option UInt8) → Option Bytes
  | [] => none
  | none :: _ => none
  | some b :: block => if b = 0 then some [] else (stringAt block).map (b :: ·)

/-- The block of the array `line`, the pointer `pos` into it, and `used_len`. -/
structure Line where
  block : List (Option UInt8)
  pos : ℤ
  usedLen : ℕ
  deriving DecidableEq, Repr

/-- `char line[LINE_SIZE+1]` -/
def Line.start : Line :=
  ⟨List.replicate (LINE_SIZE + 1).toNat none, 0, 0⟩

/-- The line is printed when `len` more bytes do not fit. -/
def Line.makeRoom (line : Line) (len : ℤ) : Prints Line :=
  if sizeT (line.usedLen + len) > LINE_SIZE then do
    printLine (stringAt line.block)
    return ⟨line.block, 0, 0⟩
  else return line

/-- `sprintf(pos, " %s", strings[i])` and what follows. -/
def Line.storeWord (line : Line) (str : Bytes) (len : ℤ) : Prints Line :=
  ([], (storeBytes line.block line.pos (32 :: str)).map fun block =>
    ⟨block, line.pos + len, sizeT (line.usedLen + len)⟩)

/-- The rest of the loop body, when `len` has been computed for the string `str`. -/
def Line.append (line : Line) (str : Bytes) (len : ℤ) : Prints Line := do
  let line ← line.makeRoom len
  if len > LINE_SIZE + 1 then
    printLine (stringAt (str.map some))
    return line
  else line.storeWord str len

/-- The body of the loop; `str` is the memory with the word and its NUL byte. -/
def Line.addWord (line : Line) (str : Bytes) : Prints Line :=
  line.append str (int32 (strlen str + 1))

/-- The last line is printed. -/
def Line.finish (line : Line) : Prints Unit :=
  if line.usedLen > 0 then printLine (stringAt line.block) else pure ()

def printSortedWords (idx : ℤ) (strings : List Bytes) : Prints Unit := do
  printf (some (10 :: rule))
  printf (some (threadTitle idx))
  printf (some rule)
  let line ← strings.foldlM Line.addWord .start
  line.finish
  printf (some (rule ++ [10]))

end SysProg.PrintedWords
