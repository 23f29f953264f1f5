import SysProg.Model.SplitToArray

/-! # The accesses of `split_to_array`

The loops of `split_to_array` with what they read and write in the memory of the file. -/

namespace SysProg.SplitToArray

open Transmission

/-- A byte that is read or written, and its index in the contents. -/
inductive Access where
  | read (idx : ℕ) (c : UInt8)
  | write (idx : ℕ) (c : UInt8)
  deriving DecidableEq, Repr

/-- A computation with its accesses. -/
def Logged (α : Type) : Type :=
  List Access × Run α

instance : Monad Logged where
  pure a := ([], .ok a)
  bind m f :=
    match m with
    | (log, .error fault) => (log, .error fault)
    | (log, .ok a) => (log ++ (f a).1, (f a).2)

/-- A computation that does not access the contents. -/
def silent {α : Type} (run : Run α) : Logged α :=
  ([], run)

def loadTr (content : Bytes) (idx : ℕ) : Logged UInt8 :=
  match load content idx with
  | .ok c => ([.read idx c], .ok c)
  | .error fault => ([], .error fault)

def storeTr (content : Bytes) (idx : ℕ) (c : UInt8) : Logged Bytes :=
  ([.write idx c], storeRange content idx [c])

/-- `copyString` with its accesses. -/
def copyStringTr (content : Bytes) (endPointer source target : ℕ) : Logged (Bytes × ℕ × ℕ) :=
  if source ≤ endPointer then do
    let c ← loadTr content source
    if isStringChar c then do
      let content ← storeTr content target c
      copyStringTr content endPointer (source + 1) (target + 1)
    else do
      let content ← storeTr content target 0
      return (content, source + 1, target + 1)
  else return (content, source, target)
termination_by endPointer + 1 - source

/-- `skipSeparators` with its accesses. -/
def skipSeparatorsTr (content : Bytes) (endPointer source : ℕ) : Logged ℕ :=
  if source ≤ endPointer then do
    let c ← loadTr content source
    if isStringChar c then return source
    else skipSeparatorsTr content endPointer (source + 1)
  else return source
termination_by endPointer + 1 - source

/-- A pass of the outer loop. -/
structure Pass where
  stringPointer : ℕ
  accesses : List Access
  deriving DecidableEq, Repr

/-- The body of the outer loop: the contents, `source_pointer`, `target_pointer` and the blocks
after it. -/
def passTr (endPointer : ℕ) (content : Bytes) (source target : ℕ) (blocks : Blocks) :
    Logged (Bytes × ℕ × ℕ × Blocks) := do
  let (content, source, stringEnd) ← copyStringTr content endPointer source target
  let blocks ← silent (recordString blocks target stringEnd)
  let source ← skipSeparatorsTr content endPointer source
  return (content, source, stringEnd, blocks)

/-- `splitLoop` with its passes. -/
def splitLoopTr (endPointer : ℕ) :
    ℕ → Bytes → ℕ → ℕ → Blocks → List Pass × Run (Bytes × Blocks)
  | 0, content, source, _, blocks =>
      ([], if source ≤ endPointer then .error .nonTermination else .ok (content, blocks))
  | fuel + 1, content, source, target, blocks =>
      if source ≤ endPointer then
        match passTr endPointer content source target blocks with
        | (log, .error fault) => ([⟨target, log⟩], .error fault)
        | (log, .ok (content, source, stringEnd, blocks)) =>
            let (passes, result) := splitLoopTr endPointer fuel content source stringEnd blocks
            (⟨target, log⟩ :: passes, result)
      else ([], .ok (content, blocks))

/-- The last loop does not access the contents. -/
def splitToArrayTr (content : Bytes) (size : ℕ) : List Pass × Run (Bytes × List ℕ) :=
  let (passes, result) := splitLoopTr size (size + 1) content 0 0 .initial
  (passes, do
    let (content, blocks) ← result
    if blocks.stringCount < 2 ^ 31 then do
      let strings ← blocks.collect blocks.stringCount 0 0
      .ok (content, strings)
    else .error .overflow)

end SysProg.SplitToArray
