import SysProg.Model.Memory

/-! # Heap sort and ternary heap sort

`posix/lib/hsort.c` and `posix/lib/ternary-hsort.c`. The two files have the same loops
and differ in the arity of the heap and in how the largest of a parent and its
children is found; the loops are therefore written once, over the arity and over the
function that makes the choice. -/

namespace SysProg.HeapSort

variable {α : Type}

/-- The loop of `sift_down` with at most `fuel` rounds; `select` returns `swap`. -/
def siftLoop (arity : ℕ) (select : List α → ℕ → ℕ → Run ℕ) (maxIndex : ℕ) :
    ℕ → List α → ℕ → Run (List α)
  | 0, _, _ => .error .nonTermination
  | fuel + 1, base, root =>
    if arity * root + 1 > maxIndex then .ok base
    else do
      let swap ← select base root maxIndex
      if swap ≠ root then do
        let base ← swapElements base root swap
        siftLoop arity select maxIndex fuel base swap
      else .ok base

/-- The root moves to a larger index in each round, so `maxIndex + 1` rounds suffice. -/
def siftDownWith (arity : ℕ) (select : List α → ℕ → ℕ → Run ℕ) (base : List α)
    (start maxIndex : ℕ) : Run (List α) :=
  siftLoop arity select maxIndex (maxIndex + 1) base start

/-- The loop of `heapify` from `i` down to `0`. -/
def heapifyFrom (sift : List α → ℕ → ℕ → Run (List α)) (maxIndex : ℕ) :
    ℕ → List α → Run (List α)
  | 0, base => sift base 0 maxIndex
  | i + 1, base => do
    let base ← sift base (i + 1) maxIndex
    heapifyFrom sift maxIndex i base

def heapifyWith (arity : ℕ) (sift : List α → ℕ → ℕ → Run (List α)) (base : List α) :
    Run (List α) :=
  let maxIndex := base.length - 1
  heapifyFrom sift maxIndex ((maxIndex - 1) / arity) base

/-- The loop of `hsort_r` from `end` down to `1`. -/
def extractFrom (sift : List α → ℕ → ℕ → Run (List α)) : ℕ → List α → Run (List α)
  | 0, base => .ok base
  | last + 1, base => do
    let base ← swapElements base 0 (last + 1)
    let base ← sift base 0 last
    extractFrom sift last base

def hsortWith (arity : ℕ) (sift : List α → ℕ → ℕ → Run (List α)) (base : List α) :
    Run (List α) :=
  if base.length ≤ 1 then .ok base
  else do
    let base ← heapifyWith arity sift base
    extractFrom sift (base.length - 1) base

/-- `if (compare(swap_ptr, child_ptr) < 0) swap = child` -/
def largerOf (compare : α → α → ℤ) (base : List α) (swap child : ℕ) : Run ℕ := do
  let swapVal ← load base swap
  let childVal ← load base child
  .ok (if compare swapVal childVal < 0 then child else swap)

/-! ## `hsort.c` -/

def selectChild (compare : α → α → ℤ) (base : List α) (root maxIndex : ℕ) : Run ℕ := do
  let leftChild := 2 * root + 1
  let swap ← largerOf compare base root leftChild
  let rightChild := leftChild + 1
  if rightChild ≤ maxIndex then largerOf compare base swap rightChild else .ok swap

def siftDown (compare : α → α → ℤ) : List α → ℕ → ℕ → Run (List α) :=
  siftDownWith 2 (selectChild compare)

def heapify (compare : α → α → ℤ) : List α → Run (List α) :=
  heapifyWith 2 (siftDown compare)

def hsortR (compare : α → α → ℤ) : List α → Run (List α) :=
  hsortWith 2 (siftDown compare)

/-! ## `ternary-hsort.c` -/

def ternarySelectChild (compare : α → α → ℤ) (base : List α) (root maxIndex : ℕ) :
    Run ℕ := do
  let leftChild := 3 * root + 1
  let swap ← largerOf compare base root leftChild
  let middleChild := 3 * root + 2
  let rightChild := 3 * root + 3
  if middleChild ≤ maxIndex then do
    let swap ← largerOf compare base swap middleChild
    if rightChild ≤ maxIndex then largerOf compare base swap rightChild else .ok swap
  else .ok swap

def ternarySiftDown (compare : α → α → ℤ) : List α → ℕ → ℕ → Run (List α) :=
  siftDownWith 3 (ternarySelectChild compare)

def ternaryHeapify (compare : α → α → ℤ) : List α → Run (List α) :=
  heapifyWith 3 (ternarySiftDown compare)

def ternaryHsortR (compare : α → α → ℤ) : List α → Run (List α) :=
  hsortWith 3 (ternarySiftDown compare)

end SysProg.HeapSort
