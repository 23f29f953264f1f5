import SysProg.Model.Memory

/-! # Insertion sort

`posix/lib/isort.c`. The element at `i` is compared with the sorted elements before
it from the left; the first greater one is where it goes. -/

namespace SysProg.Isort

variable {α : Type}

/-- The block move of `isort_r`: the elements from `j` to `i-1` go up by one slot and
the element at `i` comes to `j`. -/
def shift (base : List α) (i j : ℕ) : Run (List α) := do
  let tmp ← load base i
  let moved ← loadRange base j (i - j)
  let base ← storeRange base (j + 1) moved
  storeRange base j [tmp]

/-- The loop over `j`. -/
def scan (compare : α → α → ℤ) (base : List α) (i j : ℕ) : Run (List α) :=
  if j < i then do
    let aj ← load base j
    let ai ← load base i
    if compare aj ai > 0 then shift base i j else scan compare base i (j + 1)
  else .ok base
termination_by i - j

/-- The loop over `i`. -/
def loop (compare : α → α → ℤ) (nmemb : ℕ) (base : List α) (i : ℕ) : Run (List α) :=
  if i < nmemb then do
    let base ← scan compare base i 0
    loop compare nmemb base (i + 1)
  else .ok base
termination_by nmemb - i

def isortR (compare : α → α → ℤ) (base : List α) : Run (List α) :=
  if base.length ≤ 1 then .ok base else loop compare base.length base 1

end SysProg.Isort
