import SysProg.Model.MergeLoop

/-! # Merge sort

`posix/lib/msort.c`, the bottom-up merge sort. The counters `step` and `start_right`
are `size_t`: a value of `2^64` or more is an `overflow`. -/

namespace SysProg.Msort

variable {α : Type}

/-- The body of the loop over `start_left` and `start_right`. -/
def mergePair (compare : α → α → ℤ) (nmemb step : ℕ) (base : List α)
    (startLeft startRight : ℕ) : Run (List α) := do
  let n := if startRight + step > nmemb then nmemb - startRight else step
  let left ← loadRange base startLeft step
  let right ← loadRange base startRight n
  let scratch := mergeLoop compare left right 0 0 []
  if scratch.length ≤ nmemb then storeRange base startLeft scratch else .error .index

/-- The loop over `start_left` and `start_right`. -/
def pass (compare : α → α → ℤ) (nmemb step : ℕ) (base : List α)
    (startLeft startRight : ℕ) : Run (List α) :=
  if startRight < nmemb then do
    let base ← mergePair compare nmemb step base startLeft startRight
    if step = 0 then .error .nonTermination
    else if startRight + 2 * step < 2 ^ 64 then
      pass compare nmemb step base (startLeft + 2 * step) (startRight + 2 * step)
    else .error .overflow
  else .ok base
termination_by nmemb - startRight

/-- The loop over `step`. -/
def passes (compare : α → α → ℤ) (nmemb : ℕ) (base : List α) (step : ℕ) :
    Run (List α) :=
  if step < nmemb then do
    let base ← pass compare nmemb step base 0 step
    if step = 0 then .error .nonTermination
    else if 2 * step < 2 ^ 64 then passes compare nmemb base (2 * step)
    else .error .overflow
  else .ok base
termination_by nmemb - step

def msortR (compare : α → α → ℤ) (base : List α) : Run (List α) :=
  if base.length ≤ 1 then .ok base else passes compare base.length base 1

end SysProg.Msort
