import SysProg.Model.Memory

/-! # The merge loop of the sort library

`msort_r` and `psort_thread_run` merge two adjacent runs with the same loop
`while (i+j < total_len)`. The counter `k` of the latter is never read. -/

namespace SysProg

variable {α : Type}

/-- `i` and `j` count the elements taken from `left` and `right`, `result` is what has
been written to the scratch area. -/
def mergeLoop (compare : α → α → ℤ) (left right : List α) (i j : ℕ) (result : List α) :
    List α :=
  if i + j < left.length + right.length then
    if hi : left.length ≤ i then
      mergeLoop compare left right i right.length (result ++ right.drop j)
    else if hj : right.length ≤ j then
      mergeLoop compare left right left.length j (result ++ left.drop i)
    else if compare left[i] right[j] ≤ 0 then
      mergeLoop compare left right (i + 1) j (result ++ [left[i]])
    else
      mergeLoop compare left right i (j + 1) (result ++ [right[j]])
  else result
termination_by left.length + right.length - (i + j)

end SysProg
