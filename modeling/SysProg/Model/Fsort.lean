import SysProg.Model.HeapSort
import SysProg.Model.Isort

/-! # Flash sort

`posix/lib/fsort.c`, with `double` read as exact rationals. The array `l` holds for
each class first the number of its elements, then the end of its part of the array,
and during the permutation the end of the part that is still to be filled; `ll` keeps
the starts of the classes. -/

namespace SysProg.Fsort

variable {α : Type}

/-- The cast to `size_t` truncates a number that is not negative. -/
def calculateK (factor value : ℚ) (lsize : ℕ) : ℕ :=
  let prod : ℚ := factor * value + 1 / 10 ^ 9
  let prod : ℚ := if prod < 0 then 0 else prod
  let prod : ℚ := if prod > (lsize : ℚ) - 1 then (lsize : ℚ) - 1 else prod
  ⌊prod⌋₊

/-- The loop that finds `amin` and `amax`, here as indices. -/
def extremes (compare : α → α → ℤ) (base : List α) (i amin amax : ℕ) : Run (ℕ × ℕ) :=
  if i < base.length then do
    let ai ← load base i
    let least ← load base amin
    let amin := if compare ai least < 0 then i else amin
    let greatest ← load base amax
    let amax := if compare ai greatest > 0 then i else amax
    extremes compare base (i + 1) amin amax
  else .ok (amin, amax)
termination_by base.length - i

/-- The loop that counts the elements of each class. -/
def countClasses (cls : α → ℕ) : List α → List ℕ → Run (List ℕ)
  | [], l => .ok l
  | x :: rest, l => do
    let n ← load l (cls x)
    countClasses cls rest (l.set (cls x) (n + 1))

/-- The loop that turns the counts in `l` into ends and collects them in `ll`. -/
def cumulate (lsize k : ℕ) (l ll : List ℕ) : Run (List ℕ × List ℕ) :=
  if k < lsize then do
    let lk ← load l k
    let lk' ← load l (k - 1)
    cumulate lsize (k + 1) (l.set k (lk + lk')) (ll ++ [lk + lk'])
  else .ok (l, ll)
termination_by lsize - k

/-- The variables of the permutation. -/
structure Flash (α : Type) where
  base : List α
  l : List ℕ
  j : ℕ
  k : ℕ
  nmove : ℕ

/-- `while (j >= l[k])`, with at most `fuel` tests. -/
def scanLoop (cls : α → ℕ) : ℕ → Flash α → Run (Flash α)
  | 0, _ => .error .nonTermination
  | fuel + 1, s => do
    let lk ← load s.l s.k
    if s.j ≥ lk then do
      let x ← load s.base (s.j + 1)
      scanLoop cls fuel { s with j := s.j + 1, k := cls x }
    else .ok s

/-- `while (j != l[k])`, with at most `fuel` tests; `flash` is what `flash_ptr` holds. -/
def cycleLoop (cls : α → ℕ) : ℕ → Flash α → α → Run (Flash α)
  | 0, _, _ => .error .nonTermination
  | fuel + 1, s, flash => do
    let lk ← load s.l s.k
    if s.j ≠ lk then do
      let k := cls flash
      let lk ← load s.l k
      if lk = 0 then .error .overflow
      else do
        let x ← load s.base (lk - 1)
        cycleLoop cls fuel
          { s with
            base := s.base.set (lk - 1) flash
            l := s.l.set k (lk - 1)
            k := k
            nmove := s.nmove + 1 } x
    else .ok s

/-- `while (nmove < nmemb - 1)`, with at most `fuel` tests. -/
def permuteLoop (cls : α → ℕ) (nmemb : ℕ) : ℕ → Flash α → Run (Flash α)
  | 0, _ => .error .nonTermination
  | fuel + 1, s =>
    if s.nmove < nmemb - 1 then do
      let s ← scanLoop cls (nmemb + 1) s
      let flash ← load s.base s.j
      let s ← cycleLoop cls (nmemb + 1) s flash
      permuteLoop cls nmemb fuel s
    else .ok s

/-- A class of one or no element is left alone. -/
def sortClass (compare : α → α → ℤ) (base : List α) (first n : ℕ) : Run (List α) :=
  if n > 7 then onSegment (HeapSort.hsortR compare) base first n
  else if n > 1 then onSegment (Isort.isortR compare) base first n
  else .ok base

/-- The loop that sorts each class; the difference `n` is a `size_t` and wraps round below
zero. -/
def sortClasses (compare : α → α → ℤ) (nmemb lsize : ℕ) (ll : List ℕ) (k : ℕ)
    (base : List α) : Run (List α) :=
  if k < lsize then do
    let first ← load ll k
    let next ← load ll (k + 1)
    let n := if next < first then 2 ^ 64 - (first - next) else next - first
    if (n > 1 ∧ next < first) ∨ n > nmemb then .error .wrongOrder
    else do
      let base ← sortClass compare base first n
      sortClasses compare nmemb lsize ll (k + 1) base
  else .ok base
termination_by lsize - k

/-- What follows once `step` is known: `cls` computes the class of an element. -/
def distribute (compare : α → α → ℤ) (cls : α → ℕ) (lsize idxMax : ℕ) (base : List α) :
    Run (List α) := do
  let nmemb := base.length
  let l ← countClasses cls base (List.replicate lsize 0)
  let l₀ ← load l 0
  let (l, ll) ← cumulate lsize 1 l [0, l₀]
  let base ← swapElements base 0 idxMax
  let s ← permuteLoop cls nmemb nmemb ⟨base, l, 0, lsize - 1, 0⟩
  sortClasses compare nmemb lsize ll 0 s.base

def fsortF (factor : ℚ) (compare : α → α → ℤ) (metric : α → ℚ) (base : List α) :
    Run (List α) :=
  let nmemb := base.length
  if nmemb ≤ 1 then .ok base
  else do
    let lsize := max 2 (calculateK nmemb factor nmemb + 1)
    let (idxMin, idxMax) ← extremes compare base 0 0 0
    let amin ← load base idxMin
    let amax ← load base idxMax
    if compare amin amax = 0 then .ok base
    else if metric amax - metric amin = 0 then .error .divisionByZero
    else do
      let step := ((lsize : ℚ) - 1) / (metric amax - metric amin)
      let cls := fun x => calculateK step (metric x - metric amin) lsize
      distribute compare cls lsize idxMax base

def fsortR (compare : α → α → ℤ) (metric : α → ℚ) : List α → Run (List α) :=
  fsortF (42 / 100) compare metric

end SysProg.Fsort
