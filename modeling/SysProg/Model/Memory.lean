import Mathlib

/-! # Arrays and faults

An array with its `base` pointer is the list of its elements; a pointer into it is
an offset in elements. A function that would read or write outside the array, follow
a `NULL` pointer or leave through one of its error exits ends in a `Fault`. -/

namespace SysProg

/-- What keeps a function from returning normally; `overflow` is a number that would wrap
round. -/
inductive Fault where
  | index
  | nullPointer
  | divisionByZero
  | assertion
  | wrongOrder
  | overflow
  | nonTermination
  deriving DecidableEq, Repr

/-- The outcome of a function on arrays. -/
abbrev Run (α : Type) :=
  Except Fault α

@[simp] theorem Run.ok_bind {α β : Type} (x : α) (f : α → Run β) :
    ((Except.ok x : Run α) >>= f) = f x :=
  rfl

@[simp] theorem Run.error_bind {α β : Type} (e : Fault) (f : α → Run β) :
    ((Except.error e : Run α) >>= f) = Except.error e :=
  rfl

theorem Run.bind_eq_ok {α β : Type} {x : Run α} {f : α → Run β} {y : β}
    (h : x >>= f = .ok y) : ∃ z, x = .ok z ∧ f z = .ok y := by
  cases x with
  | error e => simp at h
  | ok z => exact ⟨z, rfl, by simpa using h⟩

variable {α : Type}

/-- An array that fits into memory: no object has more than `PTRDIFF_MAX` bytes. -/
structure CArray (α : Type) where
  elems : List α
  length_lt : elems.length < 2 ^ 63

/-- Read the element at `POINTER(base, idx, size)`. -/
def load (base : List α) (idx : ℕ) : Run α :=
  match base[idx]? with
  | some x => .ok x
  | none => .error .index

/-- Read `n` consecutive elements. -/
def loadRange (base : List α) (off n : ℕ) : Run (List α) :=
  if off + n ≤ base.length then .ok ((base.drop off).take n) else .error .index

/-- `memcpy` or `memmove` of the elements `data` to offset `off`. -/
def storeRange (base : List α) (off : ℕ) (data : List α) : Run (List α) :=
  if off + data.length ≤ base.length then
    .ok (base.take off ++ data ++ base.drop (off + data.length))
  else .error .index

/-- `swap_elements` on two elements of one array. -/
def swapElements (base : List α) (left right : ℕ) : Run (List α) := do
  let x ← load base left
  let y ← load base right
  .ok ((base.set left y).set right x)

/-- Call `sort` on the `n` elements that start at `off`. -/
def onSegment (sort : List α → Run (List α)) (base : List α) (off n : ℕ) :
    Run (List α) := do
  let segment ← loadRange base off n
  let sorted ← sort segment
  storeRange base off sorted

theorem load_eq_ok_iff {base : List α} {idx : ℕ} {x : α} :
    load base idx = .ok x ↔ base[idx]? = some x := by
  unfold load
  cases base[idx]? <;> simp

theorem load_eq_ok {base : List α} {idx : ℕ} {x : α} (h : base[idx]? = some x) :
    load base idx = .ok x :=
  load_eq_ok_iff.mpr h

theorem load_of_lt {base : List α} {idx : ℕ} (h : idx < base.length) :
    load base idx = .ok base[idx] :=
  load_eq_ok (by simp [h])

@[simp] theorem load_append_length (front back : List α) (x : α) :
    load (front ++ x :: back) front.length = .ok x :=
  load_eq_ok (by simp)

/-- Reading the middle of an array that is given in three parts. -/
theorem loadRange_append {front middle back : List α} {off n : ℕ}
    (hoff : off = front.length) (hn : n = middle.length) :
    loadRange (front ++ middle ++ back) off n = .ok middle := by
  subst hoff hn
  simp [loadRange]

/-- Overwriting the middle of an array that is given in three parts. -/
theorem storeRange_append {front middle back data : List α} {off : ℕ}
    (hoff : off = front.length) (hdata : data.length = middle.length) :
    storeRange (front ++ middle ++ back) off data = .ok (front ++ data ++ back) := by
  subst hoff
  simp [storeRange, hdata]

theorem swapElements_eq_ok {base : List α} {left right : ℕ} (hl : left < base.length)
    (hr : right < base.length) :
    swapElements base left right = .ok (base.swap left right) := by
  simp only [swapElements, load_of_lt hl, load_of_lt hr, Run.ok_bind,
    List.swap_eq_of_lt hl hr]

/-- Sorting the middle of an array that is given in three parts. -/
theorem onSegment_append {sort : List α → Run (List α)}
    {front middle back sorted : List α} {off n : ℕ} (hoff : off = front.length)
    (hn : n = middle.length) (hsort : sort middle = .ok sorted)
    (hlength : sorted.length = middle.length) :
    onSegment sort (front ++ middle ++ back) off n = .ok (front ++ sorted ++ back) := by
  simp only [onSegment, loadRange_append hoff hn, hsort, Run.ok_bind]
  exact storeRange_append hoff hlength

end SysProg
