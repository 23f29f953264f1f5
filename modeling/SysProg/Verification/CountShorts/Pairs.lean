import SysProg.Verification.CountShorts.Agreement

/-! # The byte pairs of a file

What the loop with the mutexes adds to the counters depends only on the content of the
file: the pair with the number `i` is at the bytes `2 * i` and `2 * i + 1`, wherever
`read` has cut the content. -/

namespace SysProg.CountShorts

open Transmission

/-- The content with a zero byte behind it if its length is odd. -/
def padded (content : Bytes) : Bytes :=
  if content.length % 2 = 1 then content ++ [0] else content

/-- The value of the byte pair with the number `i`, which has the low byte first. -/
def pairAt (content : Bytes) (i : ℕ) : Option UInt16 := do
  let low ← content[2 * i]?
  let high ← content[2 * i + 1]?
  some (UInt16.ofNat (low.toNat + 256 * high.toNat))

/-- The number of pairs that have the value `s`. -/
def pairCount (content : Bytes) (s : UInt16) : ℕ :=
  (List.range ((padded content).length / 2)).countP fun i => pairAt (padded content) i = some s

theorem pairAt_zero (low high : UInt8) (content : Bytes) :
    pairAt (low :: high :: content) 0 = some (UInt16.ofNat (low.toNat + 256 * high.toNat)) :=
  rfl

theorem pairAt_succ (low high : UInt8) (content : Bytes) (i : ℕ) :
    pairAt (low :: high :: content) (i + 1) = pairAt content i := by
  simp only [pairAt, Nat.mul_add, Nat.mul_one, List.getElem?_cons_succ]

/-- Each short is counted at the index of its pair. -/
theorem count_shortsOf (s : UInt16) : ∀ content : Bytes, (shortsOf content).count s =
    (List.range (content.length / 2)).countP fun i => pairAt content i = some s
  | [] => rfl
  | [_] => by simp [shortsOf]
  | low :: high :: content => by
      have hhalf : (low :: high :: content).length / 2 = content.length / 2 + 1 := by
        simp only [List.length_cons]
        omega
      rw [hhalf, List.range_succ_eq_map, List.countP_cons, List.countP_map, shortsOf,
        List.count_cons, count_shortsOf s content, pairAt_zero]
      simp [Function.comp_def, pairAt_succ]

theorem shortsOf_padded (content : Bytes) :
    shortsOf (content ++ [0]) = shortsOf (padded content) := by
  unfold padded
  by_cases hodd : content.length % 2 = 1
  · rw [if_pos hodd]
  · have hnone : unpaired content = [] :=
      List.length_eq_zero_iff.mp (by rw [length_unpaired]; omega)
    rw [if_neg hodd, shortsOf_append, hnone]
    exact List.append_nil _

/-- The loop stays within its buffer, and each counter goes up by the number of pairs that
have its value; so another way of cutting the content changes nothing. -/
theorem mutex_counts_pairs (content : Bytes) (reading other : Reading content)
    (counter : Counter) :
    ∃ result, mutex.counters reading.pieces reading.buffer counter = .ok result ∧
      mutex.counters other.pieces other.buffer counter = .ok result ∧
      ∀ s, Raised (counter s) (result s) (pairCount content s) := by
  have hcounters (reading : Reading content) :
      mutex.counters reading.pieces reading.buffer counter =
        .ok fun s => counter s + pairCount content s := by
    rw [counters_eq (mutex_eq reading), shortsOf_padded]
    simp only [count_shortsOf, pairCount]
  exact ⟨_, hcounters reading, hcounters other, fun s => raised_add (counter s) _⟩

end SysProg.CountShorts
