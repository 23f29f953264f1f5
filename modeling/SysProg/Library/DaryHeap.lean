import SysProg.Library.CompareOrder

/-! # Heaps of any arity inside a list

The parent of position `i > 0` is `(i - 1) / d`. All order statements are about the
positions up to `last` whose parent is at `start` or behind it, so that they also
describe a heap under construction and a heap that shrinks from the end. -/

namespace SysProg

open List

variable {α : Type*} (c : CompareFun α) (d : ℕ)

/-- The entry at position `i` does not exceed the entry at position `j`. -/
def LeAt (xs : List α) (i j : ℕ) : Prop :=
  ∀ x ∈ xs[i]?, ∀ y ∈ xs[j]?, c.le x y

def parent (i : ℕ) : ℕ :=
  (i - 1) / d

/-- No entry from `start`'s children on exceeds its parent. -/
def HeapOrdered (xs : List α) (start last : ℕ) : Prop :=
  ∀ i, 0 < i → i ≤ last → start ≤ parent d i → LeAt c xs i (parent d i)

/-- The heap order holds except between `root` and its children, which do not exceed
the parent of `root`. -/
structure HeapExcept (xs : List α) (start last root : ℕ) : Prop where
  except : ∀ i, 0 < i → i ≤ last → start ≤ parent d i → parent d i ≠ root →
    LeAt c xs i (parent d i)
  grand : 0 < root → start ≤ parent d root →
    ∀ i, 0 < i → i ≤ last → parent d i = root → LeAt c xs i (parent d root)

/-- `s` is `root` or one of its children and holds the largest of their entries. -/
structure IsLargest (xs : List α) (last root s : ℕ) : Prop where
  family : s = root ∨ 0 < s ∧ parent d s = root
  bound : s ≤ last
  root_le : LeAt c xs root s
  child_le : ∀ i, 0 < i → i ≤ last → parent d i = root → LeAt c xs i s

variable {c d}

theorem parent_lt {i : ℕ} (hi : 0 < i) : parent d i < i := by
  have h : (i - 1) / d ≤ i - 1 := Nat.div_le_self _ _
  simp only [parent]
  omega

theorem parent_mono {i j : ℕ} (h : i ≤ j) : parent d i ≤ parent d j :=
  Nat.div_le_div_right (Nat.sub_le_sub_right h 1)

@[simp] theorem LeAt.refl (xs : List α) (i : ℕ) : LeAt c xs i i := by
  intro x hx y hy
  rw [Option.mem_unique hx hy]
  exact c.le_refl y

theorem LeAt.trans {xs : List α} {i j k : ℕ} (hj : j < xs.length) (hij : LeAt c xs i j)
    (hjk : LeAt c xs j k) : LeAt c xs i k := by
  intro x hx z hz
  have hy : xs[j] ∈ xs[j]? := by simp [hj]
  exact c.le_trans (hij x hx _ hy) (hjk _ hy z hz)

theorem getElem?_swap (xs : List α) {i j : ℕ} (hi : i < xs.length) (hj : j < xs.length)
    (k : ℕ) : (xs.swap i j)[k]? = if k = i then xs[j]? else if k = j then xs[i]? else xs[k]? := by
  rw [List.swap_eq_of_lt hi hj]
  simp only [List.getElem?_set, List.length_set]
  grind

/-! ## Sifting down -/

/-- Exchanging `root` with its largest child moves the gap in the order there. -/
theorem HeapExcept.move {xs : List α} {start last root s : ℕ}
    (h : HeapExcept c d xs start last root) (hlarge : IsLargest c d xs last root s)
    (hne : s ≠ root) (hstart : start ≤ root) (hlast : last < xs.length) :
    HeapExcept c d (xs.swap root s) start last s := by
  obtain ⟨hs0, hsp⟩ : 0 < s ∧ parent d s = root := hlarge.family.resolve_left hne
  have hrs : root < s := hsp ▸ parent_lt hs0
  have hsl : s < xs.length := hlarge.bound.trans_lt hlast
  have hget := getElem?_swap xs (hrs.trans hsl) hsl
  constructor
  · intro i hi0 hil hip hps
    have hpi : parent d i < i := parent_lt hi0
    simp only [LeAt, hget]
    by_cases his : i = s
    · -- the old root stands below the child that replaced it
      subst his
      simpa [hsp, hne, LeAt] using hlarge.root_le
    · by_cases hir : i = root
      · subst hir
        have hg : parent d i ≠ i := hpi.ne
        simp only [ite_true, hg, hps, ite_false]
        exact h.grand hi0 hip s hs0 hlarge.bound hsp
      · by_cases hpr : parent d i = root
        · simp only [hir, his, hpr, ite_true, ite_false]
          exact hlarge.child_le i hi0 hil hpr
        · simp only [hir, his, hpr, hps, ite_false]
          exact h.except i hi0 hil hip hpr
  · intro _ _ i hi0 hil hip
    have hpi : parent d i < i := parent_lt hi0
    have hir : i ≠ root := by omega
    have his : i ≠ s := by omega
    simp only [LeAt, hget, hir, his, hsp, ite_true, ite_false]
    have hle := h.except i hi0 hil (by omega) (by omega)
    rwa [hip] at hle

/-- When `root` is the largest of its family, the heap is in order. -/
theorem HeapExcept.finish {xs : List α} {start last root : ℕ}
    (h : HeapExcept c d xs start last root) (hlarge : IsLargest c d xs last root root) :
    HeapOrdered c d xs start last := by
  intro i hi0 hil hip
  by_cases hpr : parent d i = root
  · rw [hpr]
    exact hlarge.child_le i hi0 hil hpr
  · exact h.except i hi0 hil hip hpr

/-- A root without children up to `last` is the largest of its family. -/
theorem HeapExcept.finish_leaf {xs : List α} {start last root : ℕ}
    (h : HeapExcept c d xs start last root)
    (hleaf : ∀ i, 0 < i → parent d i = root → last < i) :
    HeapOrdered c d xs start last := by
  intro i hi0 hil hip
  by_cases hpr : parent d i = root
  · exact absurd (hleaf i hi0 hpr) (by omega)
  · exact h.except i hi0 hil hip hpr

/-! ## Building and shrinking -/

/-- Behind the parent of the last position there is nothing to order. -/
theorem heapOrdered_leaves (xs : List α) (last : ℕ) :
    HeapOrdered c d xs (parent d last + 1) last := by
  intro i _ hil hip
  have hmono : parent d i ≤ parent d last := parent_mono hil
  omega

/-- An ordered heap with one more root in front is in order except at that root. -/
theorem HeapOrdered.extend {xs : List α} {root last : ℕ}
    (h : HeapOrdered c d xs (root + 1) last) : HeapExcept c d xs root last root := by
  constructor
  · intro i hi0 hil hip hne
    exact h i hi0 hil (by omega)
  · intro hr0 hrp
    have hlt : parent d root < root := parent_lt hr0
    omega

/-- No entry of a heap exceeds its first one. -/
theorem HeapOrdered.le_root {xs : List α} {last : ℕ} (h : HeapOrdered c d xs 0 last)
    (hlast : last < xs.length) (i : ℕ) (hi : i ≤ last) : LeAt c xs i 0 := by
  induction i using Nat.strong_induction_on with
  | h i ih =>
    by_cases hi0 : i = 0
    · rw [hi0]
      exact LeAt.refl xs 0
    · have hpos : 0 < i := Nat.pos_of_ne_zero hi0
      have hlt : parent d i < i := parent_lt hpos
      exact LeAt.trans (by omega) (h i hpos hi (Nat.zero_le _))
        (ih (parent d i) hlt (by omega))

/-- Exchanging the first and the last entry leaves a smaller heap that is in order
except at its root. -/
theorem HeapOrdered.shrink {xs : List α} {last : ℕ} (h : HeapOrdered c d xs 0 (last + 1))
    (hlast : last + 1 < xs.length) : HeapExcept c d (xs.swap 0 (last + 1)) 0 last 0 := by
  have hget := getElem?_swap xs (show 0 < xs.length by omega) hlast
  constructor
  · intro i hi0 hil _ hne
    have hlt : parent d i < i := parent_lt hi0
    have h₁ : i ≠ 0 := by omega
    have h₂ : i ≠ last + 1 := by omega
    have h₃ : parent d i ≠ last + 1 := by omega
    simp only [LeAt, hget, h₁, h₂, h₃, hne, ite_false]
    exact h i hi0 (by omega) (Nat.zero_le _)
  · intro h0
    exact absurd h0 (lt_irrefl 0)

end SysProg
