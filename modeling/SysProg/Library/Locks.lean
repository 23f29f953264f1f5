import SysProg.Library.Interleaving

/-! # Locks for writers and readers

A lock is held by one writer or by some readers. A mutex and a binary semaphore admit one reader
only; all that is needed of a lock is that it keeps writers apart from everybody else, and that it
can be taken when nobody holds it. -/

namespace SysProg

/-- A kind of lock. `Held (writers, readers)` is what its state is like while so many hold it. -/
structure RwLock (Λ : Type*) where
  free : Λ
  wrlock : Λ → Option Λ
  wrunlock : Λ → Option Λ
  rdlock : Λ → Option Λ
  rdunlock : Λ → Option Λ
  Held : ℕ × ℕ → Λ → Prop
  held_free : Held 0 free
  exclusive : ∀ {held s}, Held held s → held.1 = 0 ∨ held = (1, 0)
  wrlock_held : ∀ {held s s'}, Held held s → wrlock s = some s' → held = 0 ∧ Held (1, 0) s'
  rdlock_held : ∀ {held s s'}, Held held s → rdlock s = some s' →
    held.1 = 0 ∧ Held (held + (0, 1)) s'
  wrlock_free : ∀ {s}, Held 0 s → ∃ s', wrlock s = some s'
  rdlock_free : ∀ {s}, Held 0 s → ∃ s', rdlock s = some s'
  wrunlock_held : ∀ {s}, Held (1, 0) s → ∃ s', wrunlock s = some s' ∧ Held 0 s'
  rdunlock_held : ∀ {held s}, Held (held + (0, 1)) s → ∃ s', rdunlock s = some s' ∧ Held held s'

namespace RwLock

variable {Λ : Type*}

/-- The state tells whether the mutex is locked. -/
def mutex : RwLock Bool where
  free := false
  wrlock locked := if locked then none else some true
  wrunlock locked := if locked then some false else none
  rdlock locked := if locked then none else some true
  rdunlock locked := if locked then some false else none
  Held held locked := held.1 + held.2 = locked.toNat
  held_free := rfl
  exclusive := by
    rintro ⟨w, r⟩ (- | -) h <;> simp at h ⊢ <;> omega
  wrlock_held := by
    rintro ⟨w, r⟩ (- | -) s' h hlock <;> simp at h hlock
    subst hlock
    simp [h]
  rdlock_held := by
    rintro ⟨w, r⟩ (- | -) s' h hlock <;> simp at h hlock
    subst hlock
    simp [h]
  wrlock_free := by
    rintro (- | -) h <;> simp at h ⊢
  rdlock_free := by
    rintro (- | -) h <;> simp at h ⊢
  wrunlock_held := by
    rintro (- | -) h <;> simp at h ⊢
  rdunlock_held := by
    rintro ⟨w, r⟩ (- | -) h <;> simp at h ⊢
    omega

/-- The state tells whether there is a writer, and the number of readers. -/
def rwlock : RwLock (Bool × ℕ) where
  free := (false, 0)
  wrlock s := if s.1 || s.2 != 0 then none else some (true, 0)
  wrunlock s := if s.1 then some (false, s.2) else none
  rdlock s := if s.1 then none else some (false, s.2 + 1)
  rdunlock s := if s.2 = 0 then none else some (s.1, s.2 - 1)
  Held held s := held.1 = s.1.toNat ∧ held.2 = s.2 ∧ (s.1 → s.2 = 0)
  held_free := by simp
  exclusive := by
    rintro ⟨w, r⟩ ⟨- | -, r'⟩ ⟨hw, hr, h⟩
    · exact .inl hw
    · exact .inr (Prod.ext hw (hr.trans (h rfl)))
  wrlock_held := by
    rintro ⟨w, r⟩ ⟨- | -, - | r'⟩ s' ⟨hw, hr, -⟩ hlock <;> simp at hlock
    subst hlock
    exact ⟨Prod.ext hw hr, by simp⟩
  rdlock_held := by
    rintro ⟨w, r⟩ ⟨- | -, r'⟩ s' ⟨hw, hr, -⟩ hlock <;> simp at hlock
    subst hlock
    exact ⟨hw, hw, congrArg (· + 1) hr, by simp⟩
  wrlock_free := by
    rintro ⟨- | -, r⟩ ⟨hw, rfl, -⟩
    · exact ⟨_, rfl⟩
    · cases hw
  rdlock_free := by
    rintro ⟨- | -, r⟩ ⟨hw, -, -⟩
    · exact ⟨_, rfl⟩
    · cases hw
  wrunlock_held := by
    rintro ⟨- | -, r⟩ ⟨hw, rfl, -⟩
    · cases hw
    · exact ⟨_, rfl, by simp⟩
  rdunlock_held := by
    rintro ⟨w, r⟩ ⟨- | -, - | r'⟩ ⟨rfl, hr, hwriter⟩ <;> simp at hr hwriter
    exact ⟨_, rfl, by simpa using hr⟩

/-- A semaphore with `limit` units. A writer takes all of them and a reader one. -/
def semaphore (limit : ℕ) (hlimit : 0 < limit) : RwLock ℕ where
  free := limit
  wrlock value := if limit ≤ value then some (value - limit) else none
  wrunlock value := some (value + limit)
  rdlock value := if 1 ≤ value then some (value - 1) else none
  rdunlock value := some (value + 1)
  Held held value := value + limit * held.1 + held.2 = limit
  held_free := by simp
  exclusive := by
    rintro ⟨w, r⟩ value h
    rcases Nat.lt_or_ge w 1 with hw | hw
    · exact .inl (Nat.lt_one_iff.mp hw)
    · right
      have hle := Nat.mul_le_mul_left limit hw
      obtain rfl : w = 1 := by nlinarith
      simp at h ⊢
      omega
  wrlock_held := by
    rintro ⟨w, r⟩ value s' h hlock
    obtain ⟨hle, hs'⟩ := Option.ite_none_right_eq_some.mp hlock
    obtain rfl := Option.some.inj hs'
    obtain rfl : w = 0 := by
      by_contra hw
      have := Nat.mul_le_mul_left limit (Nat.one_le_iff_ne_zero.mpr hw)
      dsimp only at h
      omega
    simp at h ⊢
    omega
  rdlock_held := by
    rintro ⟨w, r⟩ value s' h hlock
    obtain ⟨hle, hs'⟩ := Option.ite_none_right_eq_some.mp hlock
    obtain rfl := Option.some.inj hs'
    obtain rfl : w = 0 := by
      by_contra hw
      have := Nat.mul_le_mul_left limit (Nat.one_le_iff_ne_zero.mpr hw)
      dsimp only at h
      omega
    simp at h ⊢
    omega
  wrlock_free := by
    intro value h
    simp at h ⊢
    omega
  rdlock_free := by
    intro value h
    simp at h ⊢
    omega
  wrunlock_held := by
    intro value h
    simp at h ⊢
    omega
  rdunlock_held := by
    rintro ⟨w, r⟩ value h
    simp at h ⊢
    omega

variable (lock : RwLock Λ)

/-- What a step of a process does to a lock and to what the process holds of it. -/
inductive Move : Λ → ℕ × ℕ → Λ → ℕ × ℕ → Prop
  | stay (s : Λ) (held : ℕ × ℕ) : Move s held s held
  | wrlock (held : ℕ × ℕ) {s s' : Λ} (h : lock.wrlock s = some s') : Move s held s' (held + (1, 0))
  | rdlock (held : ℕ × ℕ) {s s' : Λ} (h : lock.rdlock s = some s') : Move s held s' (held + (0, 1))
  | wrunlock (held : ℕ × ℕ) {s s' : Λ} (h : lock.wrunlock s = some s') :
      Move s (held + (1, 0)) s' held
  | rdunlock (held : ℕ × ℕ) {s s' : Λ} (h : lock.rdunlock s = some s') :
      Move s (held + (0, 1)) s' held

variable {lock} {ι π : Type*} [Fintype ι] {held : π → ℕ × ℕ} {procs : ι → π}
  {i : ι} {proc' : π} {s s' : Λ}

/-- The lock knows how many processes hold it, whatever one of them does. -/
theorem Move.held_total [DecidableEq ι] (hmove : lock.Move s (held (procs i)) s' (held proc'))
    (h : lock.Held (total held procs) s) :
    lock.Held (total held (Function.update procs i proc')) s' := by
  have htotal := total_update held procs i proc'
  generalize total held (Function.update procs i proc') = after at htotal ⊢
  generalize total held procs = before at htotal h
  generalize held (procs i) = mine at hmove htotal
  generalize held proc' = mine' at hmove htotal
  cases hmove with
  | stay =>
      rw [add_right_cancel htotal]
      exact h
  | wrlock _ hlock =>
      obtain ⟨rfl, hheld⟩ := lock.wrlock_held h hlock
      rw [zero_add, add_comm] at htotal
      rwa [add_left_cancel htotal]
  | rdlock _ hlock =>
      obtain ⟨-, hheld⟩ := lock.rdlock_held h hlock
      rw [add_left_comm, add_comm] at htotal
      rwa [add_left_cancel htotal]
  | wrunlock _ hlock =>
      have hbefore : before = after + (1, 0) := by
        rw [add_comm mine', ← add_assoc] at htotal
        exact (add_right_cancel htotal).symm
      subst hbefore
      obtain rfl : after = 0 := by
        have hone := (lock.exclusive h).resolve_left (by simp)
        rwa [add_eq_right] at hone
      obtain ⟨s'', hs'', hheld⟩ := lock.wrunlock_held h
      rwa [← Option.some.inj (hs''.symm.trans hlock)]
  | rdunlock _ hlock =>
      have hbefore : before = after + (0, 1) := by
        rw [add_comm mine', ← add_assoc] at htotal
        exact (add_right_cancel htotal).symm
      subst hbefore
      obtain ⟨s'', hs'', hheld⟩ := lock.rdunlock_held h
      rwa [← Option.some.inj (hs''.symm.trans hlock)]

theorem held_le_total (held : π → ℕ × ℕ) (procs : ι → π) (i : ι) :
    held (procs i) ≤ total held procs :=
  SysProg.held_le_total (fun _ => zero_le) procs i

/-- While a process holds the lock for writing, no other one holds it. -/
theorem Held.alone (h : lock.Held (total held procs) s) {i j : ι} (hij : i ≠ j)
    (hwrites : 1 ≤ (held (procs i)).1) : held (procs j) = 0 := by
  have hnonneg : ∀ proc, 0 ≤ held proc := fun _ => zero_le
  have hle := held_add_le_total hnonneg procs hij
  have hone : total held procs = (1, 0) := by
    refine (lock.exclusive h).resolve_left ?_
    have := (held_le_total held procs i).1
    omega
  rw [hone] at hle
  obtain ⟨hle₁, hle₂⟩ := hle
  simp only [Prod.fst_add, Prod.snd_add] at hle₁ hle₂
  apply Prod.ext
  · simp only [Prod.fst_zero]
    omega
  · simp only [Prod.snd_zero]
    omega

/-- A process that holds the lock can release it. -/
theorem Held.wrunlock (h : lock.Held (total held procs) s) (hi : held (procs i) = (1, 0)) :
    ∃ s', lock.wrunlock s = some s' := by
  have hone : total held procs = (1, 0) := by
    refine (lock.exclusive h).resolve_left ?_
    have hle := (held_le_total held procs i).1
    rw [hi] at hle
    simp only at hle
    omega
  rw [hone] at h
  obtain ⟨s', hs', -⟩ := lock.wrunlock_held h
  exact ⟨s', hs'⟩

theorem Held.rdunlock (h : lock.Held (total held procs) s) (hi : held (procs i) = (0, 1)) :
    ∃ s', lock.rdunlock s = some s' := by
  have hle := (held_le_total held procs i)
  rw [hi] at hle
  obtain ⟨others, hothers⟩ := exists_add_of_le hle
  rw [hothers, add_comm] at h
  obtain ⟨s', hs', -⟩ := lock.rdunlock_held h
  exact ⟨s', hs'⟩

/-- When no process holds the lock, it is free. -/
theorem Held.free (h : lock.Held (total held procs) s) (hnone : ∀ i, held (procs i) = 0) :
    lock.Held 0 s := by
  have hzero : total held procs = 0 := Finset.sum_eq_zero fun i _ => hnone i
  rwa [hzero] at h

end RwLock

end SysProg
