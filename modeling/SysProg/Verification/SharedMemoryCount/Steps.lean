import SysProg.Model.SharedMemoryCount

/-! # What a step of a counting process can do

Every step moves units between the semaphores and the process, or it loads or stores a counter,
or it changes neither. -/

namespace SysProg.SharedMemoryCount

variable {α : Type} {program : Program α}

theorem semop_eq_some {n : ℕ} {value value' : Fin n → ℤ} {num : Fin n} {op : ℤ} :
    semop value num op = some value' ↔
      0 ≤ value num + op ∧ value' = Function.update value num (value num + op) := by
  unfold semop
  split <;> simp_all [eq_comm]

/-- The process has reserved the semaphore to increment a counter. -/
def Process.Writes (program : Program α) (k : Fin program.SEM_SIZE) : Process α → Prop
  | .reserved c _ => program.semNum c = k
  | .loaded c _ _ => program.semNum c = k
  | .stored c _ => program.semNum c = k
  | _ => False

/-- The process has reserved one unit of the semaphore to read a counter. -/
def Process.Reads (program : Program α) (k : Fin program.SEM_SIZE) : Process α → Prop
  | .reading i _ _ => program.semNum i = k
  | .read i _ _ _ => program.semNum i = k
  | _ => False

/-- The process keeps a unit of the semaphore during its output. -/
def Process.Keeps (program : Program α) (k : Fin program.SEM_SIZE) : Process α → Prop
  | .output _ _ => program.outputSemaphore ∧ program.sem0 = k
  | .reading _ _ _ => program.outputSemaphore ∧ program.sem0 = k
  | .read _ _ _ _ => program.outputSemaphore ∧ program.sem0 = k
  | _ => False

instance (k : Fin program.SEM_SIZE) : DecidablePred (Process.Writes program k) := fun proc => by
  cases proc <;> unfold Process.Writes <;> infer_instance

instance (k : Fin program.SEM_SIZE) : DecidablePred (Process.Reads program k) := fun proc => by
  cases proc <;> unfold Process.Reads <;> infer_instance

instance (k : Fin program.SEM_SIZE) : DecidablePred (Process.Keeps program k) := fun proc => by
  cases proc <;> unfold Process.Keeps <;> infer_instance

/-- The units of each semaphore that a process has. -/
def units (program : Program α) (proc : Process α) (k : Fin program.SEM_SIZE) : ℤ :=
  (if proc.Writes program k then SEM_LIMIT else 0) + (if proc.Reads program k then 1 else 0) +
    (if proc.Keeps program k then 1 else 0)

/-- The items that the process has still to add to their counters. -/
def Process.pending : Process α → List α
  | .counting todo => todo
  | .reserved c todo => c :: todo
  | .loaded c _ todo => c :: todo
  | .stored _ todo => todo
  | _ => []

theorem units_nonneg (proc : Process α) (k : Fin program.SEM_SIZE) : 0 ≤ units program proc k := by
  unfold units SEM_LIMIT
  split <;> split <;> split <;> omega

@[simp] theorem units_counting (todo : List α) : units program (.counting todo) = 0 := by
  funext k
  simp [units, Process.Writes, Process.Reads, Process.Keeps]

@[simp] theorem units_beforeOutput : units program .beforeOutput = 0 := by
  funext k
  simp [units, Process.Writes, Process.Reads, Process.Keeps]

@[simp] theorem units_exited (printed : List (α × Long)) : units program (.exited printed) = 0 := by
  funext k
  simp [units, Process.Writes, Process.Reads, Process.Keeps]

@[simp] theorem units_reserved (c : α) (todo : List α) :
    units program (.reserved c todo) = Pi.single (program.semNum c) SEM_LIMIT := by
  funext k
  simp [units, Process.Writes, Process.Reads, Process.Keeps, Pi.single_apply, eq_comm]

@[simp] theorem units_loaded (c : α) (val : Long) (todo : List α) :
    units program (.loaded c val todo) = Pi.single (program.semNum c) SEM_LIMIT := by
  funext k
  simp [units, Process.Writes, Process.Reads, Process.Keeps, Pi.single_apply, eq_comm]

@[simp] theorem units_stored (c : α) (todo : List α) :
    units program (.stored c todo) = Pi.single (program.semNum c) SEM_LIMIT := by
  funext k
  simp [units, Process.Writes, Process.Reads, Process.Keeps, Pi.single_apply, eq_comm]

/-- What a process keeps from the beginning of its output on. -/
def kept (program : Program α) : Fin program.SEM_SIZE → ℤ :=
  if program.outputSemaphore then Pi.single program.sem0 1 else 0

@[simp] theorem units_output (todo : List α) (printed : List (α × Long)) :
    units program (.output todo printed) = kept program := by
  funext k
  by_cases h : program.outputSemaphore <;>
    simp [units, Process.Writes, Process.Reads, Process.Keeps, kept, h, Pi.single_apply, eq_comm]

@[simp] theorem units_reading (i : α) (todo : List α) (printed : List (α × Long)) :
    units program (.reading i todo printed) = kept program + Pi.single (program.semNum i) 1 := by
  funext k
  by_cases h : program.outputSemaphore <;>
    simp [units, Process.Writes, Process.Reads, Process.Keeps, kept, h, Pi.single_apply, eq_comm,
      add_comm]

@[simp] theorem units_read (i : α) (val : Long) (todo : List α) (printed : List (α × Long)) :
    units program (.read i val todo printed) = kept program + Pi.single (program.semNum i) 1 := by
  funext k
  by_cases h : program.outputSemaphore <;>
    simp [units, Process.Writes, Process.Reads, Process.Keeps, kept, h, Pi.single_apply, eq_comm,
      add_comm]

variable [DecidableEq α]

/-- The effect of a step on the semaphores and on the counters. -/
structure StepSpec (program : Program α) (shared shared' : Shared program)
    (proc proc' : Process α) : Prop where
  units_eq : shared'.value + units program proc' = shared.value + units program proc
  nonneg : (∀ k, 0 ≤ shared.value k) → ∀ k, 0 ≤ shared'.value k
  counter : (shared'.counter = shared.counter ∧ proc'.pending = proc.pending ∧
      ∀ c val todo, proc' = .loaded c val todo → shared'.counter c = val) ∨
    ∃ c val todo, proc = .loaded c val todo ∧ proc' = .stored c todo ∧
      shared'.counter = Function.update shared.counter c (val + 1)

omit [DecidableEq α] in
theorem update_eq_add_single {n : ℕ} (value : Fin n → ℤ) (num : Fin n) (op : ℤ) :
    Function.update value num (value num + op) = value + Pi.single num op := by
  funext k
  by_cases hk : k = num
  · subst hk
    simp
  · simp [hk]

/-- A step that takes or gives back units of one semaphore. -/
theorem stepSpec_semop {shared : Shared program} {num : Fin program.SEM_SIZE} {op : ℤ}
    {proc proc' : Process α} {t : Shared program × Process α}
    (h : ((semop shared.value num op).map fun value =>
      (({ shared with value := value } : Shared program), proc')) = some t)
    (hunits : Pi.single num op + units program proc' = units program proc)
    (hpending : proc'.pending = proc.pending)
    (hloaded : ∀ c val todo, proc' ≠ .loaded c val todo) : StepSpec program shared t.1 proc t.2 := by
  obtain ⟨value, hvalue, rfl⟩ := Option.map_eq_some_iff.mp h
  obtain ⟨hle, rfl⟩ := semop_eq_some.mp hvalue
  refine ⟨?_, ?_, .inl ⟨rfl, hpending, fun c val todo hp => absurd hp (hloaded c val todo)⟩⟩
  · simp only
    rw [update_eq_add_single, add_assoc, hunits]
  · intro hnonneg k
    by_cases hnum : k = num
    · subst hnum
      simpa using hle
    · simpa [Function.update_of_ne hnum] using hnonneg k

/-- A step that touches neither the semaphores nor the counters. -/
theorem stepSpec_local {shared : Shared program} {proc proc' : Process α}
    {t : Shared program × Process α} (h : some (shared, proc') = some t)
    (hunits : units program proc' = units program proc)
    (hpending : proc'.pending = proc.pending)
    (hloaded : ∀ c val todo, proc' = .loaded c val todo → shared.counter c = val) :
    StepSpec program shared t.1 proc t.2 := by
  obtain rfl := Option.some.inj h
  exact ⟨by rw [hunits], id, .inl ⟨rfl, hpending, hloaded⟩⟩

theorem step_spec {shared : Shared program} {proc : Process α} {t : Shared program × Process α}
    (h : Step program (shared, proc) t) : StepSpec program shared t.1 proc t.2 := by
  unfold Step at h
  cases proc with
  | counting todo =>
      cases todo with
      | nil => exact stepSpec_local h (by simp) rfl (by simp)
      | cons c todo =>
          apply stepSpec_semop h
          · rw [units_reserved, units_counting, ← Pi.single_add]
            simp
          · rfl
          · simp
  | reserved c todo => exact stepSpec_local h (by simp) rfl (by simp_all)
  | loaded c val todo =>
      obtain rfl := Option.some.inj h
      exact ⟨by simp, id, .inr ⟨c, val, todo, rfl, rfl, rfl⟩⟩
  | stored c todo => exact stepSpec_semop h (by simp) rfl (by simp)
  | beforeOutput =>
      simp only [next] at h
      split at h
      · exact stepSpec_semop h (by simp [kept, *, ← Pi.single_add]) rfl (by simp)
      · exact stepSpec_local h (by simp [kept, *]) rfl (by simp)
  | output todo printed =>
      cases todo with
      | nil =>
          simp only [next] at h
          split at h
          · exact stepSpec_semop h (by simp [kept, *]) rfl (by simp)
          · exact stepSpec_local h (by simp [kept, *]) rfl (by simp)
      | cons i todo =>
          apply stepSpec_semop h
          · rw [units_reading, units_output, add_left_comm, ← Pi.single_add]
            simp
          · rfl
          · simp
  | reading i todo printed => exact stepSpec_local h (by simp) rfl (by simp)
  | read i val todo printed =>
      exact stepSpec_semop h (by rw [units_output, units_read, add_comm]) rfl (by simp)
  | exited printed => cases h

end SysProg.SharedMemoryCount
