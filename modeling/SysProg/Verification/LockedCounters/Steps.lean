import SysProg.Model.LockedCounters

/-! # What a step does to the locks and the counters

Every step takes or releases one lock, or it loads, stores or prints. -/

namespace SysProg.LockedCounters

open Transmission
open CountByFile (indices)

variable {program : Program} {κ ν : Type}

/-- The steps of a thread. -/
inductive Steps [Add κ] [One κ] (program : Program) (shared : Shared program κ ν) :
    Thread κ ν → Shared program κ ν → Thread κ ν → Prop
  | openFile (name : ν) (file : File) (hfree : shared.descriptors ≠ 0) :
      Steps program shared (.opening name file) (shared.openFile file)
        (.counting name file.bytes file.ending)
  | atEnd (name : ν) (ending : Ending) :
      Steps program shared (.counting name [] ending) (atEnd program shared name ending).1
        (atEnd program shared name ending).2
  | lock (name : ν) (c : UInt8) (todo : Bytes) (ending : Ending) {lock : program.Lock}
      (hlock : program.lock.wrlock (shared.locks (program.lockNum c)) = some lock) :
      Steps program shared (.counting name (c :: todo) ending)
        (shared.setLock (program.lockNum c) lock) (.locked name c todo ending)
  | load (name : ν) (c : UInt8) (todo : Bytes) (ending : Ending) :
      Steps program shared (.locked name c todo ending) shared
        (.loaded name c (shared.counter c) todo ending)
  | store (name : ν) (c : UInt8) (val : κ) (todo : Bytes) (ending : Ending) :
      Steps program shared (.loaded name c val todo ending)
        { shared with counter := Function.update shared.counter c (val + 1) }
        (.stored name c todo ending)
  | unlock (name : ν) (c : UInt8) (todo : Bytes) (ending : Ending) {lock : program.Lock}
      (hlock : program.lock.wrunlock (shared.locks (program.lockNum c)) = some lock) :
      Steps program shared (.stored name c todo ending)
        (shared.setLock (program.lockNum c) lock) (.counting name todo ending)
  | lockOutput (report : Report ν) {output : program.OutputLock}
      (houtput : program.outputLock.wrlock shared.output = some output) :
      Steps program shared (.waiting report) (shared.setOutput output) (.printing report)
  | header (name : ν) :
      Steps program shared (.printing (.table name)) (shared.print (.header name))
        (.output name indices)
  | unreadable (name : ν) :
      Steps program shared (.printing (.unreadable name)) (shared.print (.unreadable name))
        .releasing
  | started : Steps program shared (.printing .started) (shared.print .started) .releasing
  | rdlock (name : ν) (i : UInt8) (todo : List UInt8) {lock : program.Lock}
      (hlock : program.lock.rdlock (shared.locks (program.lockNum i)) = some lock) :
      Steps program shared (.output name (i :: todo))
        (shared.setLock (program.lockNum i) lock) (.reading name i todo)
  | read (name : ν) (i : UInt8) (todo : List UInt8) :
      Steps program shared (.reading name i todo) shared
        (.read name i (shared.counter i) todo)
  | rdunlock (name : ν) (i : UInt8) (val : κ) (todo : List UInt8) {lock : program.Lock}
      (hlock : program.lock.rdunlock (shared.locks (program.lockNum i)) = some lock) :
      Steps program shared (.read name i val todo)
        (shared.setLock (program.lockNum i) lock) (.unlocked name i val todo)
  | entry (name : ν) (i : UInt8) (val : κ) (todo : List UInt8) :
      Steps program shared (.unlocked name i val todo) (shared.print (.entry i val))
        (.output name todo)
  | footer (name : ν) :
      Steps program shared (.output name []) (shared.print .footer) .releasing
  | unlockOutput {output : program.OutputLock}
      (houtput : program.outputLock.wrunlock shared.output = some output) :
      Steps program shared .releasing (shared.setOutput output) .finished

theorem step_cases [Add κ] [One κ] {shared : Shared program κ ν} {thread : Thread κ ν}
    {t : Shared program κ ν × Thread κ ν} (h : Step program (shared, thread) t) :
    Steps program shared thread t.1 t.2 := by
  unfold Step at h
  cases thread with
  | opening name file =>
      obtain ⟨hfree, h⟩ := Option.ite_none_left_eq_some.mp h
      obtain rfl := Option.some.inj h
      exact .openFile name file hfree
  | counting name todo ending =>
      cases todo with
      | nil =>
          obtain rfl := Option.some.inj h
          exact .atEnd name ending
      | cons c todo =>
          obtain ⟨lock, hlock, rfl⟩ := Option.map_eq_some_iff.mp h
          exact .lock name c todo ending hlock
  | locked name c todo ending =>
      obtain rfl := Option.some.inj h
      exact .load name c todo ending
  | loaded name c val todo ending =>
      obtain rfl := Option.some.inj h
      exact .store name c val todo ending
  | stored name c todo ending =>
      obtain ⟨lock, hlock, rfl⟩ := Option.map_eq_some_iff.mp h
      exact .unlock name c todo ending hlock
  | waiting report =>
      obtain ⟨output, houtput, rfl⟩ := Option.map_eq_some_iff.mp h
      exact .lockOutput report houtput
  | printing report =>
      cases report with
      | table name =>
          obtain rfl := Option.some.inj h
          exact .header name
      | unreadable name =>
          obtain rfl := Option.some.inj h
          exact .unreadable name
      | started =>
          obtain rfl := Option.some.inj h
          exact .started
  | output name todo =>
      cases todo with
      | nil =>
          obtain rfl := Option.some.inj h
          exact .footer name
      | cons i todo =>
          obtain ⟨lock, hlock, rfl⟩ := Option.map_eq_some_iff.mp h
          exact .rdlock name i todo hlock
  | reading name i todo =>
      obtain rfl := Option.some.inj h
      exact .read name i todo
  | read name i val todo =>
      obtain ⟨lock, hlock, rfl⟩ := Option.map_eq_some_iff.mp h
      exact .rdunlock name i val todo hlock
  | unlocked name i val todo =>
      obtain rfl := Option.some.inj h
      exact .entry name i val todo
  | releasing =>
      obtain ⟨output, houtput, rfl⟩ := Option.map_eq_some_iff.mp h
      exact .unlockOutput houtput
  | finished | failed => cases h

/-- What a thread holds of the lock of a counter. -/
def held (program : Program) (k : Fin program.LOCKS) : Thread κ ν → ℕ × ℕ
  | .locked _ c _ _ => if program.lockNum c = k then (1, 0) else 0
  | .loaded _ c _ _ _ => if program.lockNum c = k then (1, 0) else 0
  | .stored _ c _ _ => if program.lockNum c = k then (1, 0) else 0
  | .reading _ i _ => if program.lockNum i = k then (0, 1) else 0
  | .read _ i _ _ => if program.lockNum i = k then (0, 1) else 0
  | _ => 0

/-- The thread prints. -/
def Thread.Prints : Thread κ ν → Prop
  | .printing _ => True
  | .output _ _ => True
  | .reading _ _ _ => True
  | .read _ _ _ _ => True
  | .unlocked _ _ _ _ => True
  | .releasing => True
  | _ => False

instance : DecidablePred (Thread.Prints (κ := κ) (ν := ν)) := fun thread => by
  cases thread <;> unfold Thread.Prints <;> infer_instance

/-- What a thread holds of the lock for the output. -/
def heldOutput (thread : Thread κ ν) : ℕ × ℕ :=
  if thread.Prints then (1, 0) else 0

/-- The bytes that the thread has still to add to their counters. -/
def Thread.pending : Thread κ ν → Bytes
  | .opening _ file => file.bytes
  | .counting _ todo _ => todo
  | .locked _ c todo _ => c :: todo
  | .loaded _ c _ todo _ => c :: todo
  | .stored _ _ todo _ => todo
  | _ => []

/-- What a step does to the locks. -/
structure LockSpec (program : Program) (shared shared' : Shared program κ ν)
    (thread thread' : Thread κ ν) : Prop where
  locks : ∀ k, program.lock.Move (shared.locks k) (held program k thread) (shared'.locks k)
    (held program k thread')
  output : program.outputLock.Move shared.output (heldOutput thread) shared'.output
    (heldOutput thread')

/-- A step that leaves the locks alone. -/
theorem lockSpec_of_eq {shared shared' : Shared program κ ν} {thread thread' : Thread κ ν}
    (hlocks : shared'.locks = shared.locks) (houtput : shared'.output = shared.output)
    (hheld : ∀ k, held program k thread' = held program k thread)
    (hprints : heldOutput thread' = heldOutput thread) :
    LockSpec program shared shared' thread thread' := by
  refine ⟨?_, ?_⟩
  · intro k
    rw [hlocks, hheld k]
    exact .stay _ _
  · rw [houtput, hprints]
    exact .stay _ _

/-- A step that moves the lock of a counter. -/
theorem lockSpec_setLock {shared : Shared program κ ν} {thread thread' : Thread κ ν}
    {k : Fin program.LOCKS} {lock : program.Lock}
    (hmove : program.lock.Move (shared.locks k) (held program k thread) lock
      (held program k thread'))
    (hother : ∀ k', k ≠ k' → held program k' thread' = held program k' thread)
    (hprints : heldOutput thread' = heldOutput thread) :
    LockSpec program shared (shared.setLock k lock) thread thread' := by
  refine ⟨?_, ?_⟩
  · intro k'
    by_cases hk : k = k'
    · subst hk
      simpa [Shared.setLock] using hmove
    · simp only [hother k' hk, Shared.setLock, Function.update_of_ne (Ne.symm hk)]
      exact .stay _ _
  · rw [hprints]
    exact .stay _ _

theorem lockSpec_setOutput {shared : Shared program κ ν} {thread thread' : Thread κ ν}
    {output : program.OutputLock}
    (hmove : program.outputLock.Move shared.output (heldOutput thread) output (heldOutput thread'))
    (hheld : ∀ k, held program k thread' = held program k thread) :
    LockSpec program shared (shared.setOutput output) thread thread' := by
  refine ⟨?_, hmove⟩
  intro k
  rw [hheld k]
  exact .stay _ _

theorem lockSpec_atEnd (shared : Shared program κ ν) (name : ν) (ending : Ending) :
    LockSpec program shared (atEnd program shared name ending).1 (.counting name [] ending)
      (atEnd program shared name ending).2 := by
  cases ending with
  | notOpened | eof | error => exact lockSpec_of_eq rfl rfl (fun _ => rfl) rfl
  | badDescriptor =>
      unfold atEnd
      cases program.onBadDescriptor <;> exact lockSpec_of_eq rfl rfl (fun _ => rfl) rfl

theorem Steps.lockSpec [Add κ] [One κ] {shared shared' : Shared program κ ν} {thread thread' : Thread κ ν}
    (h : Steps program shared thread shared' thread') :
    LockSpec program shared shared' thread thread' := by
  cases h with
  | atEnd name ending => exact lockSpec_atEnd shared name ending
  | lock name c todo ending hlock =>
      refine lockSpec_setLock ?_ ?_ rfl
      · simpa [held] using RwLock.Move.wrlock 0 hlock
      · intro k' hk
        simp [held, hk]
  | unlock name c todo ending hlock =>
      refine lockSpec_setLock ?_ ?_ rfl
      · simpa [held] using RwLock.Move.wrunlock 0 hlock
      · intro k' hk
        simp [held, hk]
  | lockOutput report houtput =>
      refine lockSpec_setOutput ?_ fun _ => rfl
      simpa [heldOutput, Thread.Prints] using RwLock.Move.wrlock 0 houtput
  | rdlock name i todo hlock =>
      refine lockSpec_setLock ?_ ?_ rfl
      · simpa [held] using RwLock.Move.rdlock 0 hlock
      · intro k' hk
        simp [held, hk]
  | rdunlock name i val todo hlock =>
      refine lockSpec_setLock ?_ ?_ rfl
      · simpa [held] using RwLock.Move.rdunlock 0 hlock
      · intro k' hk
        simp [held, hk]
  | unlockOutput houtput =>
      refine lockSpec_setOutput ?_ fun _ => rfl
      simpa [heldOutput, Thread.Prints] using RwLock.Move.wrunlock 0 houtput
  | openFile | load | store | header | unreadable | started | read | entry | footer =>
      exact lockSpec_of_eq rfl rfl (fun _ => rfl) rfl

/-! ## The counters -/

/-- What a step does to the counters. -/
structure CounterSpec [Add κ] [One κ] (shared shared' : Shared program κ ν) (thread thread' : Thread κ ν) :
    Prop where
  counter : (shared'.counter = shared.counter ∧ thread'.pending = thread.pending ∧
      ∀ name c val todo ending, thread' = .loaded name c val todo ending → shared.counter c = val) ∨
    ∃ name c val todo ending, thread = .loaded name c val todo ending ∧
      thread' = .stored name c todo ending ∧
      shared'.counter = Function.update shared.counter c (val + 1)

theorem counterSpec_atEnd [Add κ] [One κ] (shared : Shared program κ ν) (name : ν) (ending : Ending) :
    CounterSpec shared (atEnd program shared name ending).1 (.counting name [] ending)
      (atEnd program shared name ending).2 := by
  refine ⟨.inl ?_⟩
  cases ending with
  | notOpened | eof | error => exact ⟨rfl, rfl, by simp [atEnd]⟩
  | badDescriptor =>
      unfold atEnd
      cases program.onBadDescriptor <;> exact ⟨rfl, rfl, by simp⟩

theorem Steps.counterSpec [Add κ] [One κ] {shared shared' : Shared program κ ν} {thread thread' : Thread κ ν}
    (h : Steps program shared thread shared' thread') :
    CounterSpec shared shared' thread thread' := by
  cases h with
  | store name c val todo ending => exact ⟨.inr ⟨name, c, val, todo, ending, rfl, rfl, rfl⟩⟩
  | atEnd name ending => exact counterSpec_atEnd shared name ending
  | load name c todo ending =>
      refine ⟨.inl ⟨rfl, rfl, ?_⟩⟩
      intro name' c' val todo' ending' hthread
      cases hthread
      rfl
  | openFile | lock | unlock | lockOutput | header | unreadable | started | rdlock | read | rdunlock | entry
  | footer | unlockOutput => exact ⟨.inl ⟨rfl, rfl, by simp⟩⟩

end SysProg.LockedCounters
