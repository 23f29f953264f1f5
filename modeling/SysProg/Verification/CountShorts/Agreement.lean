import SysProg.Verification.CountShorts.Loops

/-! # Where the counting loops agree -/

namespace SysProg.CountShorts

open Transmission

theorem counters_eq {program : Program} {pieces : List Bytes} {buffer : Bytes}
    {shorts : List UInt16} (h : program pieces buffer = .ok shorts) (counter : Counter) :
    program.counters pieces buffer counter = .ok fun s => counter s + shorts.count s := by
  rw [Program.counters, h, Run.ok_bind]
  congr 1
  funext s
  exact foldl_increment shorts counter s

/-- The program adds to the counters what the threads of the mutex program add for the same
stream. -/
def AgreesWithMutex (program : Program) (stream : Bytes) (own other : Reading stream)
    (counter : Counter) : Prop :=
  ∃ result, program.counters own.pieces own.buffer counter = .ok result ∧
    mutex.counters other.pieces other.buffer counter = .ok result

/-- The zero byte makes a pair exactly with a byte without a partner. -/
theorem count_padded (stream : Bytes) :
    (∀ s, ((shortsOf (stream ++ [0])).count s : Long) = (shortsOf stream).count s) ↔
      stream.length % 2 = 0 := by
  rw [shortsOf_append]
  constructor
  · intro h
    by_contra hodd
    obtain ⟨last, -, hunpaired⟩ :=
      unpaired_of_odd (show stream.length % 2 = 1 by omega)
    have hlast := h (UInt16.ofNat (last.toNat + 256 * (0 : UInt8).toNat))
    rw [hunpaired, List.count_append] at hlast
    simp [shortsOf] at hlast
  · intro heven s
    rw [List.length_eq_zero_iff.mp ((length_unpaired stream).trans heven)]
    simp [shortsOf]

theorem agreesWithMutex_iff {program : Program} {stream : Bytes} (own other : Reading stream)
    (h : program own.pieces own.buffer = .ok (shortsOf stream)) (counter : Counter) :
    AgreesWithMutex program stream own other counter ↔ stream.length % 2 = 0 := by
  have hown := counters_eq h counter
  have hother := counters_eq (mutex_eq other) counter
  rw [← count_padded]
  constructor
  · intro ⟨result, hresult, hresult'⟩ s
    have heq := Except.ok.inj (hother.symm.trans (hresult'.trans (hresult.symm.trans hown)))
    have hs := congrFun heq s
    simpa using hs
  · intro hcount
    refine ⟨_, hown, ?_⟩
    rw [hother]
    simp only [hcount]

/-- The loops of the programs with shared memory do the same as the loop with the mutexes on the
streams of even length, and on no others. -/
theorem counts_agree_iff (stream : Bytes) (own other : Reading stream) (counter : Counter) :
    (AgreesWithMutex simple stream own other counter ↔ stream.length % 2 = 0) ∧
    (AgreesWithMutex simplePosix stream own other counter ↔ stream.length % 2 = 0) ∧
    (AgreesWithMutex segmentedSemaphore stream own other counter ↔ stream.length % 2 = 0) := by
  have hloop := sharedMemoryLoop_eq own
  exact ⟨agreesWithMutex_iff own other hloop counter, agreesWithMutex_iff own other hloop counter,
    agreesWithMutex_iff own other hloop counter⟩

/-- The stream of the byte `A`, in one piece. -/
def oneByte : Reading [65] where
  pieces := [[65]]
  nonempty := by decide
  flatten_eq := rfl
  buffer := List.replicate BUF_SIZE 0
  length_eq := List.length_replicate

/-- The mutex program counts the byte `A` as the short 65, the others do not count it. -/
theorem oneByte_not_counted :
    (simple.counters oneByte.pieces oneByte.buffer fun _ => 0).map (· 65) = .ok 0 ∧
    (simplePosix.counters oneByte.pieces oneByte.buffer fun _ => 0).map (· 65) = .ok 0 ∧
    (segmentedSemaphore.counters oneByte.pieces oneByte.buffer fun _ => 0).map (· 65) = .ok 0 ∧
    (mutex.counters oneByte.pieces oneByte.buffer fun _ => 0).map (· 65) = .ok 1 := by
  have hshared : ∀ program : Program, program = simple →
      (program.counters oneByte.pieces oneByte.buffer fun _ => 0).map (· 65) = .ok 0 := by
    rintro program rfl
    rw [counters_eq (sharedMemoryLoop_eq oneByte)]
    rfl
  refine ⟨hshared simple rfl, hshared simplePosix rfl, hshared segmentedSemaphore rfl, ?_⟩
  rw [counters_eq (mutex_eq oneByte)]
  rfl

end SysProg.CountShorts
