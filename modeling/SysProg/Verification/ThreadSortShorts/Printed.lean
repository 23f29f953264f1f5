import SysProg.Verification.ThreadSortShorts.Units

/-! # What is printed at the end

`print_data` takes the number of bytes for the number of shorts. -/

namespace SysProg.ThreadSortShorts

open Transmission CountShorts

/-- The values of the shorts in the file. -/
def fileShorts (input : Input) : List ℤ :=
  (shortsOf input.file).map fun s => s.toInt16.toInt

/-- The shorts of the file are printed in order, each as often as it occurs. -/
def PrintsSorted (input : Input) (result : Run (List ℤ)) : Prop :=
  ∃ shorts, result = .ok shorts ∧ shorts.Perm (fileShorts input) ∧ shorts.Pairwise (· ≤ ·)

/-- What the program is for. -/
def SortsShorts (input : Input) : Prop :=
  Tiles (segments input) input.file.length ∧
    ∀ result, Outcome input result → PrintsSorted input result

/-! ## Every run comes to an end -/

/-- A bound on the number of phases left. -/
def phaseRank (threadCount : ℕ) : Psort.Phase → ℕ
  | .sort => threadCount + 1
  | .merge step => threadCount - step

def StepPos : Psort.Phase → Prop
  | .sort => True
  | .merge step => 0 < step

theorem threadRun_next {threadCount : ℕ} {phase phase' : Psort.Phase} (hphase : StepPos phase)
    (hnext : (threadRun threadCount).next phase = some phase') :
    StepPos phase' ∧ phaseRank threadCount phase' < phaseRank threadCount phase := by
  cases phase with
  | sort =>
      simp only [threadRun, Option.ite_none_right_eq_some, Option.some.injEq] at hnext
      obtain ⟨hlt, rfl⟩ := hnext
      exact ⟨Nat.one_pos, by simp only [phaseRank]; omega⟩
  | merge step =>
      simp only [threadRun, Option.ite_none_right_eq_some, Option.some.injEq] at hnext
      obtain ⟨hlt, rfl⟩ := hnext
      simp only [StepPos, phaseRank] at hphase ⊢
      omega

theorem threadRun_preserves (threadCount : ℕ) :
    (threadRun threadCount).Preserves fun phase _ _ => StepPos phase where
  act _ _ _ _ _ hphase _ _ := hphase
  progress _ _ _ _ _ _ := ⟨_, rfl⟩
  pass _ _ _ hnext hphase := (threadRun_next hphase hnext).1

theorem exists_outcome (input : Input) : ∃ result, Outcome input result := by
  have hleads : Leads (threadRun input.threadCount).Step
      (fun s => (∀ i, s.pcs i = .returned) ∧
        ∃ phase, (threadRun input.threadCount).next phase = none ∧ StepPos phase)
      (startThreads input) :=
    (threadRun_preserves input.threadCount).leads (phaseRank input.threadCount)
      (fun _ _ _ _ hphase hnext => (threadRun_next hphase hnext).2) input.threadCount_pos trivial
  obtain ⟨t, hrun, hjoin, -⟩ := hleads.exists_reaches
  exact ⟨_, .joined hrun hjoin⟩

/-! ## The number of values -/

theorem length_sarrFrom {buffer : Bytes} {i n : ℕ} {shorts : List UInt16}
    (h : sarrFrom buffer i n = .ok shorts) : shorts.length = n := by
  induction n generalizing i shorts with
  | zero =>
      obtain rfl : [] = shorts := Except.ok.inj h
      rfl
  | succ n ih =>
      obtain ⟨s, -, h⟩ := Run.bind_eq_ok h
      obtain ⟨rest, hrest, h⟩ := Run.bind_eq_ok h
      obtain rfl : s :: rest = shorts := Except.ok.inj h
      rw [List.length_cons, ih hrest]

theorem length_shortsOf : ∀ stream : Bytes, (shortsOf stream).length = stream.length / 2
  | [] => rfl
  | [last] => by simp [shortsOf]
  | low :: high :: stream => by
      rw [shortsOf, List.length_cons, length_shortsOf stream]
      simp only [List.length_cons]
      omega

theorem Outcome.length_eq {input : Input} {shorts : List ℤ} (h : Outcome input (.ok shorts)) :
    shorts.length = (dataSize input).toNat := by
  generalize hresult : (Except.ok shorts : Run (List ℤ)) = result at h
  cases h with
  | joined hrun hjoin =>
      obtain ⟨s, -, hprint⟩ := Run.bind_eq_ok hresult.symm
      obtain ⟨values, hvalues, heq⟩ := Run.bind_eq_ok hprint
      obtain rfl := Except.ok.inj heq
      rw [List.length_map, length_sarrFrom hvalues]

/-- The size in bytes is never the number of shorts. -/
theorem dataSize_ne (input : Input) : (dataSize input).toNat ≠ (fileShorts input).length := by
  have heven := input.file_even
  have hpos := input.file_pos
  rw [fileShorts, List.length_map, length_shortsOf]
  unfold dataSize int32 Int.bmod
  dsimp only
  split <;> omega

/-- No run prints the shorts of the file. -/
theorem Outcome.not_printsSorted {input : Input} {result : Run (List ℤ)}
    (h : Outcome input result) : ¬ PrintsSorted input result := by
  intro ⟨shorts, hresult, hperm, _⟩
  subst hresult
  exact dataSize_ne input (h.length_eq.symm.trans hperm.length_eq)

theorem sortsShorts_never (input : Input) : ¬ SortsShorts input := by
  intro ⟨_, hprints⟩
  obtain ⟨result, houtcome⟩ := exists_outcome input
  exact houtcome.not_printsSorted (hprints result houtcome)

/-- A file that has the short 1, and the short 7 behind the buffer. -/
def oneShort : Input where
  file := [1, 0]
  memory := [0, 0, 7, 0]
  threadCount := 1
  file_even := rfl
  file_pos := by decide
  buffer_le := by decide
  memory_lt := by decide
  threadCount_pos := by decide
  threadCount_lt := by decide

/-- The run with a single thread. -/
theorem outcome_of_one {input : Input} (hone : input.threadCount = 1) {memory : Bytes}
    (hprepare : prepare input = .ok memory) :
    Outcome input (sortSegment 0 ⟨memory, segments input⟩ >>= printData input) := by
  have hact : (threadRun input.threadCount).Step (startThreads input) _ :=
    .act (i := ⟨0, input.threadCount_pos⟩) rfl rfl
  have hjoined := Outcome.joined (.tail .refl hact) (by
    intro idx
    have hidx : idx = ⟨0, input.threadCount_pos⟩ := by
      have := idx.isLt
      ext
      simp only
      omega
    have hnext : (threadRun input.threadCount).next (threadRun input.threadCount).first = none := by
      simp [threadRun, hone]
    simp only [hidx, Function.update_self, Barrier.Program.arrive, hnext])
  have hfirst : (threadRun input.threadCount).first = .sort := rfl
  simpa only [startThreads, Barrier.Program.start, hprepare, Run.ok_bind, hfirst, threadAction]
    using hjoined

theorem dataSize_oneShort : dataSize oneShort = 2 := by
  simp [dataSize, oneShort, int32, Int.bmod]

/-- The only thread gets the whole buffer. -/
theorem segments_oneShort : segments oneShort = [⟨some 0, 2⟩] := by
  have hlast := segmentAt_size_last oneShort (by decide)
  rw [dataSize_oneShort] at hlast
  have hsize : ((segmentAt oneShort 0).size : ℤ) = 2 := by simpa [oneShort] using hlast
  have hdata : (segmentAt oneShort 0).data = some 0 := by
    simp only [segmentAt, mul_zero, zero_mul]
  have hat : segmentAt oneShort 0 = ⟨some 0, 2⟩ :=
    ThreadArg.ext hdata (by exact_mod_cast hsize)
  rw [segments_eq, ← hat]
  rfl

theorem sortSegment_oneShort : sortSegment 0 ⟨[1, 0, 7, 0], [⟨some 0, 2⟩]⟩ =
    .ok ⟨[0, 1, 7, 0], [⟨some 0, 2⟩]⟩ := by
  have hqsort : qsort [1, 0] = .ok [0, 1] := by
    simp [qsort, List.mergeSort, compare]
  simp [sortSegment, load, argData, onSegment, loadRange, hqsort, storeRange]

theorem printData_oneShort :
    printData oneShort ⟨[0, 1, 7, 0], [⟨some 0, 2⟩]⟩ = .ok [256, 7] := by
  simp [printData, dataSize_oneShort, sarrFrom, sarr, load]

theorem outcome_oneShort : Outcome oneShort (.ok [256, 7]) := by
  have hprepare : prepare oneShort = .ok [1, 0, 7, 0] := rfl
  have h := outcome_of_one rfl hprepare
  rwa [segments_oneShort, sortSegment_oneShort, Run.ok_bind, printData_oneShort] at h

/-- The bytes of the short are exchanged, and the short behind the buffer is printed, too. -/
theorem sortsShorts_oneShort :
    Outcome oneShort (.ok [256, 7]) ∧ ¬ SortsShorts oneShort := by
  refine ⟨outcome_oneShort, ?_⟩
  intro ⟨_, hprints⟩
  obtain ⟨shorts, hresult, hperm, -⟩ := hprints _ outcome_oneShort
  obtain rfl := Except.ok.inj hresult
  exact absurd hperm.length_eq (by decide)

end SysProg.ThreadSortShorts
