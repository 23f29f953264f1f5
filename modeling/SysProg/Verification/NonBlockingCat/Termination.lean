import SysProg.Model.NonBlockingCat

/-! # Where the loop ends

At the end of the file `read` returns 0 and leaves `errno` alone. If any call before has
failed with `EAGAIN`, the program takes the end for another failure and reads again for
ever. -/

namespace SysProg.NonBlockingCat

open Transmission Transfer

variable {writes : ℕ → Outcome ℕ} {errno : ℤ} {buffer text front rest back written : Bytes}
  {reads : List (Outcome Bytes)} {calls : ℕ}

/-! ## The calls -/

theorem State.onRead_bytes (s : State) {bytes : Bytes} (hne : bytes ≠ []) :
    s.onRead (.ok bytes) =
      match storeRange s.buffer 0 bytes with
      | .error _ => { s with phase := .fault }
      | .ok buffer => { s with buffer, input := s.input ++ bytes }.test 0 bytes.length := by
  have hpos := List.length_pos_iff.mpr hne
  have hone : ¬ (bytes.length : ℤ) < 1 := by omega
  have hnonneg : ¬ (bytes.length : ℤ) < 0 := by omega
  cases hstore : storeRange s.buffer 0 bytes with
  | error e => simp [State.onRead, hone, hnonneg, hne, hstore]
  | ok buffer => simp [State.onRead, hone, hnonneg, hne, hstore]

/-- The outer loop, when all that has been read has been written. -/
def copied (errno : ℤ) (buffer text : Bytes) : State :=
  ⟨.reading, errno, buffer, text, text⟩

/-- The inner loop, when `rest` is still to be written. -/
def pending (errno : ℤ) (front rest back written : Bytes) : State :=
  ⟨.writing front.length rest.length, errno, front ++ rest ++ back, written ++ rest, written⟩

theorem copied_onRead {bytes : Bytes} (hne : bytes ≠ []) (hle : bytes.length ≤ buffer.length) :
    (copied errno buffer text).onRead (.ok bytes) =
      pending errno [] bytes (buffer.drop bytes.length) text := by
  have hpos := List.length_pos_iff.mpr hne
  have hstore : storeRange buffer 0 bytes = .ok ([] ++ bytes ++ buffer.drop bytes.length) := by
    rw [storeRange, if_pos (by omega)]
    simp
  rw [State.onRead_bytes _ hne]
  simp [copied, hstore, State.test, pending, hpos]

theorem copied_onRead_end (h : errno ≠ EAGAIN) :
    (copied errno buffer text).onRead (.ok []) = ⟨.done, errno, buffer, text, text⟩ := by
  simp [State.onRead, copied, h]

/-- The inner loop goes on as long as something is left. -/
theorem pending_onWrite (count : ℕ) :
    (pending errno front rest back written).onWrite front.length rest.length (.ok count) =
      if rest.drop count = [] then copied errno (front ++ rest ++ back) (written ++ rest)
      else pending errno (front ++ rest.take count) (rest.drop count) back
        (written ++ rest.take count) := by
  have hload : loadRange (front ++ rest ++ back) front.length rest.length = .ok rest :=
    loadRange_append rfl rfl
  have htake : rest.take (min count rest.length) = rest.take count := by
    rw [← List.take_take, List.take_length]
  simp only [State.onWrite, pending, hload, htake]
  by_cases hnil : rest.drop count = []
  · have hle := List.drop_eq_nil_iff.mp hnil
    rw [if_pos hnil, List.take_of_length_le hle, min_eq_right hle]
    simp [State.test, copied]
  · have hlt : count < rest.length := Nat.lt_of_not_ge fun hle => hnil (List.drop_of_length_le hle)
    rw [if_neg hnil, min_eq_left hlt.le]
    simp [State.test, hlt, List.length_take, min_eq_left hlt.le]

theorem pending_step : System.step writes ⟨pending errno front rest back written, reads, calls⟩ =
    ⟨(pending errno front rest back written).onWrite front.length rest.length (writes calls),
      reads, calls + 1⟩ :=
  rfl

theorem copied_step {bytes : Bytes} (hne : bytes ≠ []) (hle : bytes.length ≤ buffer.length) :
    System.step writes ⟨copied errno buffer text, .ok bytes :: reads, calls⟩ =
      ⟨pending errno [] bytes (buffer.drop bytes.length) text, reads, calls⟩ :=
  congrArg (System.mk · reads calls) (copied_onRead hne hle)

/-! ## Runs -/

/-- After some number of calls the property holds. -/
def Arrives (writes : ℕ → Outcome ℕ) (sys : System) (P : System → Prop) : Prop :=
  ∃ k, P ((System.step writes)^[k] sys)

theorem Arrives.now {sys : System} {P : System → Prop} (h : P sys) : Arrives writes sys P :=
  ⟨0, h⟩

theorem Arrives.later {sys : System} {P : System → Prop}
    (h : Arrives writes (sys.step writes) P) : Arrives writes sys P := by
  obtain ⟨k, hk⟩ := h
  exact ⟨k + 1, hk⟩

theorem Arrives.trans {sys : System} {P Q : System → Prop} (h : Arrives writes sys P)
    (hPQ : ∀ sys, P sys → Arrives writes sys Q) : Arrives writes sys Q := by
  obtain ⟨k, hk⟩ := h
  obtain ⟨m, hm⟩ := hPQ _ hk
  refine ⟨m + k, ?_⟩
  rw [Function.iterate_add_apply]
  exact hm

/-! ## Without a failure -/

/-- The results from `i` to `j` transfer `n` bytes, and none of them is a failure. -/
inductive Drains (writes : ℕ → Outcome ℕ) : ℕ → ℕ → ℕ → Prop where
  | done (i : ℕ) : Drains writes 0 i i
  | write {n i j count : ℕ} (hresult : writes i = .ok count) (hpos : 0 < n)
      (hrest : Drains writes (n - count) (i + 1) j) : Drains writes n i j

/-- No `read` fails, and none of the calls of `write` that transfer the chunks from the result
with the number `i` on. -/
inductive Smooth (writes : ℕ → Outcome ℕ) : ℕ → List (Outcome Bytes) → Prop where
  | nil (i : ℕ) : Smooth writes i []
  | chunk {i j : ℕ} {bytes : Bytes} {reads : List (Outcome Bytes)}
      (hdrains : Drains writes bytes.length i j) (hrest : Smooth writes j reads) :
      Smooth writes i (.ok bytes :: reads)

theorem Drains.run {n j : ℕ} (h : Drains writes n calls j) (hlength : rest.length = n)
    (hne : rest ≠ []) :
    Arrives writes ⟨pending errno front rest back written, reads, calls⟩
      (· = ⟨copied errno (front ++ rest ++ back) (written ++ rest), reads, j⟩) := by
  induction h generalizing front rest written with
  | done i => exact absurd (List.eq_nil_of_length_eq_zero hlength) hne
  | @write n i j count hresult hpos hrest ih =>
      apply Arrives.later
      rw [pending_step, hresult, pending_onWrite]
      have hdrop : (rest.drop count).length = n - count := by rw [List.length_drop, hlength]
      by_cases hnil : rest.drop count = []
      · rw [hnil, List.length_nil] at hdrop
        rw [← hdrop] at hrest
        cases hrest with
        | done => exact .now (by rw [if_pos hnil])
        | write _ hpos' => exact absurd hpos' (lt_irrefl 0)
      · have hparts : front ++ rest.take count ++ rest.drop count ++ back =
            front ++ rest ++ back := by simp
        have htext : written ++ rest.take count ++ rest.drop count = written ++ rest := by simp
        rw [if_neg hnil, ← hparts, ← htext]
        exact ih hdrop hnil

/-- The bytes of the chunks. -/
def content (reads : List (Outcome Bytes)) : Bytes :=
  reads.flatMap fun result =>
    match result with
    | .ok bytes => bytes
    | .error _ => []

/-- The loop has ended, and `text` has been read and written. -/
def Finished (text : Bytes) (sys : System) : Prop :=
  sys.state.phase = .done ∧ sys.state.input = text ∧ sys.state.output = text

/-- A chunk is read and written as a whole. -/
theorem Drains.copy {bytes : Bytes} {j : ℕ} (h : Drains writes bytes.length calls j)
    (hne : bytes ≠ []) (hle : bytes.length ≤ buffer.length) :
    Arrives writes ⟨copied errno buffer text, .ok bytes :: reads, calls⟩ fun sys =>
      ∃ buffer' : Bytes, buffer'.length = buffer.length ∧
        sys = ⟨copied errno buffer' (text ++ bytes), reads, j⟩ := by
  apply Arrives.later
  rw [copied_step hne hle]
  apply (h.run rfl hne).trans
  intro sys hsys
  apply Arrives.now
  refine ⟨[] ++ bytes ++ buffer.drop bytes.length, ?_, hsys⟩
  simp only [List.length_append, List.length_nil, List.length_drop]
  omega

theorem Smooth.run (h : Smooth writes calls reads) (hreads : Chunks buffer.length reads)
    (herrno : errno ≠ EAGAIN) :
    Arrives writes ⟨copied errno buffer text, reads, calls⟩ (Finished (text ++ content reads)) := by
  induction h generalizing buffer text with
  | nil i =>
      apply Arrives.later
      apply Arrives.now
      have hend : System.step writes ⟨copied errno buffer text, [], i⟩ =
          ⟨⟨.done, errno, buffer, text, text⟩, [], i⟩ :=
        congrArg (System.mk · [] i) (copied_onRead_end herrno)
      rw [hend]
      simp [Finished, content]
  | @chunk i j bytes reads hdrains hrest ih =>
      obtain ⟨hne, hle⟩ : bytes ≠ [] ∧ bytes.length ≤ buffer.length := by
        obtain h | ⟨_, heq, hne, hle⟩ := hreads _ (List.mem_cons_self ..)
        · cases h
        · cases heq
          exact ⟨hne, hle⟩
      have htext : text ++ content (.ok bytes :: reads) = text ++ bytes ++ content reads := by
        simp [content]
      apply (hdrains.copy hne hle).trans
      rintro sys ⟨buffer', hlength, rfl⟩
      rw [htext]
      apply ih
      rw [hlength]
      exact fun result hmem => hreads result (List.mem_cons_of_mem _ hmem)

/-! ## After a failure -/

/-- `errno` has the value of a call that has failed, and no call sets another one. -/
structure Stuck (sys : System) : Prop where
  errno_eq : sys.state.errno = EAGAIN
  not_done : sys.state.phase ≠ .done
  reads_fail : ∀ errno, .error errno ∈ sys.reads → errno = EAGAIN

theorem State.test_phase (s : State) (ptr n : ℕ) : (s.test ptr n).phase ≠ .done := by
  unfold State.test
  split <;> simp

theorem State.onRead_stuck {s : State} (h : s.errno = EAGAIN) (hphase : s.phase ≠ .done)
    {result : Outcome Bytes} (hresult : ∀ errno, result = .error errno → errno = EAGAIN) :
    (s.onRead result).errno = EAGAIN ∧ (s.onRead result).phase ≠ .done := by
  cases result with
  | error errno =>
      obtain rfl := hresult errno rfl
      simp [State.onRead, hphase]
  | ok bytes =>
      by_cases hnil : bytes = []
      · simp [State.onRead, hnil, h, hphase]
      · rw [State.onRead_bytes s hnil]
        cases storeRange s.buffer 0 bytes with
        | error e => exact ⟨h, nofun⟩
        | ok buffer => exact ⟨h, State.test_phase _ _ _⟩

theorem State.onWrite_stuck {s : State} (h : s.errno = EAGAIN) (hphase : s.phase ≠ .done)
    (ptr n : ℕ) {result : Outcome ℕ} (hresult : ∀ errno, result = .error errno → errno = EAGAIN) :
    (s.onWrite ptr n result).errno = EAGAIN ∧ (s.onWrite ptr n result).phase ≠ .done := by
  cases result with
  | error errno =>
      obtain rfl := hresult errno rfl
      simp [State.onWrite, hphase]
  | ok count =>
      cases hload : loadRange s.buffer ptr n with
      | error e => simp [State.onWrite, hload, h]
      | ok bytes =>
          simp only [State.onWrite, hload]
          exact ⟨h, State.test_phase _ _ _⟩

theorem Counts.fails (hwrites : Counts writes) (i : ℕ) (errno : ℤ)
    (h : writes i = .error errno) : errno = EAGAIN := by
  obtain hfail | ⟨count, hcount, -⟩ := hwrites i
  · exact Except.error.inj (h.symm.trans hfail)
  · cases h.symm.trans hcount

theorem Stuck.step (hwrites : Counts writes) {sys : System} (h : Stuck sys) :
    Stuck (sys.step writes) := by
  obtain ⟨herrno, hdone, hreads⟩ := h
  unfold System.step
  cases hphase : sys.state.phase with
  | reading =>
      cases hleft : sys.reads with
      | nil =>
          have hend := State.onRead_stuck herrno hdone (show ∀ errno,
            (.ok [] : Outcome Bytes) = .error errno → errno = EAGAIN from nofun)
          exact ⟨hend.1, hend.2, nofun⟩
      | cons result reads =>
          have hresult : ∀ errno, result = .error errno → errno = EAGAIN :=
            fun errno heq => hreads errno (by simp [hleft, heq])
          have hread := State.onRead_stuck herrno hdone hresult
          exact ⟨hread.1, hread.2, fun errno hmem => hreads errno (by simp [hleft, hmem])⟩
  | writing ptr n =>
      have hwrite := State.onWrite_stuck herrno hdone ptr n (hwrites.fails sys.calls)
      exact ⟨hwrite.1, hwrite.2, hreads⟩
  | done => exact absurd hphase hdone
  | exited => exact ⟨herrno, hdone, hreads⟩
  | fault => exact ⟨herrno, hdone, hreads⟩

theorem Stuck.iterate (hwrites : Counts writes) {sys : System} (h : Stuck sys) (k : ℕ) :
    Stuck ((System.step writes)^[k] sys) := by
  induction k generalizing sys with
  | zero => exact h
  | succ k ih => exact ih (h.step hwrites)

/-- A write that fails before the chunk has been transferred. -/
theorem pending_stuck (hwrites : Counts writes)
    (hreads : ∀ errno, .error errno ∈ reads → errno = EAGAIN)
    (hdrains : ¬ ∃ j, Drains writes rest.length calls j) :
    Arrives writes ⟨pending errno front rest back written, reads, calls⟩ Stuck := by
  induction hn : rest.length using Nat.strong_induction_on
    generalizing front rest written calls with
  | h n ih =>
      have hpos : 0 < rest.length := by
        by_contra hzero
        rw [Nat.eq_zero_of_not_pos hzero] at hdrains
        exact hdrains ⟨calls, .done calls⟩
      apply Arrives.later
      rw [pending_step]
      obtain hfail | ⟨count, hcount, hcountPos⟩ := hwrites calls
      · rw [hfail]
        exact .now ⟨rfl, nofun, hreads⟩
      · have hlater : ¬ ∃ j, Drains writes (rest.drop count).length (calls + 1) j := by
          rintro ⟨j, hj⟩
          rw [List.length_drop] at hj
          exact hdrains ⟨j, .write hcount hpos hj⟩
        have hnil : rest.drop count ≠ [] := by
          intro hnil
          rw [hnil] at hlater
          exact hlater ⟨calls + 1, .done _⟩
        rw [hcount, pending_onWrite, if_neg hnil]
        exact ih (rest.drop count).length (by rw [List.length_drop]; omega) hlater rfl

/-- A failure on the way to the end of the file. -/
theorem copied_stuck (hwrites : Counts writes) (hreads : Chunks buffer.length reads)
    (hsmooth : ¬ Smooth writes calls reads) :
    Arrives writes ⟨copied errno buffer text, reads, calls⟩ Stuck := by
  induction reads generalizing buffer text calls with
  | nil => exact absurd (.nil calls) hsmooth
  | cons result reads ih =>
      have hlater : Chunks buffer.length reads :=
        fun result hmem => hreads result (List.mem_cons_of_mem _ hmem)
      have hfail : ∀ errno, .error errno ∈ reads → errno = EAGAIN := by
        intro errno hmem
        obtain heq | ⟨bytes, heq, -⟩ := hlater _ hmem
        · cases heq
          rfl
        · cases heq
      obtain heq | ⟨bytes, heq, hne, hle⟩ := hreads result (List.mem_cons_self ..)
      · subst heq
        apply Arrives.later
        exact .now ⟨rfl, nofun, hfail⟩
      · subst heq
        by_cases hdrains : ∃ j, Drains writes bytes.length calls j
        · obtain ⟨j, hj⟩ := hdrains
          apply (hj.copy hne hle).trans
          rintro sys ⟨buffer', hlength, rfl⟩
          exact ih (hlength ▸ hlater) fun hrest => hsmooth (.chunk hj hrest)
        · apply Arrives.later
          rw [copied_step hne hle]
          exact pending_stuck hwrites hfail hdrains

theorem System.step_done {sys : System} (h : sys.state.phase = .done) :
    sys.step writes = sys := by
  unfold System.step
  rw [h]

/-- A run with a failure does not end, neither before nor after the failure. -/
theorem Stuck.never_done (hwrites : Counts writes) {sys : System} {m : ℕ}
    (h : Stuck ((System.step writes)^[m] sys)) (k : ℕ) :
    ((System.step writes)^[k] sys).state.phase ≠ .done := by
  intro hdone
  have hstuck := h.iterate hwrites k
  rw [← Function.iterate_add_apply, Nat.add_comm, Function.iterate_add_apply,
    Function.iterate_fixed (System.step_done hdone)] at hstuck
  exact hstuck.not_done hdone

/-- The program ends, and it has written what it has read, which is all of the file. -/
def Environment.Copies {bufferSize : ℕ} (env : Environment bufferSize) : Prop :=
  ∃ k, Finished (content env.reads) (env.after k)

/-- The loop ends exactly if neither `read` nor a `write` on the way to the end of the file
fails with `EAGAIN`. -/
theorem copies_iff {bufferSize : ℕ} (env : Environment bufferSize) :
    env.Copies ↔ Smooth env.writes 0 env.reads := by
  have hreads : Chunks env.buffer.length env.reads := by
    intro result hmem
    obtain heq | ⟨bytes, heq, hne, hle⟩ := env.chunks result hmem
    · exact .inl heq
    · exact .inr ⟨bytes, heq, hne, by rw [env.length_eq]; omega⟩
  constructor
  · intro ⟨k, hk⟩
    by_contra hsmooth
    obtain ⟨m, hm⟩ : Arrives env.writes env.start Stuck :=
      copied_stuck env.counts hreads hsmooth
    exact hm.never_done env.counts k hk.1
  · intro hsmooth
    have hrun : Arrives env.writes env.start (Finished ([] ++ content env.reads)) :=
      hsmooth.run hreads (by decide)
    exact hrun

/-- A file that has nothing at first and then the byte `A`. -/
def lateByte : Environment 1 where
  pos := le_rfl
  reads := [.error EAGAIN, .ok [65]]
  chunks := by
    intro result hmem
    simp only [List.mem_cons, List.not_mem_nil, or_false] at hmem
    cases hmem with
    | inl h => exact .inl h
    | inr h => exact .inr ⟨[65], h, by decide, by decide⟩
  writes _ := .ok 1
  counts _ := .inr ⟨1, rfl, Nat.one_pos⟩
  finite := by simp
  buffer := [0, 0]
  length_eq := rfl

/-- The byte is copied, but the program does not end. -/
theorem lateByte_not_copied :
    ((lateByte.after 3).state.output = [65] ∧ (lateByte.after 3).reads = []) ∧
    (∀ k, (lateByte.after k).state.phase ≠ .done) ∧ ¬ lateByte.Copies := by
  have hstuck : Stuck ((System.step lateByte.writes)^[1] lateByte.start) :=
    ⟨rfl, nofun, fun errno hmem => by
      have : Except.error errno ∈ [(Except.ok [65] : Outcome Bytes)] := hmem
      simp at this⟩
  have hnever := hstuck.never_done lateByte.counts
  refine ⟨⟨rfl, rfl⟩, hnever, ?_⟩
  rintro ⟨k, hk⟩
  exact hnever k hk.1

end SysProg.NonBlockingCat
