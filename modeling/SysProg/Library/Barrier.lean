import SysProg.Library.Leads

/-! # Threads that meet at a barrier

Every thread performs the action of a phase, goes on to the next phase and waits for
the others before it acts there. The actions of one phase may happen in any order. -/

namespace SysProg.Barrier

variable {P σ : Type*} {n : ℕ}

/-- Where a thread stands: before the action of a phase, waiting to enter a phase, or
at its end. -/
inductive Pc (P : Type*) where
  | acting (phase : P)
  | waiting (phase : P)
  | returned
  deriving DecidableEq

/-- What the threads run: what the action of a thread in a phase can make of the shared
state, and the phase after it. -/
structure Program (P σ : Type*) (n : ℕ) where
  first : P
  act : P → Fin n → σ → σ → Prop
  next : P → Option P

structure State (P σ : Type*) (n : ℕ) where
  shared : σ
  pcs : Fin n → Pc P

namespace Program

variable (prog : Program P σ n)

/-- Where a thread stands after its action in a phase. -/
def arrive (phase : P) : Pc P :=
  match prog.next phase with
  | some phase' => .waiting phase'
  | none => .returned

/-- One step of a run: one thread acts, or the barrier lets all threads pass. -/
inductive Step : State P σ n → State P σ n → Prop
  | act {s : State P σ n} {i : Fin n} {phase : P} {shared : σ} (h : s.pcs i = .acting phase)
      (hact : prog.act phase i s.shared shared) :
      Step s ⟨shared, Function.update s.pcs i (prog.arrive phase)⟩
  | pass {s : State P σ n} {phases : Fin n → P} (hn : 0 < n)
      (h : ∀ i, s.pcs i = .waiting (phases i)) :
      Step s ⟨s.shared, fun i => .acting (phases i)⟩

def start (shared : σ) : State P σ n :=
  ⟨shared, fun _ => .acting prog.first⟩

/-! ## The phase of a run -/

/-- The threads in `done` have acted in the phase, the others have not. -/
def pcsAt (phase : P) (done : Finset (Fin n)) : Fin n → Pc P :=
  fun i => if i ∈ done then prog.arrive phase else .acting phase

/-- A run is in one phase; `inv` tells what holds there once the threads in `done` have
acted. -/
def InPhase (inv : P → Finset (Fin n) → σ → Prop) (s : State P σ n) : Prop :=
  ∃ phase done, s.pcs = prog.pcsAt phase done ∧ inv phase done s.shared

/-- What the actions of a phase preserve in any order, and what carries over to the next
phase; no action gets stuck. -/
structure Preserves (inv : P → Finset (Fin n) → σ → Prop) : Prop where
  act : ∀ phase done shared i shared', inv phase done shared → i ∉ done →
    prog.act phase i shared shared' → inv phase (insert i done) shared'
  progress : ∀ phase done shared i, inv phase done shared → i ∉ done →
    ∃ shared', prog.act phase i shared shared'
  pass : ∀ phase phase' shared, prog.next phase = some phase' →
    inv phase Finset.univ shared → inv phase' ∅ shared

variable {prog} {inv : P → Finset (Fin n) → σ → Prop}

theorem pcsAt_insert {phase : P} {done : Finset (Fin n)} {i : Fin n} :
    Function.update (prog.pcsAt phase done) i (prog.arrive phase) =
      prog.pcsAt phase (insert i done) := by
  funext j
  by_cases hj : j = i
  · subst hj
    simp [pcsAt]
  · simp [pcsAt, hj]

theorem arrive_ne_acting {phase phase' : P} : prog.arrive phase ≠ .acting phase' := by
  unfold arrive
  split <;> simp

/-- Only threads that have not acted yet act. -/
theorem of_pcsAt_acting {phase phase' : P} {done : Finset (Fin n)} {i : Fin n}
    (h : prog.pcsAt phase done i = .acting phase') : i ∉ done ∧ phase' = phase := by
  unfold pcsAt at h
  split at h
  · exact absurd h arrive_ne_acting
  · next hi => exact ⟨hi, by simpa using h.symm⟩

/-- When all threads wait, all have acted. -/
theorem of_pcsAt_waiting {phase : P} {done : Finset (Fin n)} {phases : Fin n → P}
    (h : ∀ i, prog.pcsAt phase done i = .waiting (phases i)) :
    done = Finset.univ ∧ ∀ i, prog.next phase = some (phases i) := by
  have hi : ∀ i, i ∈ done ∧ prog.next phase = some (phases i) := by
    intro i
    have hpc := h i
    unfold pcsAt at hpc
    split at hpc
    · next hi =>
        refine ⟨hi, ?_⟩
        unfold arrive at hpc
        split at hpc
        · next phase' hnext => rw [hnext, Pc.waiting.inj hpc]
        · cases hpc
    · cases hpc
  exact ⟨Finset.eq_univ_iff_forall.mpr fun i => (hi i).1, fun i => (hi i).2⟩

theorem Preserves.step (hinv : prog.Preserves inv) {s t : State P σ n}
    (h : prog.InPhase inv s) (hst : prog.Step s t) : prog.InPhase inv t := by
  obtain ⟨phase, done, hpcs, hs⟩ := h
  cases hst with
  | @act i phase' shared hi hact =>
      rw [hpcs] at hi
      obtain ⟨hnot, rfl⟩ := of_pcsAt_acting hi
      refine ⟨phase', insert i done, ?_, hinv.act _ _ _ _ _ hs hnot hact⟩
      simp only [hpcs, pcsAt_insert]
  | @pass phases hn hall =>
      rw [hpcs] at hall
      obtain ⟨rfl, hnext⟩ := of_pcsAt_waiting hall
      refine ⟨phases ⟨0, hn⟩, ∅, ?_, hinv.pass _ _ _ (hnext _) hs⟩
      funext i
      have heq : phases i = phases ⟨0, hn⟩ := by
        have := (hnext i).symm.trans (hnext ⟨0, hn⟩)
        simpa using this
      simp [pcsAt, heq]

theorem inPhase_start {shared : σ} (h : inv prog.first ∅ shared) :
    prog.InPhase inv (prog.start shared) :=
  ⟨prog.first, ∅, by simp [start, pcsAt, funext_iff], h⟩

/-- In every order of the actions each reachable state is in one phase with its
invariant. -/
theorem Preserves.reaches (hinv : prog.Preserves inv) {shared : σ}
    (h : inv prog.first ∅ shared) {s : State P σ n}
    (hrun : Reaches prog.Step (prog.start shared) s) : prog.InPhase inv s := by
  refine Reaches.invariant (I := prog.InPhase inv) ?_ hrun (inPhase_start h)
  intro t u ht htu
  exact hinv.step ht htu

/-- A program whose actions are those of another one on the images of its states has the
invariants of the other one. -/
theorem Preserves.map {τ : Type*} {prog' : Program P τ n} (f : σ → τ) (hinv : prog.Preserves inv)
    (hact : ∀ phase done s i t, inv phase done s → i ∉ done → prog'.act phase i (f s) t →
      ∃ s', prog.act phase i s s' ∧ t = f s')
    (hprogress : ∀ phase done s i, inv phase done s → i ∉ done →
      ∃ t, prog'.act phase i (f s) t)
    (hnext : ∀ phase phase' done s, inv phase done s → prog'.next phase = some phase' →
      prog.next phase = some phase') :
    prog'.Preserves fun phase done t => ∃ s, t = f s ∧ inv phase done s where
  act := by
    rintro phase done _ i t ⟨s, rfl, hs⟩ hi ht
    obtain ⟨s', hs', rfl⟩ := hact phase done s i t hs hi ht
    exact ⟨s', rfl, hinv.act _ _ _ _ _ hs hi hs'⟩
  progress := by
    rintro phase done _ i ⟨s, rfl, hs⟩ hi
    exact hprogress phase done s i hs hi
  pass := by
    rintro phase phase' _ hphase ⟨s, rfl, hs⟩
    exact ⟨s, rfl, hinv.pass _ _ _ (hnext _ _ _ _ hs hphase) hs⟩

/-- When all threads have returned, there is no step left. -/
theorem stuck_of_returned (hn : 0 < n) {s : State P σ n} (hret : ∀ i, s.pcs i = .returned)
    (t : State P σ n) : ¬ prog.Step s t := by
  intro hstep
  cases hstep with
  | act h _ => simp [hret] at h
  | pass _ h => simpa [hret] using h ⟨0, hn⟩

/-! ## Termination -/

/-- The steps that a thread has left, when `rank` bounds the number of phases left. -/
def pcRank (rank : P → ℕ) : Pc P → ℕ
  | .acting phase => 2 * rank phase + 1
  | .waiting phase => 2 * rank phase + 2
  | .returned => 0

theorem pcRank_arrive {rank : P → ℕ} {phase : P}
    (hrank : ∀ phase', prog.next phase = some phase' → rank phase' < rank phase) :
    pcRank rank (prog.arrive phase) < pcRank rank (.acting phase) := by
  unfold arrive
  split
  · next phase' hnext =>
      have := hrank _ hnext
      simp only [pcRank]
      omega
  · simp [pcRank]

/-- If the phases come to an end, every run ends with all threads returned from a last
phase in which all have acted; no run gets stuck before. -/
theorem Preserves.leads (hinv : prog.Preserves inv) (rank : P → ℕ)
    (hrank : ∀ phase phase' done shared, inv phase done shared →
      prog.next phase = some phase' → rank phase' < rank phase)
    (hn : 0 < n) {shared : σ} (h : inv prog.first ∅ shared) :
    Leads prog.Step (fun s => (∀ i, s.pcs i = .returned) ∧
      ∃ phase, prog.next phase = none ∧ inv phase Finset.univ s.shared)
      (prog.start shared) := by
  refine Leads.of_variant (I := prog.InPhase inv) (fun s => ∑ i, pcRank rank (s.pcs i)) ?_ ?_
    _ (inPhase_start h)
  · intro s ⟨phase, done, hpcs, hs⟩
    by_cases hall : ∃ i, i ∉ done
    · obtain ⟨i, hi⟩ := hall
      obtain ⟨shared', hact⟩ := hinv.progress phase done s.shared i hs hi
      exact .inr ⟨_, .act (by simp [hpcs, pcsAt, hi]) hact⟩
    · have hdone : ∀ i, i ∈ done := by simpa using hall
      cases hnext : prog.next phase with
      | some phase' =>
          have hwait : ∀ i, s.pcs i = .waiting phase' := by
            intro i
            simp [hpcs, pcsAt, hdone i, arrive, hnext]
          exact .inr ⟨_, .pass hn hwait⟩
      | none =>
          refine .inl ⟨fun i => by simp [hpcs, pcsAt, hdone i, arrive, hnext], phase, hnext, ?_⟩
          rwa [← Finset.eq_univ_iff_forall.mpr hdone]
  · intro s t hs hst
    refine .inr ⟨hinv.step hs hst, ?_⟩
    cases hst with
    | @act i phase shared hi hact =>
        obtain ⟨phase', done, hpcs, hinv'⟩ := hs
        rw [hpcs] at hi
        obtain ⟨hnot, rfl⟩ := of_pcsAt_acting hi
        rw [← hpcs] at hi
        have harrive := pcRank_arrive fun phase' => hrank phase phase' done s.shared hinv'
        refine Finset.sum_lt_sum ?_ ⟨i, Finset.mem_univ i, ?_⟩
        · intro j _
          by_cases hj : j = i
          · subst hj
            simp only [Function.update_self, hi]
            exact harrive.le
          · simp [hj]
        · simp only [Function.update_self, hi]
          exact harrive
    | @pass phases _ hall =>
        refine Finset.sum_lt_sum_of_nonempty ⟨⟨0, hn⟩, Finset.mem_univ _⟩ fun i _ => ?_
        simp [hall, pcRank]

end Program

end SysProg.Barrier
