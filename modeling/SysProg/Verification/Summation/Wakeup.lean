import SysProg.Model.Summation

/-! # The wakeup of the main thread

The total is right whenever the main thread prints. But a signal that comes before the main thread
waits is lost, and then it waits for ever. -/

namespace SysProg.Summation

open Transmission

variable {n : ℕ} {files : Fin n → Bytes}

/-! ## What holds for each state of a thread -/

/-- The sum of the bytes of a file, as a `long`. -/
def sumOf (file : Bytes) : Long :=
  (file.map fun c => BitVec.ofNat 64 c.toNat).sum

/-- The number that the bytes of all files add up to. -/
def bytesSum (files : Fin n → Bytes) : ℕ :=
  ∑ i, ((files i).map UInt8.toNat).sum

def Worker.beforeBarrier : Worker → Bool
  | .notCreated | .started | .reading _ | .waiting => true
  | _ => false

/-- The thread has passed its signalling code. -/
def Worker.pastSignal : Worker → Bool
  | .sleeping | .finished => true
  | _ => false

/-- The main thread has not left `pthread_cond_wait`. -/
def Main.beforeWakeup : Main → Bool
  | .creating _ | .waiting => true
  | _ => false

/-- What a thread has added up so far. -/
def PartialOk (file : Bytes) : Worker → Long → Prop
  | .notCreated, _ | .started, _ => True
  | .reading todo, x => x + sumOf todo = sumOf file
  | _, x => x = sumOf file

/-- What the serial thread has added up so far. -/
def TotalOk (files : Fin n → Bytes) : Worker → Long → Prop
  | .serial, _ => True
  | .adding j, total => j ≤ n ∧ total = ∑ i with i.val < j, sumOf (files i)
  | .signalling, total => total = ∑ i, sumOf (files i)
  | _, _ => False

/-- What has been printed. -/
def PrintedOk (files : Fin n → Bytes) : Main → List Long → Prop
  | .creating _, printed | .waiting, printed => printed = []
  | .printing i, printed => i ≤ n ∧ printed = (List.ofFn fun k => sumOf (files k)).take i
  | .printingTotal, printed => printed = List.ofFn fun k => sumOf (files k)
  | .joining _, printed | .exited, printed =>
      printed = (List.ofFn fun k => sumOf (files k)) ++ [∑ i, sumOf (files i)]

/-- How far the threads have come together. -/
inductive Phase (files : Fin n → Bytes) (s : State n) : Prop
  | reading (hworkers : ∀ i, (s.workers i).beforeBarrier) (hmain : s.main.beforeWakeup)
  | adding (serial : Fin n) (htotal : TotalOk files (s.workers serial) s.totalSum)
      (hothers : ∀ i, i ≠ serial → (s.workers i).pastSignal) (hmain : s.main.beforeWakeup)
  | signalled (hworkers : ∀ i, (s.workers i).pastSignal)
      (htotal : s.totalSum = ∑ i, sumOf (files i))

/-- What holds in every state. -/
structure Inv (files : Fin n → Bytes) (s : State n) : Prop where
  notCreated : ∀ k, s.main = .creating k → ∀ i : Fin n, k ≤ i → s.workers i = .notCreated
  partialSums : ∀ i, PartialOk (files i) (s.workers i) (s.partialSums i)
  phase : Phase files s
  printed : PrintedOk files s.main s.printed

theorem inv_start (partialSums : Fin n → Long) (totalSum : Long) :
    Inv files (start partialSums totalSum) where
  notCreated _ _ _ _ := rfl
  partialSums _ := trivial
  phase := .reading (fun _ => rfl) rfl
  printed := rfl

theorem TotalOk.not_pastSignal {worker : Worker} {total : Long} (h : TotalOk files worker total) :
    worker.pastSignal = false := by
  cases worker <;> first | rfl | exact absurd h (by simp [TotalOk])

theorem beforeBarrier_not_pastSignal {worker : Worker} (h : worker.beforeBarrier) :
    worker.pastSignal = false := by
  cases worker <;> simp_all [Worker.beforeBarrier, Worker.pastSignal]

variable {s t : State n} {i : Fin n}

theorem Phase.of_beforeBarrier (h : Phase files s) {worker : Worker} (hi : s.workers i = worker)
    (hbefore : worker.beforeBarrier) :
    (∀ j, (s.workers j).beforeBarrier) ∧ s.main.beforeWakeup := by
  subst hi
  have hpast := beforeBarrier_not_pastSignal hbefore
  cases h with
  | reading hworkers hmain => exact ⟨hworkers, hmain⟩
  | adding serial htotal hothers hmain =>
      by_cases his : i = serial
      · subst his
        revert htotal hbefore
        cases s.workers i <;> simp [TotalOk, Worker.beforeBarrier]
      · rw [hothers i his] at hpast
        cases hpast
  | signalled hworkers htotal =>
      rw [hworkers i] at hpast
      cases hpast

theorem Phase.of_adding (h : Phase files s) {worker : Worker} (hi : s.workers i = worker)
    (hbefore : worker.beforeBarrier = false) (hpast : worker.pastSignal = false) :
    TotalOk files worker s.totalSum ∧ (∀ j, j ≠ i → (s.workers j).pastSignal) ∧
      s.main.beforeWakeup := by
  subst hi
  cases h with
  | reading hworkers hmain =>
      rw [hworkers i] at hbefore
      cases hbefore
  | adding serial htotal hothers hmain =>
      by_cases his : i = serial
      · subst his
        exact ⟨htotal, hothers, hmain⟩
      · rw [hothers i his] at hpast
        cases hpast
  | signalled hworkers htotal =>
      rw [hworkers i] at hpast
      cases hpast

theorem Phase.of_woken (h : Phase files s) (hmain : s.main.beforeWakeup = false) :
    (∀ j, (s.workers j).pastSignal) ∧ s.totalSum = ∑ j, sumOf (files j) := by
  cases h with
  | reading _ hbefore =>
      rw [hbefore] at hmain
      cases hmain
  | adding _ _ _ hbefore =>
      rw [hbefore] at hmain
      cases hmain
  | signalled hworkers htotal => exact ⟨hworkers, htotal⟩

theorem PartialOk.of_pastSignal {file : Bytes} {worker : Worker} {x : Long}
    (h : PartialOk file worker x) (hpast : worker.pastSignal) : x = sumOf file := by
  cases worker <;> simp_all [PartialOk, Worker.pastSignal]

/-! ## Steps of the main thread -/

theorem Inv.create (hs : Inv files s) {k : ℕ} (hmain : s.main = .creating k) (hk : k < n) :
    Inv files { s.goto ⟨k, hk⟩ .started with main := .creating (k + 1) } := by
  have hnot := hs.notCreated k hmain ⟨k, hk⟩ le_rfl
  have hprinted := hs.printed
  rw [hmain] at hprinted
  obtain ⟨hworkers, -⟩ := hs.phase.of_beforeBarrier hnot rfl
  refine ⟨?_, ?_, .reading ?_ rfl, hprinted⟩
  · intro k' hk' i hi
    obtain rfl := Main.creating.inj hk'
    have hne : i ≠ ⟨k, hk⟩ := by
      intro heq
      rw [heq] at hi
      exact absurd hi (Nat.not_succ_le_self k)
    simpa [State.goto, hne] using hs.notCreated k hmain i (by omega)
  · exact (Function.forall_update_iff _ fun i w =>
      PartialOk (files i) w (s.partialSums i)).mpr ⟨trivial, fun i _ => hs.partialSums i⟩
  · exact (Function.forall_update_iff _ fun _ (w : Worker) => w.beforeBarrier = true).mpr
      ⟨rfl, fun i _ => hworkers i⟩

/-- The main thread prints or joins. -/
theorem Inv.print (hs : Inv files s) {main main' : Main} (hmain : s.main = main)
    (hwoken : main.beforeWakeup = false) (hwoken' : main'.beforeWakeup = false)
    {printed : List Long} (hprinted : PrintedOk files main' printed) :
    Inv files { s with main := main', printed := printed } := by
  obtain ⟨hworkers, htotal⟩ := hs.phase.of_woken (hmain ▸ hwoken)
  refine ⟨fun k hk => ?_, hs.partialSums, .signalled hworkers htotal, hprinted⟩
  rw [show main' = .creating k from hk] at hwoken'
  cases hwoken'

theorem Inv.of_mainStep (hs : Inv files s) (h : mainStep s = some t) : Inv files t := by
  have hphase := hs.phase
  have hprinted := hs.printed
  unfold mainStep at h
  split at h
  · next k hmain =>
      rw [hmain] at hprinted
      split at h
      · next hk =>
          cases h
          exact hs.create hmain hk
      · cases h
        refine ⟨by simp, hs.partialSums, ?_, hprinted⟩
        cases hphase with
        | reading hworkers _ => exact .reading hworkers rfl
        | adding serial htotal hothers _ => exact .adding serial htotal hothers rfl
        | signalled hworkers htotal => exact .signalled hworkers htotal
  · next k hmain =>
      obtain ⟨hworkers, -⟩ := hphase.of_woken (by rw [hmain]; rfl)
      rw [hmain] at hprinted
      obtain ⟨hk, hlines⟩ := hprinted
      split at h
      · next hlt =>
          cases h
          have hsum := (hs.partialSums ⟨k, hlt⟩).of_pastSignal (hworkers _)
          refine hs.print hmain rfl rfl ⟨hlt, ?_⟩
          rw [hlines, hsum, List.take_add_one, List.getElem?_ofFn, dif_pos hlt]
          rfl
      · next hge =>
          cases h
          refine hs.print hmain rfl rfl (hlines.trans (List.take_of_length_le ?_))
          rw [List.length_ofFn]
          exact not_lt.mp hge
  · next hmain =>
      obtain ⟨-, htotal⟩ := hphase.of_woken (by rw [hmain]; rfl)
      rw [hmain] at hprinted
      cases h
      refine hs.print hmain rfl rfl ?_
      rw [PrintedOk, htotal]
      exact congrArg (· ++ _) hprinted
  · next k hmain =>
      rw [hmain] at hprinted
      split at h
      · split at h
        · cases h
          exact hs.print hmain rfl rfl hprinted
        · cases h
      · cases h
        exact hs.print hmain rfl rfl hprinted
  · cases h
  · cases h

/-! ## Steps of the other threads -/

/-- What has to be shown of a step of one thread. -/
theorem Inv.of_worker (hs : Inv files s) (worker : Worker) {x : Long}
    (hnot : s.workers i ≠ .notCreated) (hsum : PartialOk (files i) worker x)
    (hworkers : t.workers = Function.update s.workers i worker)
    (hsums : t.partialSums = Function.update s.partialSums i x)
    (hmain : ∀ k, t.main = .creating k → s.main = .creating k)
    (hprinted : PrintedOk files t.main t.printed) (hphase : Phase files t) : Inv files t := by
  refine ⟨?_, ?_, hphase, hprinted⟩
  · intro k hk j hj
    have hnotj := hs.notCreated k (hmain k hk) j hj
    have hji : j ≠ i := by
      rintro rfl
      exact hnot hnotj
    rwa [hworkers, Function.update_of_ne hji]
  · intro j
    by_cases hji : j = i
    · subst hji
      rwa [hworkers, hsums, Function.update_self, Function.update_self]
    · rw [hworkers, hsums, Function.update_of_ne hji, Function.update_of_ne hji]
      exact hs.partialSums j

/-- The same for a step that leaves the sum of the thread and the main thread alone. -/
theorem Inv.of_goto (hs : Inv files s) {worker : Worker} (hi : s.workers i = worker)
    (hnot : worker ≠ .notCreated) {worker' : Worker} {total : Long}
    (hsum : PartialOk (files i) worker' (s.partialSums i))
    (hphase : Phase files { s.goto i worker' with totalSum := total }) :
    Inv files { s.goto i worker' with totalSum := total } :=
  hs.of_worker worker' (hi ▸ hnot) hsum rfl (Function.update_eq_self _ _).symm (fun _ hk => hk)
    hs.printed hphase

theorem Phase.reading_update (h : Phase files s) {worker : Worker} (hi : s.workers i = worker)
    (hworker : worker.beforeBarrier) {worker' : Worker} (hworker' : worker'.beforeBarrier)
    (hworkers : t.workers = Function.update s.workers i worker') (hmain : t.main = s.main) :
    Phase files t := by
  obtain ⟨hbefore, hmain'⟩ := h.of_beforeBarrier hi hworker
  refine .reading ?_ (hmain ▸ hmain')
  rw [hworkers]
  exact (Function.forall_update_iff _ fun _ (w : Worker) => w.beforeBarrier = true).mpr
    ⟨hworker', fun j _ => hbefore j⟩

theorem Phase.adding_update (h : Phase files s) {worker : Worker} (hi : s.workers i = worker)
    (hbefore : worker.beforeBarrier = false) (hpast : worker.pastSignal = false)
    {worker' : Worker} (htotal : TotalOk files worker' t.totalSum)
    (hworkers : t.workers = Function.update s.workers i worker') (hmain : t.main = s.main) :
    Phase files t := by
  obtain ⟨-, hothers, hmain'⟩ := h.of_adding hi hbefore hpast
  refine .adding i ?_ (fun j hji => ?_) (hmain ▸ hmain')
  · rwa [hworkers, Function.update_self]
  · rw [hworkers, Function.update_of_ne hji]
    exact hothers j hji

theorem Phase.past_update (h : Phase files s) {worker : Worker} (hi : s.workers i = worker)
    (hworker : worker.pastSignal) {worker' : Worker} (hworker' : worker'.pastSignal)
    (hworkers : t.workers = Function.update s.workers i worker') (hmain : t.main = s.main)
    (htotal : t.totalSum = s.totalSum) : Phase files t := by
  subst hi
  have hpast : ∀ j, (s.workers j).pastSignal → (t.workers j).pastSignal := by
    rw [hworkers]
    exact (Function.forall_update_iff _ fun j (w : Worker) =>
      (s.workers j).pastSignal = true → w.pastSignal = true).mpr
        ⟨fun _ => hworker', fun _ _ => id⟩
  cases h with
  | reading hbefore _ =>
      rw [beforeBarrier_not_pastSignal (hbefore i)] at hworker
      cases hworker
  | adding serial htotal' hothers hmain' =>
      have hne : serial ≠ i := by
        rintro rfl
        rw [htotal'.not_pastSignal] at hworker
        cases hworker
      refine .adding serial ?_ (fun j hj => hpast j (hothers j hj)) (hmain ▸ hmain')
      rwa [hworkers, Function.update_of_ne hne, htotal]
  | signalled hall htotal' => exact .signalled (fun j => hpast j (hall j)) (htotal ▸ htotal')

theorem sum_lt_succ (f : Fin n → Long) {j : ℕ} (hj : j < n) :
    ∑ i with i.val < j + 1, f i = ∑ i with i.val < j, f i + f ⟨j, hj⟩ := by
  have hinsert : Finset.univ.filter (fun i : Fin n => i.val < j + 1) =
      insert ⟨j, hj⟩ (Finset.univ.filter fun i : Fin n => i.val < j) := by
    ext i
    simp only [Finset.mem_filter, Finset.mem_univ, true_and, Finset.mem_insert, Fin.ext_iff]
    omega
  rw [hinsert, Finset.sum_insert (by simp), add_comm]

theorem sum_lt_eq (f : Fin n → Long) {j : ℕ} (hj : n ≤ j) :
    ∑ i with i.val < j, f i = ∑ i, f i := by
  rw [Finset.filter_true_of_mem fun i _ => i.isLt.trans_le hj]

/-- The serial thread adds up sums that are complete. -/
theorem Inv.partialSum_eq (hs : Inv files s)
    (hothers : ∀ j, j ≠ i → (s.workers j).pastSignal) (hi : (s.workers i).beforeBarrier = false)
    (j : Fin n) : s.partialSums j = sumOf (files j) := by
  have hsum := hs.partialSums j
  by_cases hji : j = i
  · subst hji
    revert hsum hi
    cases s.workers j <;> simp [PartialOk, Worker.beforeBarrier]
  · exact hsum.of_pastSignal (hothers j hji)

theorem Inv.of_workerStep (hs : Inv files s) (h : workerStep files s i = some t) :
    Inv files t := by
  have hsum := hs.partialSums i
  have hphase := hs.phase
  unfold workerStep at h
  split at h
  · next hi =>
      cases h
      have hnext : PartialOk (files i) (.reading (files i)) 0 := by
        rw [PartialOk, zero_add]
      exact hs.of_worker (.reading (files i)) (by simp [hi]) hnext rfl rfl (fun _ hk => hk)
        hs.printed (hphase.reading_update hi rfl rfl rfl rfl)
  · next c todo hi =>
      cases h
      rw [hi] at hsum
      have hnext : PartialOk (files i) (.reading todo)
          (s.partialSums i + BitVec.ofNat 64 c.toNat) := by
        rw [PartialOk, add_assoc]
        exact hsum
      exact hs.of_worker (.reading todo) (by simp [hi]) hnext rfl rfl (fun _ hk => hk)
        hs.printed (hphase.reading_update hi rfl rfl rfl rfl)
  · next hi =>
      cases h
      rw [hi] at hsum
      have hnext : PartialOk (files i) .waiting (s.partialSums i) :=
        (add_zero _).symm.trans hsum
      exact hs.of_goto hi (by simp) hnext (hphase.reading_update hi rfl rfl rfl rfl)
  · next hi =>
      cases h
      rw [hi] at hsum
      have hnext : TotalOk files (.adding 0) 0 := by
        simp [TotalOk]
      exact hs.of_goto hi (by simp) hsum (hphase.adding_update hi rfl rfl hnext rfl rfl)
  · next j hi =>
      rw [hi] at hsum
      obtain ⟨⟨hj, htotal⟩, hothers, -⟩ := hphase.of_adding hi rfl rfl
      split at h
      · next hlt =>
          cases h
          have hnext : TotalOk files (.adding (j + 1)) (s.totalSum + s.partialSums ⟨j, hlt⟩) := by
            refine ⟨hlt, ?_⟩
            rw [htotal, hs.partialSum_eq hothers (by rw [hi]; rfl) ⟨j, hlt⟩, sum_lt_succ]
          exact hs.of_goto hi (by simp) hsum (hphase.adding_update hi rfl rfl hnext rfl rfl)
      · next hge =>
          cases h
          have hnext : TotalOk files .signalling s.totalSum := by
            rw [TotalOk, htotal, sum_lt_eq _ (not_lt.mp hge)]
          exact hs.of_goto hi (by simp) hsum (hphase.adding_update hi rfl rfl hnext rfl rfl)
  · next hi =>
      cases h
      rw [hi] at hsum
      obtain ⟨htotal, hothers, hbefore⟩ := hphase.of_adding hi rfl rfl
      refine hs.of_worker .sleeping (by simp [hi]) hsum rfl
        (Function.update_eq_self _ _).symm ?_ ?_ (.signalled ?_ htotal)
      · intro k hk
        revert hk
        cases s.main <;> simp [Main.signal]
      · have hprinted := hs.printed
        revert hprinted hbefore
        cases s.main <;> simp [Main.signal, PrintedOk, Main.beforeWakeup, State.goto]
      · exact (Function.forall_update_iff _ fun _ (w : Worker) => w.pastSignal = true).mpr
          ⟨rfl, hothers⟩
  · next hi =>
      cases h
      rw [hi] at hsum
      exact hs.of_goto hi (by simp) hsum (hphase.past_update hi rfl rfl rfl rfl rfl)
  all_goals cases h

theorem Inv.of_passBarrier (hs : Inv files s) (h : passBarrier s i = some t) : Inv files t := by
  unfold passBarrier at h
  split at h
  · next hall =>
      cases h
      obtain ⟨-, hbefore⟩ := hs.phase.of_beforeBarrier (hall i) rfl
      refine ⟨?_, ?_, .adding i ?_ ?_ hbefore, hs.printed⟩
      · intro k hk j hj
        have hnot := hs.notCreated k hk j hj
        rw [hall] at hnot
        cases hnot
      · intro j
        have hsum := hs.partialSums j
        rw [hall] at hsum
        simp only
        split <;> exact hsum
      · simp [TotalOk]
      · intro j hji
        simp [hji, Worker.pastSignal]
  · cases h

theorem Inv.of_next (hs : Inv files s) {action : Action n} (h : next files s action = some t) :
    Inv files t := by
  cases action with
  | main => exact hs.of_mainStep h
  | worker i => exact hs.of_workerStep h
  | passBarrier serial => exact hs.of_passBarrier h

/-! ## The total -/

theorem sumOf_eq (file : Bytes) : sumOf file = ((file.map UInt8.toNat).sum : ℕ) := by
  induction file with
  | nil => rfl
  | cons c file ih =>
      rw [sumOf, List.map_cons, List.sum_cons, List.map_cons, List.sum_cons, Nat.cast_add, ← ih]
      rfl

theorem sum_sumOf (files : Fin n → Bytes) : ∑ i, sumOf (files i) = (bytesSum files : ℕ) := by
  simp only [sumOf_eq, bytesSum]
  exact (Nat.cast_sum Finset.univ _).symm

def Main.prints : Main → Bool
  | .printing _ | .printingTotal => true
  | _ => false

/-- The main thread prints the sum of the bytes of all files, and has printed the sums of the
threads and that one at its end. -/
structure Right (files : Fin n → Bytes) (s : State n) : Prop where
  total : s.main.prints → s.totalSum = (bytesSum files : ℕ)
  exact_total : s.main.prints → bytesSum files < 2 ^ 63 → s.totalSum.toInt = bytesSum files
  printed : s.main = .exited →
    s.printed = (List.ofFn fun i => sumOf (files i)) ++ [((bytesSum files : ℕ) : Long)]

theorem Inv.right (hs : Inv files s) : Right files s := by
  have htotal : s.main.prints → s.totalSum = (bytesSum files : ℕ) := by
    intro hprints
    have hwoken : s.main.beforeWakeup = false := by
      revert hprints
      cases s.main <;> simp [Main.prints, Main.beforeWakeup]
    obtain ⟨-, htotal⟩ := hs.phase.of_woken hwoken
    rw [htotal, sum_sumOf]
  refine ⟨htotal, ?_, ?_⟩
  · intro hprints hlt
    rw [htotal hprints, toInt_natCast hlt]
  · intro hmain
    have hprinted := hs.printed
    rw [hmain] at hprinted
    rw [hprinted, sum_sumOf]

/-! ## The signal -/

/-- The main thread waits for a signal that no thread is going to send. -/
def Lost (s : State n) : Prop :=
  s.main = .waiting ∧ ∀ i, (s.workers i).pastSignal

/-- The signal is sent while the main thread waits for it. -/
def Awaited (s : State n) : Action n → Prop
  | .worker i => s.workers i = .signalling → s.main = .waiting
  | _ => True

/-- The signal has been sent only if it has woken the main thread. -/
def Heard (s : State n) : Prop :=
  (∀ i, (s.workers i).pastSignal) → s.main.beforeWakeup = false

theorem Heard.of_mainStep (hs : Heard s) (h : mainStep s = some t) : Heard t := by
  intro hpast
  unfold mainStep at h
  split at h
  · next k hmain =>
      split at h
      · next hk =>
          cases h
          have hstarted := hpast ⟨k, hk⟩
          simp [State.goto, Worker.pastSignal] at hstarted
      · cases h
        have hwoken := hs hpast
        rw [hmain] at hwoken
        cases hwoken
  · split at h <;> (cases h; rfl)
  · cases h
    rfl
  · split at h
    · split at h
      · cases h
        rfl
      · cases h
    · cases h
      rfl
  · cases h
  · cases h

/-- A thread gets past its signalling code only through it. -/
theorem of_workerStep_pastSignal (h : workerStep files s i = some t)
    (hpast : (t.workers i).pastSignal) : s.workers i = .signalling ∨ s.workers i = .sleeping := by
  unfold workerStep at h
  split at h
  · cases h
    simp [State.goto, Worker.pastSignal] at hpast
  · cases h
    simp [State.goto, Worker.pastSignal] at hpast
  · cases h
    simp [State.goto, Worker.pastSignal] at hpast
  · cases h
    simp [State.goto, Worker.pastSignal] at hpast
  · split at h <;> cases h <;>
      simp [State.goto, Worker.pastSignal] at hpast
  · next hi => exact .inl hi
  · next hi => exact .inr hi
  all_goals cases h

theorem Heard.of_workerStep (hs : Heard s) (hawaited : Awaited s (.worker i))
    (h : workerStep files s i = some t) : Heard t := by
  intro hpast
  rcases of_workerStep_pastSignal h (hpast i) with hi | hi
  · have hmain : s.main = .waiting := hawaited hi
    rw [workerStep, hi] at h
    cases h
    simp only [hmain]
    rfl
  · rw [workerStep, hi] at h
    cases h
    apply hs
    intro j
    by_cases hji : j = i
    · rw [hji, hi]
      rfl
    · simpa [State.goto, hji] using hpast j

theorem Heard.of_next (hs : Heard s) {action : Action n} (hawaited : Awaited s action)
    (h : next files s action = some t) : Heard t := by
  cases action with
  | main => exact hs.of_mainStep h
  | worker i => exact hs.of_workerStep hawaited h
  | passBarrier serial =>
      intro hpast
      have hserial := hpast serial
      simp only [next, passBarrier] at h
      split at h
      · cases h
        simp [Worker.pastSignal] at hserial
      · cases h

/-- After a signal that has not been awaited, the main thread is going to wait for ever. -/
theorem Inv.lost_of_not_awaited (hs : Inv files s) {action : Action n}
    (hawaited : ¬ Awaited s action) (h : next files s action = some t) :
    ∃ u, Reaches (Acts (next files)) t u ∧ Lost u := by
  cases action with
  | main => exact absurd trivial hawaited
  | passBarrier serial => exact absurd trivial hawaited
  | worker i =>
      simp only [Awaited, Classical.not_imp] at hawaited
      obtain ⟨hi, hmain⟩ := hawaited
      obtain ⟨-, hothers, hbefore⟩ := hs.phase.of_adding hi rfl rfl
      -- all threads have been created
      obtain ⟨k, hk, hkn⟩ : ∃ k, s.main = .creating k ∧ ¬ k < n := by
        cases hm : s.main with
        | creating k =>
            refine ⟨k, rfl, fun hlt => ?_⟩
            have hnot := hs.notCreated k hm ⟨k, hlt⟩ le_rfl
            have hne : (⟨k, hlt⟩ : Fin n) ≠ i := by
              rintro rfl
              rw [hnot] at hi
              cases hi
            have hpast := hothers _ hne
            rw [hnot] at hpast
            cases hpast
        | waiting => exact absurd hm hmain
        | _ =>
            rw [hm] at hbefore
            cases hbefore
      rw [next, workerStep, hi] at h
      cases h
      refine ⟨{ s.goto i .sleeping with main := .waiting }, .single ⟨.main, ?_⟩, rfl, ?_⟩
      · simp [next, mainStep, hk, Main.signal, hkn]
      · exact (Function.forall_update_iff _ fun _ (w : Worker) => w.pastSignal = true).mpr
          ⟨rfl, hothers⟩

/-- The main thread prints the right numbers in every run, and it does not wait for ever in the
runs in which the signal finds it waiting. Otherwise it can. -/
theorem summation_correct (hn : 0 < n) (files : Fin n → Bytes) (partialSums : Fin n → Long)
    (totalSum : Long) :
    Always (ActsWithin Awaited (next files)) (fun s => ¬ Lost s) (start partialSums totalSum) ∧
      Always (Acts (next files)) (Right files) (start partialSums totalSum) ∧
      Always (Acts (next files)) (fun s => ∀ action t, ¬ Awaited s action →
        next files s action = some t → ∃ u, Reaches (Acts (next files)) t u ∧ Lost u)
        (start partialSums totalSum) := by
  have hstep : ∀ s t, Inv files s → Acts (next files) s t → Inv files t :=
    fun s t hs ⟨_, h⟩ => hs.of_next h
  refine ⟨?_, ?_, ?_⟩
  · refine Always.of_actions (I := Heard) ?_ (fun s t action hs hawaited h => hs.of_next hawaited h) ?_
    · intro hpast
      have hfirst := hpast ⟨0, hn⟩
      simp [start, Worker.pastSignal] at hfirst
    · intro s hs ⟨hmain, hpast⟩
      have hwoken := hs hpast
      rw [hmain] at hwoken
      cases hwoken
  · exact Always.of_invariant (inv_start _ _) hstep fun _ => Inv.right
  · exact Always.of_invariant (inv_start _ _) hstep fun s hs action t => hs.lost_of_not_awaited

theorem summation_correct_two :
    Always (ActsWithin Awaited (next ![[65], [66, 67]])) (fun s => ¬ Lost s)
      (start (fun _ => 0) 0) :=
  (summation_correct (by decide) ![[65], [66, 67]] (fun _ => 0) 0).1

/-- The only thread signals before the main thread waits. -/
def earlySignal : List (Action 1) :=
  [.main, .worker 0, .worker 0, .worker 0, .passBarrier 0, .worker 0, .worker 0, .worker 0,
    .worker 0, .main]

theorem lost_signal : ¬ Always (Acts (next ![[65]])) (fun s => ¬ Lost s) (start (fun _ => 0) 0) := by
  intro h
  obtain ⟨s, hrun, hlost⟩ : ∃ s : State 1,
      runActions (next ![[65]]) (start (fun _ => 0) 0) earlySignal = some s ∧ Lost s := by
    refine ⟨_, rfl, rfl, ?_⟩
    decide
  exact h s (reaches_of_runActions hrun) hlost

end SysProg.Summation
