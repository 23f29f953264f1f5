import SysProg.Model.DaemonLockFile

/-! # One daemon at a time

A lock file excludes other daemons as long as nobody but its daemon removes it, and no other
daemon follows before the end of the one that has removed it. -/

namespace SysProg.DaemonLockFile

variable {ι : Type}

/-- No two live daemons have created the lock file. -/
def AtMostOne (s : State ι) : Prop :=
  ∀ i j, (s.phase i).isDaemon → (s.phase j).isDaemon → i = j

/-- The daemon has a lock file that it has not removed yet. -/
def Phase.holdsFile : Phase ι → Bool
  | .writing | .running | .handling => true
  | _ => false

/-- `get_daemon_pid` does not remove the lock file of a live daemon, and no daemon creates it
while another one is on its way out. -/
def Harmless (s : State ι) : Action ι → Prop
  | .systemCall i =>
      (∀ again, s.phase i = .removing again → ∀ j, s.lockFile = some j → ¬ (s.phase j).isDaemon) ∧
        (s.phase i = .creating → s.lockFile = none →
          ∀ j, s.phase j ≠ .exiting ∧ s.phase j ≠ .leaving)
  | _ => True

structure Inv (s : State ι) : Prop where
  atMostOne : AtMostOne s
  lockFile : ∀ i, (s.phase i).holdsFile → s.lockFile = some i

theorem inv_start : Inv (start : State ι) where
  atMostOne _ _ h := by cases h
  lockFile _ h := by cases h

theorem isDaemon_of_holdsFile {phase : Phase ι} (h : phase.holdsFile) : phase.isDaemon := by
  cases phase <;> first | rfl | cases h

theorem not_isDaemon_afterPid (command : Command) (again : Bool) (pid : DaemonPid ι) :
    (afterPid command again pid).isDaemon = false := by
  cases command <;> cases again <;> cases pid <;> rfl

/-- A lock file is removed that no live daemon holds. -/
theorem Inv.unlink_other {s : State ι} (hs : Inv s) (hnone : ∀ j, s.lockFile = some j → ¬ (s.phase j).isDaemon) :
    Inv { s with lockFile := none } where
  atMostOne := hs.atMostOne
  lockFile j hj := absurd (isDaemon_of_holdsFile hj) (hnone j (hs.lockFile j hj))

/-- Without a lock file, only daemons on their way out are left. -/
theorem Inv.of_lockFile_none {s : State ι} (hs : Inv s) (hnone : s.lockFile = none) {j : ι}
    (hj : (s.phase j).isDaemon) : s.phase j = .exiting ∨ s.phase j = .leaving := by
  have hholds : ¬ (s.phase j).holdsFile := by
    intro h
    rw [hs.lockFile j h] at hnone
    cases hnone
  cases hphase : s.phase j with
  | exiting => exact .inl rfl
  | leaving => exact .inr rfl
  | _ =>
      rw [hphase] at hj hholds
      first | exact absurd rfl hholds | cases hj

section Invariant

variable [DecidableEq ι] {command : ι → Command} {s t : State ι} {i : ι} {phase : Phase ι}

@[simp] theorem phase_goto_self : (s.goto i phase).phase i = phase :=
  Function.update_self ..

theorem phase_goto_of_ne {j : ι} (hji : j ≠ i) : (s.goto i phase).phase j = s.phase j :=
  Function.update_of_ne hji ..

theorem isDaemon_of_goto (hdaemon : phase.isDaemon → (s.phase i).isDaemon) {j : ι}
    (hj : ((s.goto i phase).phase j).isDaemon) : (s.phase j).isDaemon := by
  by_cases hji : j = i
  · subst hji
    exact hdaemon (by simpa using hj)
  · rwa [phase_goto_of_ne hji] at hj

/-- A process goes on, and the lock file stays. -/
theorem Inv.goto (hs : Inv s) (hdaemon : phase.isDaemon → (s.phase i).isDaemon)
    (hholds : phase.holdsFile → (s.phase i).holdsFile) : Inv (s.goto i phase) := by
  constructor
  · intro j k hj hk
    exact hs.atMostOne j k (isDaemon_of_goto hdaemon hj) (isDaemon_of_goto hdaemon hk)
  · intro j hj
    by_cases hji : j = i
    · subst hji
      exact hs.lockFile j (hholds (by simpa using hj))
    · rw [phase_goto_of_ne hji] at hj
      exact hs.lockFile j hj

theorem Inv.goto_other (hs : Inv s) (hdaemon : phase.isDaemon = false) : Inv (s.goto i phase) := by
  refine hs.goto ?_ ?_
  · intro h
    rw [hdaemon] at h
    cases h
  · intro h
    rw [isDaemon_of_holdsFile h] at hdaemon
    cases hdaemon

/-- A daemon removes the lock file in its exit handler. -/
theorem Inv.unlink (hs : Inv s) (hi : (s.phase i).isDaemon) (hholds : phase.holdsFile = false) :
    Inv ({ s with lockFile := none }.goto i phase) := by
  constructor
  · intro j k hj hk
    exact hs.atMostOne j k (isDaemon_of_goto (fun _ => hi) hj) (isDaemon_of_goto (fun _ => hi) hk)
  · intro j hj
    by_cases hji : j = i
    · subst hji
      rw [phase_goto_self, hholds] at hj
      cases hj
    · rw [phase_goto_of_ne hji] at hj
      exact absurd (hs.atMostOne j i (isDaemon_of_holdsFile hj) hi) hji

/-- A daemon creates the lock file when there is none and no daemon is left. -/
theorem inv_create (hnone : ∀ j, ¬ (s.phase j).isDaemon) :
    Inv ({ s with lockFile := some i }.goto i .writing) := by
  have honly : ∀ j, ((State.goto { s with lockFile := some i } i .writing).phase j).isDaemon →
      j = i := by
    intro j hj
    by_contra hji
    rw [phase_goto_of_ne hji] at hj
    exact hnone j hj
  constructor
  · intro j k hj hk
    rw [honly j hj, honly k hk]
  · intro j hj
    rw [honly j (isDaemon_of_holdsFile hj)]
    rfl

theorem Inv.systemCall (hs : Inv s) (hharmless : Harmless s (.systemCall i))
    (h : systemCall command s i = some t) : Inv t := by
  obtain ⟨hremoving, hcreating⟩ := hharmless
  unfold DaemonLockFile.systemCall at h
  cases hphase : s.phase i with
  | opening again =>
      rw [hphase] at h
      cases hfile : s.lockFile with
      | none =>
          rw [hfile] at h
          obtain rfl := Option.some.inj h
          exact hs.goto_other (not_isDaemon_afterPid ..)
      | some file =>
          rw [hfile] at h
          obtain rfl := Option.some.inj h
          exact hs.goto_other rfl
  | reading file again =>
      rw [hphase] at h
      obtain rfl := Option.some.inj h
      exact hs.goto_other rfl
  | probing pid again =>
      rw [hphase] at h
      cases pid with
      | none =>
          obtain rfl := Option.some.inj h
          exact hs.goto_other (not_isDaemon_afterPid ..)
      | some daemon =>
          dsimp only at h
          split at h
          · obtain rfl := Option.some.inj h
            exact hs.goto_other (not_isDaemon_afterPid ..)
          · obtain rfl := Option.some.inj h
            exact hs.goto_other rfl
  | removing again =>
      rw [hphase] at h
      obtain rfl := Option.some.inj h
      exact (hs.unlink_other (hremoving again hphase)).goto_other (not_isDaemon_afterPid ..)
  | creating =>
      rw [hphase] at h
      cases hfile : s.lockFile with
      | none =>
          rw [hfile] at h
          obtain rfl := Option.some.inj h
          refine inv_create ?_
          intro j hj
          obtain ⟨hexiting, hleaving⟩ := hcreating hphase hfile j
          cases hs.of_lockFile_none hfile hj with
          | inl hj => exact hexiting hj
          | inr hj => exact hleaving hj
      | some file =>
          rw [hfile] at h
          obtain rfl := Option.some.inj h
          exact hs.goto_other rfl
  | writing =>
      rw [hphase] at h
      obtain rfl := Option.some.inj h
      have hwritten : Inv { s with written := Function.update s.written i true } :=
        ⟨hs.atMostOne, hs.lockFile⟩
      exact hwritten.goto (fun _ => by rw [hphase]; rfl) (fun _ => by rw [hphase]; rfl)
  | running =>
      rw [hphase] at h
      cases h
  | handling =>
      rw [hphase] at h
      obtain rfl := Option.some.inj h
      exact hs.unlink (by rw [hphase]; rfl) rfl
  | exiting =>
      rw [hphase] at h
      obtain rfl := Option.some.inj h
      exact hs.unlink (by rw [hphase]; rfl) rfl
  | leaving =>
      rw [hphase] at h
      obtain rfl := Option.some.inj h
      exact hs.goto_other rfl
  | terminated =>
      rw [hphase] at h
      cases h

theorem Inv.next {action : Action ι} (hs : Inv s) (hharmless : Harmless s action)
    (h : next command s action = some t) : Inv t := by
  cases action with
  | systemCall i => exact hs.systemCall hharmless h
  | signal i =>
      obtain ⟨hphase, h⟩ := Option.ite_none_right_eq_some.mp h
      obtain rfl := Option.some.inj h
      exact hs.goto (fun _ => by rw [hphase]; rfl) (fun _ => by rw [hphase]; rfl)
  | exit i =>
      obtain ⟨hphase, h⟩ := Option.ite_none_right_eq_some.mp h
      obtain rfl := Option.some.inj h
      refine hs.goto (fun _ => ?_) (fun h => by cases h)
      cases hphase with
      | inl hphase => rw [hphase]; rfl
      | inr hphase => rw [hphase]; rfl
  | kill i =>
      obtain rfl := Option.some.inj h
      exact hs.goto_other rfl

/-- The creation of a lock file beside a live daemon. -/
theorem Step.create (hphase : s.phase i = .creating) (hfile : s.lockFile = none) {j : ι}
    (hj : (s.phase j).isDaemon) : ∃ t, Step command s t ∧ ¬ AtMostOne t := by
  have hji : j ≠ i := by
    rintro rfl
    rw [hphase] at hj
    cases hj
  have hstep : systemCall command s i =
      some ({ s with lockFile := some i }.goto i .writing) := by
    simp [DaemonLockFile.systemCall, hphase, hfile]
  refine ⟨_, ⟨.systemCall i, hstep⟩, ?_⟩
  intro h
  refine hji (h j i ?_ (by simp [Phase.isDaemon]))
  rwa [phase_goto_of_ne hji]

/-- An invocation with `start` that makes a harmful call can go on to a second daemon. -/
theorem reaches_of_harmful (hstart : command i = .start)
    (hharmful : ¬ Harmless s (.systemCall i)) :
    ∃ t, Reaches (Step command) s t ∧ ¬ AtMostOne t := by
  rw [Harmless, Classical.not_and_iff_not_or_not] at hharmful
  cases hharmful with
  | inl hremoving =>
      simp only [not_forall, not_not] at hremoving
      obtain ⟨again, hphase, j, hfile, hj⟩ := hremoving
      have hji : j ≠ i := by
        rintro rfl
        rw [hphase] at hj
        cases hj
      have hstep : systemCall command s i =
          some ({ s with lockFile := none }.goto i .creating) := by
        simp [DaemonLockFile.systemCall, hphase, hstart, afterPid]
      obtain ⟨t, ht, htwo⟩ : ∃ t, Step command _ t ∧ ¬ AtMostOne t := Step.create
        (phase_goto_self (s := { s with lockFile := none })) rfl
        (show _ from by rwa [phase_goto_of_ne hji])
      exact ⟨t, .tail (.single ⟨.systemCall i, hstep⟩) ht, htwo⟩
  | inr hcreating =>
      simp only [not_forall, Classical.not_and_iff_not_or_not, not_not] at hcreating
      obtain ⟨hphase, hfile, j, hj⟩ := hcreating
      have hdaemon : (s.phase j).isDaemon := by
        cases hj with
        | inl hj => rw [hj]; rfl
        | inr hj => rw [hj]; rfl
      obtain ⟨t, ht, htwo⟩ : ∃ t, Step command s t ∧ ¬ AtMostOne t :=
        Step.create hphase hfile hdaemon
      exact ⟨t, .single ht, htwo⟩

end Invariant

/-- If every step of a run is harmless, there is at most one daemon at any time. -/
theorem atMostOne_of_harmless [DecidableEq ι] (command : ι → Command) :
    Always (ActsWithin Harmless (next command)) AtMostOne (start : State ι) :=
  Always.of_actions inv_start (fun _ _ _ hs hharmless h => hs.next hharmless h)
    fun _ hs => hs.atMostOne

/-! ## Two daemons -/

/-- Two invocations find the lock file of a killed daemon. Each of them removes it, the second one
after the first has created it again. -/
def staleRace : List (Action (Fin 3)) :=
  [.systemCall 0, .systemCall 0, .systemCall 0, .kill 0,
    .systemCall 1, .systemCall 1, .systemCall 1,
    .systemCall 2, .systemCall 2, .systemCall 2,
    .systemCall 1, .systemCall 1, .systemCall 2, .systemCall 2]

/-- Another daemon starts when the first one has removed the lock file, but has not ended. -/
def restart : List (Action (Fin 2)) :=
  [.systemCall 0, .systemCall 0, .systemCall 0, .signal 0, .systemCall 0,
    .systemCall 1, .systemCall 1]

theorem two_daemons :
    (∃ t, Reaches (Step fun _ : Fin 3 => .start) start t ∧ ¬ AtMostOne t) ∧
      ∃ t, Reaches (Step fun _ : Fin 2 => .start) start t ∧ ¬ AtMostOne t := by
  constructor
  · refine ⟨_, reaches_of_runActions (show runActions _ start staleRace = some _ from rfl), ?_⟩
    intro h
    exact absurd (h 1 2 rfl rfl) (by decide)
  · refine ⟨_, reaches_of_runActions (show runActions _ start restart = some _ from rfl), ?_⟩
    intro h
    exact absurd (h 0 1 rfl rfl) (by decide)

end SysProg.DaemonLockFile
