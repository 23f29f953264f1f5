import SysProg.Model.GroupSignal

/-! # No wakeup is lost

The parent and the daemon test a variable and wait afterwards. A signal that arrives between the
two steps does not wake them up. -/

namespace SysProg.GroupSignal

/-- No signal is pending or will be sent. -/
def Quiet (s : State) : Prop :=
  ∀ t, Reaches Step s t → ∀ sig, t.parentPending sig = false ∧ t.daemonPending sig = false

/-- The parent or the daemon waits for ever for a signal that it has got. -/
def Stuck (s : State) : Prop :=
  Quiet s ∧ (s.parent = .pause ∧ 0 ≤ s.status ∨ s.daemon = .pause ∧ s.daemonized = true)

/-- The daemon has not yet sent its last signal. -/
def Daemon.signals : Daemon → Bool
  | .exited | .killed => false
  | _ => true

/-- The signal of the group is not delivered to the daemon between its test and its `pause`, and
the last signal to the parent is not delivered right before a `pause` of the parent. -/
def Timely (s : State) : Action → Prop
  | .deliverDaemon _ => s.daemon ≠ .beforePause
  | .deliverParent sig => s.parent = .beforePause →
      (∃ sig', sig' ≠ sig ∧ s.parentPending sig' = true) ∨ s.daemon.signals = true
  | _ => True

/-! ## The invariant -/

/-- The parent has not signalled the group. -/
def Parent.starts : Parent → Bool
  | .sigactionUsr1 | .fork | .wait | .sigactionUsr2 | .sigactionChld | .kill => true
  | _ => false

/-- The parent has not seen the end of the child. -/
def Parent.awaits : Parent → Bool
  | .sigactionUsr1 | .fork | .wait => true
  | _ => false

/-- The daemon has left the loop in which it waits. -/
def Daemon.leaves : Daemon → Bool
  | .signalSuccess | .sigaction | .sleep | .exitHandler | .exited => true
  | _ => false

/-- The daemon has signalled its success. -/
def Daemon.signalled : Daemon → Bool
  | .sigaction | .sleep | .exitHandler | .exited => true
  | _ => false

structure Inv (s : State) : Prop where
  pause : s.daemon = .beforePause ∨ s.daemon = .pause → s.daemonized = false
  alive : s.daemon ≠ .killed
  child : s.child ≠ .exited → s.parent.awaits = true
  forks : s.parent = .sigactionUsr1 ∨ s.parent = .fork → s.child = .notForked
  forked : s.child = .notForked ∨ s.child = .fork → s.daemon = .notForked
  starts : s.parent.starts = true →
    s.daemonized = false ∧ s.daemonPending .usr1 = false ∧ s.parentPending .usr1 = false
  once : s.daemonized = true → s.daemonPending .usr1 = false
  only : s.daemonPending .usr2 = false ∧ s.daemonPending .chld = false
  leaves : s.daemon.leaves = true → s.daemonized = true
  signalled : s.parentPending .usr2 = true ∨ s.parentPending .chld = true ∨ 0 ≤ s.status →
    s.daemon.signalled = true
  wakes : s.parent = .beforePause ∨ s.parent = .pause → 0 ≤ s.status →
    (∃ sig, s.parentPending sig = true) ∨ s.daemon.signals = true

theorem inv_start : Inv start := by
  constructor <;> simp [start, Parent.awaits, Daemon.leaves]

theorem leaves_of_signalled {daemon : Daemon} (h : daemon.signalled = true) :
    daemon.leaves = true := by
  cases daemon <;> first | rfl | cases h

/-- Before the parent has signalled the group, it has not been signalled. -/
theorem Inv.not_signalled {s : State} (hs : Inv s) (hstarts : s.parent.starts = true) :
    ¬ (s.parentPending .usr2 = true ∨ s.parentPending .chld = true ∨ 0 ≤ s.status) := by
  intro h
  have hdaemonized := hs.leaves (leaves_of_signalled (hs.signalled h))
  rw [(hs.starts hstarts).1] at hdaemonized
  cases hdaemonized

/-! ## Sending a signal -/

section Signals

variable (s : State) (sig : Signal)

@[simp] theorem signalParent_parent : (s.signalParent sig).parent = s.parent := by
  unfold State.signalParent; split <;> rfl

@[simp] theorem signalParent_child : (s.signalParent sig).child = s.child := by
  unfold State.signalParent; split <;> rfl

@[simp] theorem signalParent_daemon : (s.signalParent sig).daemon = s.daemon := by
  unfold State.signalParent; split <;> rfl

@[simp] theorem signalParent_status : (s.signalParent sig).status = s.status := by
  unfold State.signalParent; split <;> rfl

@[simp] theorem signalParent_daemonized : (s.signalParent sig).daemonized = s.daemonized := by
  unfold State.signalParent; split <;> rfl

@[simp] theorem signalParent_daemonPending :
    (s.signalParent sig).daemonPending = s.daemonPending := by
  unfold State.signalParent; split <;> rfl

theorem signalParent_pending_of_ne {sig sig' : Signal} (hne : sig' ≠ sig) :
    (s.signalParent sig).parentPending sig' = s.parentPending sig' := by
  unfold State.signalParent
  split
  · exact Function.update_of_ne hne ..
  · rfl

theorem signalParent_pending_self {s : State} {sig : Signal} (halive : s.parent.alive = true)
    (hdisposition : s.parent.disposition sig ≠ .ignore) :
    (s.signalParent sig).parentPending sig = true := by
  rw [State.signalParent, if_pos ⟨halive, hdisposition⟩]
  exact Function.update_self ..

@[simp] theorem signalDaemon_child : (s.signalDaemon sig).child = s.child := by
  unfold State.signalDaemon; split <;> rfl

@[simp] theorem signalDaemon_daemon : (s.signalDaemon sig).daemon = s.daemon := by
  unfold State.signalDaemon; split <;> rfl

@[simp] theorem signalDaemon_status : (s.signalDaemon sig).status = s.status := by
  unfold State.signalDaemon; split <;> rfl

@[simp] theorem signalDaemon_daemonized : (s.signalDaemon sig).daemonized = s.daemonized := by
  unfold State.signalDaemon; split <;> rfl

@[simp] theorem signalDaemon_parentPending :
    (s.signalDaemon sig).parentPending = s.parentPending := by
  unfold State.signalDaemon; split <;> rfl

theorem signalDaemon_pending_of_ne {sig sig' : Signal} (hne : sig' ≠ sig) :
    (s.signalDaemon sig).daemonPending sig' = s.daemonPending sig' := by
  unfold State.signalDaemon
  split
  · exact Function.update_of_ne hne ..
  · rfl

theorem signalParent_chld {s : State} (h : s.parent.awaits = true) : s.signalParent .chld = s := by
  have hignore : s.parent.disposition .chld = .ignore := by
    cases hparent : s.parent <;> first | rfl | (rw [hparent] at h; cases h)
  rw [State.signalParent, if_neg (by simp [hignore])]

end Signals

/-! ## The steps -/

theorem Inv.childStep {s t : State} (hs : Inv s) (h : childStep s = some t) : Inv t := by
  unfold GroupSignal.childStep at h
  split at h
  · next hchild =>
      obtain rfl := Option.some.inj h
      have hdaemon := hs.forked (.inr hchild)
      have hawaits := hs.child (by simp [hchild])
      have hstarts : s.parent.starts = true := by
        cases hparent : s.parent <;> first | rfl | (rw [hparent] at hawaits; cases hawaits)
      exact { hs with
        pause := by simp
        alive := by simp
        child := fun _ => hawaits
        forks := fun h => by cases hs.forks h ▸ hchild
        forked := by simp
        leaves := by simp [Daemon.leaves]
        signalled := fun h => absurd h (hs.not_signalled hstarts)
        wakes := fun _ _ => .inr rfl }
  · next hchild =>
      obtain rfl := Option.some.inj h
      have hawaits := hs.child (by simp [hchild])
      rw [signalParent_chld hawaits]
      exact { hs with
        child := fun _ => hawaits
        forks := fun h => by cases hs.forks h ▸ hchild
        forked := by simp }
  · cases h
  · cases h

theorem Inv.child_exited {s : State} (hs : Inv s) (hawaits : s.parent.awaits = false) :
    s.child = .exited := by
  by_contra hchild
  rw [hs.child hchild] at hawaits
  cases hawaits

/-- The parent goes on. -/
theorem Inv.goto_parent {s : State} (hs : Inv s) {parent : Parent}
    (hchild : s.child ≠ .exited → parent.awaits = true)
    (hforks : parent = .sigactionUsr1 ∨ parent = .fork → s.child = .notForked)
    (hstarts : parent.starts = true → s.parent.starts = true)
    (hwakes : parent = .beforePause ∨ parent = .pause → 0 ≤ s.status →
      (∃ sig, s.parentPending sig = true) ∨ s.daemon.signals = true) :
    Inv { s with parent } :=
  { hs with
    child := hchild
    forks := hforks
    starts := fun h => hs.starts (hstarts h)
    wakes := hwakes }

theorem Inv.parentStep {s t : State} (hs : Inv s) (h : parentStep s = some t) : Inv t := by
  have hexited : s.parent.awaits = false → ∀ {parent : Parent}, s.child ≠ .exited →
      parent.awaits = true :=
    fun hawaits _ hne => absurd (hs.child_exited hawaits) hne
  unfold GroupSignal.parentStep at h
  split at h
  · next hparent =>
      obtain rfl := Option.some.inj h
      exact hs.goto_parent (fun _ => rfl) (fun _ => hs.forks (.inl hparent))
        (by simp [hparent, Parent.starts]) (by simp)
  · next hparent =>
      obtain rfl := Option.some.inj h
      exact { hs with
        child := fun _ => rfl
        forks := by simp
        forked := fun _ => hs.forked (.inl (hs.forks (.inr hparent)))
        starts := fun _ => hs.starts (by rw [hparent]; rfl)
        wakes := by simp }
  · next hparent =>
      obtain ⟨hchild, h⟩ := Option.ite_none_right_eq_some.mp h
      obtain rfl := Option.some.inj h
      exact hs.goto_parent (fun hne => absurd hchild hne) (by simp)
        (by simp [hparent, Parent.starts]) (by simp)
  · next hparent =>
      obtain rfl := Option.some.inj h
      exact hs.goto_parent (hexited (by rw [hparent]; rfl)) (by simp)
        (by simp [hparent, Parent.starts]) (by simp)
  · next hparent =>
      obtain rfl := Option.some.inj h
      exact hs.goto_parent (hexited (by rw [hparent]; rfl)) (by simp)
        (by simp [hparent, Parent.starts]) (by simp)
  · next hparent =>
      obtain rfl := Option.some.inj h
      have hstarts : s.parent.starts = true := by rw [hparent]; rfl
      have hchild := hs.child_exited (by rw [hparent]; rfl)
      obtain ⟨hdaemonized, -, -⟩ := hs.starts hstarts
      constructor
      · simp [hdaemonized]
      · simpa using hs.alive
      · simp [hchild]
      · simp
      · simp [hchild]
      · simp [Parent.starts]
      · simp [hdaemonized]
      · simpa [signalDaemon_pending_of_ne] using hs.only
      · simpa using hs.leaves
      · simpa [signalParent_pending_of_ne] using hs.signalled
      · intro _ hstatus
        exact absurd (.inr (.inr (by simpa using hstatus))) (hs.not_signalled hstarts)
  · next hparent =>
      obtain rfl := Option.some.inj h
      exact hs.goto_parent (hexited (by rw [hparent]; rfl)) (by simp) (by simp [Parent.starts])
        (fun _ => hs.wakes (.inl hparent))
  · next hparent =>
      split at h
      · next hstatus =>
          obtain rfl := Option.some.inj h
          exact { hs with
            child := hexited (by rw [hparent]; rfl)
            forks := by simp
            starts := by simp [Parent.starts]
            signalled := fun _ => hs.signalled (.inr (.inr hstatus))
            wakes := by simp }
      · next hstatus =>
          obtain rfl := Option.some.inj h
          exact hs.goto_parent (hexited (by rw [hparent]; rfl)) (by simp) (by simp [Parent.starts])
            (fun _ h => absurd h hstatus)
  · cases h
  · cases h
  · cases h

/-- The child has ended once the daemon is there. -/
theorem Inv.child_of_daemon {s : State} (hs : Inv s) (hdaemon : s.daemon ≠ .notForked) :
    s.child ≠ .notForked ∧ s.child ≠ .fork :=
  ⟨fun h => hdaemon (hs.forked (.inl h)), fun h => hdaemon (hs.forked (.inr h))⟩

/-- A daemon that still signals goes on. -/
theorem Inv.goto_daemon {s : State} (hs : Inv s) {daemon : Daemon}
    (hbefore : s.daemon ≠ .notForked) (hsignals : daemon.signals = true)
    (hpause : daemon = .beforePause ∨ daemon = .pause → s.daemonized = false)
    (hleaves : daemon.leaves = true → s.daemonized = true)
    (hsignalled : s.daemon.signalled = true → daemon.signalled = true) :
    Inv { s with daemon } :=
  { hs with
    pause := hpause
    alive := fun h => by rw [show daemon = .killed from h] at hsignals; cases hsignals
    forked := fun h => by simp [hs.child_of_daemon hbefore] at h
    leaves := hleaves
    signalled := fun h => hsignalled (hs.signalled h)
    wakes := fun _ _ => .inr hsignals }

theorem Inv.daemonStep {s t : State} (hs : Inv s) (h : daemonStep s = some t) : Inv t := by
  unfold GroupSignal.daemonStep at h
  split at h
  · next hdaemon =>
      split at h
      · next hdaemonized =>
          obtain rfl := Option.some.inj h
          exact hs.goto_daemon (by simp [hdaemon]) rfl (by simp) (fun _ => hdaemonized)
            (by simp [hdaemon, Daemon.signalled])
      · next hdaemonized =>
          obtain rfl := Option.some.inj h
          exact hs.goto_daemon (by simp [hdaemon]) rfl
            (fun _ => Bool.eq_false_iff.mpr hdaemonized) (by simp [Daemon.leaves])
            (by simp [hdaemon, Daemon.signalled])
  · next hdaemon =>
      obtain rfl := Option.some.inj h
      exact hs.goto_daemon (by simp [hdaemon]) rfl (fun _ => hs.pause (.inl hdaemon))
        (by simp [Daemon.leaves]) (by simp [hdaemon, Daemon.signalled])
  · next hdaemon =>
      obtain rfl := Option.some.inj h
      have hchild := hs.child_of_daemon (by simp [hdaemon])
      have hdaemonized := hs.leaves (by rw [hdaemon]; rfl)
      constructor
      · simp
      · simp
      · simpa using hs.child
      · simpa using hs.forks
      · simp [hchild]
      · simpa [signalParent_pending_of_ne] using hs.starts
      · simpa using hs.once
      · simpa using hs.only
      · simp [hdaemonized]
      · exact fun _ => rfl
      · exact fun _ _ => .inr rfl
  · next hdaemon =>
      obtain rfl := Option.some.inj h
      exact hs.goto_daemon (by simp [hdaemon]) rfl (by simp)
        (fun _ => hs.leaves (by rw [hdaemon]; rfl)) (fun _ => rfl)
  · next hdaemon =>
      obtain rfl := Option.some.inj h
      exact hs.goto_daemon (by simp [hdaemon]) rfl (by simp)
        (fun _ => hs.leaves (by rw [hdaemon]; rfl)) (fun _ => rfl)
  · next hdaemon =>
      obtain rfl := Option.some.inj h
      have hchild := hs.child_of_daemon (by simp [hdaemon])
      have hdaemonized := hs.leaves (by rw [hdaemon]; rfl)
      constructor
      · simp
      · simp
      · simpa using hs.child
      · simpa using hs.forks
      · simp [hchild]
      · intro hstarts
        rw [signalParent_parent] at hstarts
        simp [(hs.starts hstarts).1] at hdaemonized
      · simp
      · simp
      · simp [hdaemonized]
      · exact fun _ => rfl
      · intro hparent _
        simp only [signalParent_parent] at hparent
        refine .inl ⟨.chld, signalParent_pending_self ?_ ?_⟩
        · cases hparent with
          | inl hparent => rw [hparent]; rfl
          | inr hparent => rw [hparent]; rfl
        · cases hparent with
          | inl hparent => simp [hparent, Parent.disposition]
          | inr hparent => simp [hparent, Parent.disposition]
  · cases h
  · cases h
  · cases h
  · cases h

/-- The parent handles every signal that it gets. -/
theorem Inv.disposition {s : State} (hs : Inv s) {sig : Signal}
    (hpending : s.parentPending sig = true) :
    s.parent.starts = false ∧ s.parent.disposition sig = .handler := by
  have hstarts : s.parent.starts = false := by
    rw [Bool.eq_false_iff]
    intro hstarts
    have hnot := hs.not_signalled hstarts
    cases sig with
    | usr1 => simp [(hs.starts hstarts).2.2] at hpending
    | usr2 => exact hnot (.inl hpending)
    | chld => exact hnot (.inr (.inl hpending))
  refine ⟨hstarts, ?_⟩
  cases hparent : s.parent <;> cases sig <;>
    first | rfl | (rw [hparent] at hstarts; cases hstarts)

section Handlers

variable {s : State} {sig : Signal}

theorem pending_handleParent {sig' : Signal} (hne : sig' ≠ sig) :
    (handleParent s sig).parentPending sig' = s.parentPending sig' :=
  Function.update_of_ne hne ..

theorem parent_of_handleParent {parent : Parent} (hne : parent ≠ .test)
    (h : (handleParent s sig).parent = parent) : s.parent = parent := by
  unfold handleParent at h
  dsimp only at h
  split at h
  · exact absurd h.symm hne
  · exact h

theorem parent_handleParent_ne_pause (s : State) (sig : Signal) :
    (handleParent s sig).parent ≠ .pause := by
  unfold handleParent
  dsimp only
  split
  · simp
  · assumption

theorem starts_handleParent : (handleParent s sig).parent.starts = s.parent.starts := by
  unfold handleParent
  dsimp only
  split
  · next h => rw [h]; rfl
  · rfl

theorem daemon_of_handleDaemon {daemon : Daemon} (hne : daemon ≠ .test)
    (h : (handleDaemon s sig).daemon = daemon) : s.daemon = daemon := by
  unfold handleDaemon at h
  dsimp only at h
  split at h
  · exact absurd h.symm hne
  · exact h

theorem daemon_handleDaemon_ne_pause (s : State) (sig : Signal) :
    (handleDaemon s sig).daemon ≠ .pause := by
  unfold handleDaemon
  dsimp only
  split
  · simp
  · assumption

end Handlers

theorem Inv.deliverParent {s t : State} {sig : Signal} (hs : Inv s)
    (htimely : Timely s (.deliverParent sig)) (h : deliverParent s sig = some t) : Inv t := by
  unfold GroupSignal.deliverParent at h
  obtain ⟨hpending, h⟩ := Option.ite_none_right_eq_some.mp h
  obtain ⟨hstarts, hdisposition⟩ := hs.disposition hpending
  rw [hdisposition] at h
  obtain rfl := Option.some.inj h
  have hchild : s.child = .exited := by
    apply hs.child_exited
    cases hparent : s.parent <;> first | rfl | (rw [hparent] at hstarts; cases hstarts)
  have hkept : ∀ sig', (handleParent s sig).parentPending sig' = true →
      s.parentPending sig' = true := by
    intro sig' h
    by_cases heq : sig' = sig
    · rwa [heq]
    · rwa [pending_handleParent heq] at h
  exact { hs with
    child := fun hne => absurd hchild hne
    forks := fun h => by
      cases h with
      | inl h => exact hs.forks (.inl (parent_of_handleParent (by simp) h))
      | inr h => exact hs.forks (.inr (parent_of_handleParent (by simp) h))
    starts := fun h => by
      rw [starts_handleParent, hstarts] at h
      cases h
    signalled := fun h => by
      refine hs.signalled ?_
      rcases h with h | h | h
      · exact .inl (hkept _ h)
      · exact .inr (.inl (hkept _ h))
      · cases sig with
        | usr1 => exact .inr (.inr h)
        | usr2 => exact .inl hpending
        | chld => exact .inr (.inl hpending)
    wakes := fun h _ => by
      have hparent : s.parent = .beforePause := by
        cases h with
        | inl h => exact parent_of_handleParent (by simp) h
        | inr h => exact absurd h (parent_handleParent_ne_pause s sig)
      cases htimely hparent with
      | inl hother =>
          obtain ⟨sig', hne, hsig'⟩ := hother
          exact .inl ⟨sig', by rwa [pending_handleParent hne]⟩
      | inr hsignals => exact .inr hsignals }

theorem Inv.deliverDaemon {s t : State} {sig : Signal} (hs : Inv s)
    (htimely : Timely s (.deliverDaemon sig)) (h : deliverDaemon s sig = some t) : Inv t := by
  unfold GroupSignal.deliverDaemon at h
  obtain ⟨hpending, h⟩ := Option.ite_none_right_eq_some.mp h
  have hsig : sig = .usr1 := by
    cases sig with
    | usr1 => rfl
    | usr2 => simp [hs.only.1] at hpending
    | chld => simp [hs.only.2] at hpending
  subst hsig
  have hdaemonized : s.daemonized = false := by
    rw [Bool.eq_false_iff]
    intro hdaemonized
    simp [hs.once hdaemonized] at hpending
  have hleaves : s.daemon.leaves = false := by
    rw [Bool.eq_false_iff]
    intro hleaves
    simp [hs.leaves hleaves] at hdaemonized
  have hdisposition : s.daemon.disposition .usr1 = .handler := by
    cases hdaemon : s.daemon <;> first | rfl | (rw [hdaemon] at hleaves; cases hleaves)
  rw [hdisposition] at h
  obtain rfl := Option.some.inj h
  have hdaemon : s.daemon ≠ .pause → (handleDaemon s .usr1).daemon = s.daemon :=
    fun hne => if_neg hne
  exact { hs with
    pause := fun h => by
      cases h with
      | inl h => exact absurd (daemon_of_handleDaemon (by simp) h) htimely
      | inr h => exact absurd h (daemon_handleDaemon_ne_pause s .usr1)
    alive := fun h => hs.alive (daemon_of_handleDaemon (by simp) h)
    forked := fun h => by
      have hnot := hs.forked h
      rw [hdaemon (by simp [hnot]), hnot]
    starts := fun h => by simp [(hs.starts h).2.1] at hpending
    once := fun _ => by simp [handleDaemon]
    only := by simpa [handleDaemon] using hs.only
    leaves := fun _ => rfl
    signalled := fun h => by
      have hsignalled := hs.signalled h
      rw [leaves_of_signalled hsignalled] at hleaves
      cases hleaves
    wakes := fun h hstatus => by
      have hsignalled := hs.signalled (.inr (.inr hstatus))
      rw [leaves_of_signalled hsignalled] at hleaves
      cases hleaves }

theorem Inv.next {s t : State} {action : Action} (hs : Inv s) (htimely : Timely s action)
    (h : next s action = some t) : Inv t := by
  cases action with
  | parent => exact hs.parentStep h
  | child => exact hs.childStep h
  | daemon => exact hs.daemonStep h
  | deliverParent sig => exact hs.deliverParent htimely h
  | deliverDaemon sig => exact hs.deliverDaemon htimely h

/-! ## What the daemon still sends -/

/-- A daemon that has answered sends another signal before it ends. -/
theorem reaches_pending {s : State} (hparent : s.parent = .pause)
    (hsignalled : s.daemon.signalled = true) (hsignals : s.daemon.signals = true) :
    ∃ t, Reaches Step s t ∧ t.parentPending .chld = true := by
  have hlast : ∀ u : State, u.parent = .pause → u.daemon = .exitHandler →
      ∃ t, Reaches Step u t ∧ t.parentPending .chld = true := by
    intro u hu hdaemon
    refine ⟨_, .single ⟨.daemon, by rw [next, daemonStep, hdaemon]⟩, ?_⟩
    exact signalParent_pending_self (by rw [hu]; rfl) (by simp [hu, Parent.disposition])
  have hsleep : ∀ u : State, u.parent = .pause → u.daemon = .sleep →
      ∃ t, Reaches Step u t ∧ t.parentPending .chld = true := by
    intro u hu hdaemon
    obtain ⟨t, hrun, ht⟩ := hlast { u with daemon := .exitHandler } hu rfl
    exact ⟨t, hrun.head ⟨.daemon, by rw [next, daemonStep, hdaemon]⟩, ht⟩
  cases hdaemon : s.daemon with
  | sigaction =>
      obtain ⟨t, hrun, ht⟩ := hsleep { s with daemon := .sleep } hparent rfl
      exact ⟨t, hrun.head ⟨.daemon, by rw [next, daemonStep, hdaemon]⟩, ht⟩
  | sleep => exact hsleep s hparent hdaemon
  | exitHandler => exact hlast s hparent hdaemon
  | _ =>
      rw [hdaemon] at hsignalled hsignals
      first | exact absurd hsignals (by decide) | exact absurd hsignalled (by decide)

theorem Inv.not_stuck {s : State} (hs : Inv s) : ¬ Stuck s := by
  intro ⟨hquiet, hwaits⟩
  cases hwaits with
  | inl hparent =>
      obtain ⟨hpause, hstatus⟩ := hparent
      cases hs.wakes (.inr hpause) hstatus with
      | inl hpending =>
          obtain ⟨sig, hsig⟩ := hpending
          simp [(hquiet s .refl sig).1] at hsig
      | inr hsignals =>
          obtain ⟨t, hrun, ht⟩ :=
            reaches_pending hpause (hs.signalled (.inr (.inr hstatus))) hsignals
          simp [(hquiet t hrun .chld).1] at ht
  | inr hdaemon =>
      obtain ⟨hpause, hdaemonized⟩ := hdaemon
      simp [hs.pause (.inr hpause)] at hdaemonized

/-- If all signals are timely, nobody waits for a signal that has been delivered. -/
theorem not_stuck_of_timely {s : State} (hrun : Reaches (ActsWithin Timely next) start s) :
    ¬ Stuck s := by
  have halways : Always (ActsWithin Timely next) (fun s => ¬ Stuck s) start :=
    Always.of_actions inv_start (fun _ _ _ hs htimely h => hs.next htimely h)
      fun _ => Inv.not_stuck
  exact halways s hrun

/-- The daemon waits before it is signalled, and the parent before each of its signals. -/
theorem not_stuck_handshake : ∃ s, Reaches (ActsWithin Timely next) start s ∧
    s.parent = .exited ∧ ¬ Stuck s := by
  have hrun : Reaches (ActsWithin Timely next) start _ :=
      .head ⟨.parent, trivial, rfl⟩ <|
      .head ⟨.parent, trivial, rfl⟩ <|
      .head ⟨.child, trivial, rfl⟩ <|
      .head ⟨.child, trivial, rfl⟩ <|
      .head ⟨.daemon, trivial, rfl⟩ <|
      .head ⟨.daemon, trivial, rfl⟩ <|
      .head ⟨.parent, trivial, rfl⟩ <|
      .head ⟨.parent, trivial, rfl⟩ <|
      .head ⟨.parent, trivial, rfl⟩ <|
      .head ⟨.parent, trivial, rfl⟩ <|
      .head ⟨.deliverDaemon .usr1, fun h => (by cases h), rfl⟩ <|
      .head ⟨.daemon, trivial, rfl⟩ <|
      .head ⟨.daemon, trivial, rfl⟩ <|
      .head ⟨.parent, trivial, rfl⟩ <|
      .head ⟨.deliverParent .usr1, fun h => (by cases h), rfl⟩ <|
      .head ⟨.parent, trivial, rfl⟩ <|
      .head ⟨.parent, trivial, rfl⟩ <|
      .head ⟨.deliverParent .usr2, fun h => (by cases h), rfl⟩ <|
      .head ⟨.parent, trivial, rfl⟩ <|
      .refl
  exact ⟨_, hrun, rfl, not_stuck_of_timely hrun⟩

/-! ## Lost wakeups -/

theorem quiet_of_final {s : State} (hfinal : ∀ action, next s action = none)
    (hpending : ∀ sig, s.parentPending sig = false ∧ s.daemonPending sig = false) : Quiet s := by
  intro t hrun
  cases hrun.cases_head with
  | inl heq => exact heq ▸ hpending
  | inr hstep =>
      obtain ⟨u, ⟨action, hnext⟩, -⟩ := hstep
      rw [hfinal action] at hnext
      cases hnext

/-- The signal of the group reaches the daemon between its test and its `pause`. -/
def lateSignal : List Action :=
  [.parent, .parent, .child, .child, .parent, .parent, .parent, .daemon, .parent,
    .deliverParent .usr1, .parent, .deliverDaemon .usr1, .daemon]

/-- Both signals of the daemon reach the parent between its `kill` and its `pause`. -/
def earlyAnswers : List Action :=
  [.parent, .parent, .child, .child, .parent, .parent, .parent, .parent, .deliverParent .usr1,
    .deliverDaemon .usr1, .daemon, .daemon, .deliverParent .usr2, .daemon, .daemon, .daemon,
    .deliverParent .chld, .parent]

theorem lost_wakeups :
    (∃ t, Reaches Step start t ∧ Quiet t ∧ t.daemon = .pause ∧ t.daemonized = true) ∧
      ∃ t, Reaches Step start t ∧ Quiet t ∧ t.parent = .pause ∧ 0 ≤ t.status := by
  constructor
  · refine ⟨_, reaches_of_runActions (show runActions next start lateSignal = some _ from rfl),
      quiet_of_final ?_ ?_, rfl, rfl⟩
    · intro action
      cases action with
      | deliverParent sig => cases sig <;> rfl
      | deliverDaemon sig => cases sig <;> rfl
      | _ => rfl
    · intro sig
      cases sig <;> exact ⟨rfl, rfl⟩
  · refine ⟨_, reaches_of_runActions (show runActions next start earlyAnswers = some _ from rfl),
      quiet_of_final ?_ ?_, rfl, by decide⟩
    · intro action
      cases action with
      | deliverParent sig => cases sig <;> rfl
      | deliverDaemon sig => cases sig <;> rfl
      | _ => rfl
    · intro sig
      cases sig <;> exact ⟨rfl, rfl⟩

end SysProg.GroupSignal
