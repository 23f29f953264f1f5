import SysProg.Verification.SharedMemory.Phases

/-! # The requests that are served

Before it overwrites a request with the next one, the parent waits until `y` has been stored. It
does not wait before it overwrites the last one with `'Q'`. -/

namespace SysProg.SharedMemory

variable {n i : ℕ} {s t : State}

/-- The number of requests that the parent has overwritten, in `x` or in `cmd`. -/
def Parent.overwritten (n : ℕ) : Parent → ℕ
  | .test i | .suspend i | .clearReady i | .storeX i => i - 1
  | .storeCmd i | .setReady i | .print i | .kill i => i
  | .quitClearReady | .quitStoreCmd => n - 1
  | .quitSetReady | .quitKill | .wait | .exited => n

/-- The child has stored the square of every `x` that has been overwritten, and nothing else. -/
def Served (n : ℕ) (s : State) : Prop :=
  ∃ k, s.parent.overwritten n ≤ k ∧ s.stored = squares k

/-- Both processes wait for a signal, and there is none. -/
def Blocked (s : State) : Prop :=
  (∃ i, s.parent = .suspend i) ∧ s.child = .suspend ∧ s.parentPending = false ∧
    s.childPending = false

/-- The child has cleared `pready` and has not stored `y`. -/
def Child.works : Child → Bool
  | .loadCmd | .loadX | .loadXAgain _ | .storeY _ _ => true
  | _ => false

/-- The child has taken the last request and is done with it when the parent stores `'Q'`. -/
def Timely (s : State) (action : Action) : Prop :=
  action = .parent → s.parent = .quitStoreCmd → s.pready = false ∧ s.child.works = false

/-! ## Signals are not missed -/

theorem Phase.not_blocked (hs : Phase n s) : ¬ Blocked s := by
  intro ⟨⟨j, hp⟩, hc, hparent, hchild⟩
  cases hs with
  | starting hfirst =>
      rw [hc] at hfirst
      cases hfirst
  | ready i _ _ _ _ _ hwake =>
      have hwoken := hwake j hp
      simp [hparent, hc, Child.kills] at hwoken
  | writing i _ _ _ _ _ hwriting => cases hwriting <;> simp_all
  | published i _ _ _ _ hwake =>
      have hwoken := hwake hc
      simp [hchild, hp] at hwoken
  | working i _ _ hworking => cases hworking <;> simp_all
  | quitting hquit =>
      rw [hp] at hquit
      cases hquit

/-! ## Requests before the last one -/

theorem Parent.AtHead.overwritten_le {parent : Parent} (h : AtHead n i parent) :
    parent.overwritten n ≤ i - 1 := by
  cases h <;> exact le_rfl

theorem Parent.After.overwritten_le {parent : Parent} (h : After n i parent) :
    parent.overwritten n ≤ i := by
  cases h with
  | print => exact le_rfl
  | kill => exact le_rfl
  | head hhead => exact hhead.overwritten_le

theorem Parent.Before.overwritten_le {parent : Parent} (h : Before n i parent) :
    parent.overwritten n ≤ i := by
  cases h with
  | first hhead => exact hhead.overwritten_le
  | clearReady => exact Nat.sub_le i 1
  | after hafter => exact hafter.overwritten_le.trans (Nat.le_succ _)

theorem Writing.overwritten_le (h : Writing i s) : s.parent.overwritten n ≤ i := by
  cases h with
  | storeX hparent =>
      rw [hparent]
      exact Nat.sub_le i 1
  | storeCmd hparent => exact (congrArg (Parent.overwritten n) hparent).le
  | setReady hparent => exact (congrArg (Parent.overwritten n) hparent).le

theorem Working.stored (h : Working i s) :
    s.child.works = true ∧ s.stored = squares i ∨
      s.child.works = false ∧ s.stored = squares (i + 1) := by
  cases h with
  | loadCmd hchild hstored => exact .inl ⟨by rw [hchild]; rfl, hstored⟩
  | loadX hchild hstored => exact .inl ⟨by rw [hchild]; rfl, hstored⟩
  | loadXAgain hchild hstored => exact .inl ⟨by rw [hchild]; rfl, hstored⟩
  | storeY hchild hstored => exact .inl ⟨by rw [hchild]; rfl, hstored⟩
  | setReady hchild hstored => exact .inr ⟨by rw [hchild]; rfl, hstored⟩

theorem Phase.served (hs : Phase n s) (hquit : s.parent.quitting = false) : Served n s := by
  cases hs with
  | starting _ _ _ hstored hparent => exact ⟨0, hparent.overwritten_le, hstored⟩
  | ready i _ _ _ hstored hparent => exact ⟨i, hparent.overwritten_le, hstored⟩
  | writing i _ _ _ _ hstored hparent => exact ⟨i, hparent.overwritten_le, hstored⟩
  | published i _ _ hstored hholds => exact ⟨i, hholds.parent.overwritten_le, hstored⟩
  | working i _ hholds hchild =>
      have hle := hholds.parent.overwritten_le
      rcases hchild.stored with ⟨-, hstored⟩ | ⟨-, hstored⟩
      · exact ⟨i, hle, hstored⟩
      · exact ⟨i + 1, hle.trans (Nat.le_succ i), hstored⟩
  | quitting hparent =>
      rw [hparent] at hquit
      cases hquit

/-! ## The last request -/

theorem Parent.AtHead.eq_of_quitStoreCmd (h : AtHead n i .quitStoreCmd) : i = n := by
  cases h
  rfl

theorem Parent.After.eq_of_quitStoreCmd (h : After n i .quitStoreCmd) : i + 1 = n := by
  cases h with
  | head hhead => exact hhead.eq_of_quitStoreCmd

/-- What the child has stored when the parent is about to store `'Q'`. -/
theorem Phase.stored_of_quitStoreCmd (hs : Phase n s) (hparent : s.parent = .quitStoreCmd) :
    if s.pready = false ∧ s.child.works = false then s.stored = squares n
    else ∃ k < n, s.stored = squares k := by
  cases hs with
  | starting hchild hpready _ hstored hhead =>
      rw [hparent] at hhead
      obtain rfl := hhead.eq_of_quitStoreCmd
      rwa [if_pos ⟨hpready, by rw [hchild]; rfl⟩]
  | ready i hchild hpready _ hstored hbefore =>
      rw [hparent] at hbefore
      have hworks : s.child.works = false := by
        revert hchild
        cases s.child <;> simp [Child.idle, Child.works]
      rw [if_pos ⟨hpready, hworks⟩]
      cases hbefore with
      | first hhead => rw [hstored, hhead.eq_of_quitStoreCmd]
      | after hafter => rw [hstored, hafter.eq_of_quitStoreCmd]
  | writing i _ _ _ _ _ hwriting => cases hwriting <;> simp_all
  | published i _ hpready hstored hholds =>
      have hafter := hholds.parent
      rw [hparent] at hafter
      have hlast := hafter.eq_of_quitStoreCmd
      rw [if_neg (by simp [hpready])]
      exact ⟨i, by omega, hstored⟩
  | working i hpready hholds hchild =>
      have hafter := hholds.parent
      rw [hparent] at hafter
      have hlast := hafter.eq_of_quitStoreCmd
      rcases hchild.stored with ⟨hworks, hstored⟩ | ⟨hworks, hstored⟩
      · rw [if_neg (by simp [hworks])]
        exact ⟨i, by omega, hstored⟩
      · rw [if_pos ⟨hpready, hworks⟩, hstored, hlast]
  | quitting hquit =>
      rw [hparent] at hquit
      cases hquit

theorem squares_injective : Function.Injective squares := by
  intro j k h
  rw [← length_squares j, h, length_squares]

/-- The request is served exactly if the child is done with it before `'Q'` is stored. -/
theorem Phase.served_quit_iff (hs : Phase n s) (hparent : s.parent = .quitStoreCmd)
    (h : next n s .parent = some t) :
    Served n t ↔ s.pready = false ∧ s.child.works = false := by
  have hlast := hs.stored_of_quitStoreCmd hparent
  rw [next, parentStep, hparent] at h
  cases h
  split at hlast
  · next hdone => exact ⟨fun _ => hdone, fun _ => ⟨n, le_rfl, hlast⟩⟩
  · next hbusy =>
      refine ⟨fun hserved => ?_, fun hdone => absurd hdone hbusy⟩
      obtain ⟨k, hk, hstored⟩ := hserved
      obtain ⟨j, hj, hstored'⟩ := hlast
      have heq := squares_injective (hstored.symm.trans hstored')
      simp only [Parent.overwritten] at hk
      omega

/-- All requests have been served, and the child is not going to serve another one. -/
structure Quit (n : ℕ) (s : State) : Prop where
  parent : s.parent.quitting
  cmd : s.cmd = 'Q'
  stored : s.stored = squares n
  child : s.child.works = false ∨ s.child = .loadCmd

theorem Quit.served (hs : Quit n s) : Served n s := by
  refine ⟨n, ?_, hs.stored⟩
  have hquit := hs.parent
  revert hquit
  cases s.parent <;> simp [Parent.quitting, Parent.overwritten]

theorem Quit.of_childStep (hs : Quit n s) (h : childStep s = some t) : Quit n t := by
  obtain ⟨hparent, hcmd, hstored, hchild⟩ := hs
  generalize hc : s.child = child at hchild
  cases child with
  | test =>
      simp only [childStep, hc] at h
      split at h
      · cases h
        exact ⟨hparent, hcmd, hstored, .inl rfl⟩
      · cases h
        exact ⟨hparent, hcmd, hstored, .inl rfl⟩
  | clearReady =>
      rw [childStep, hc] at h
      cases h
      exact ⟨hparent, hcmd, hstored, .inr rfl⟩
  | loadCmd =>
      simp only [childStep, hc, if_pos hcmd] at h
      cases h
      exact ⟨hparent, hcmd, hstored, .inl rfl⟩
  | firstSetReady | firstKill | setReady | kill =>
      rw [childStep, hc] at h
      cases h
      exact ⟨hparent, hcmd, hstored, .inl rfl⟩
  | suspend | exited =>
      rw [childStep, hc] at h
      cases h
  | loadX | loadXAgain x | storeY x x' => simp [Child.works] at hchild

theorem Quit.of_next (hs : Quit n s) {action : Action} (h : next n s action = some t) :
    Quit n t := by
  cases action with
  | parent =>
      obtain ⟨hparent, hchild, hcmd, hstored⟩ := quitting_of_parentStep hs.parent h
      exact ⟨hparent, hcmd.trans hs.cmd, hstored.trans hs.stored, hchild ▸ hs.child⟩
  | child => exact hs.of_childStep h
  | deliverParent =>
      have hquit := hs.parent
      simp only [next, deliverParent] at h
      split at h
      · next hp =>
          rw [hp] at hquit
          cases hquit
      · cases h
  | deliverChild =>
      simp only [next, deliverChild] at h
      split at h
      · cases h
        exact ⟨hs.parent, hs.cmd, hs.stored, .inl rfl⟩
      · cases h

/-- Only with `'Q'` the parent begins to quit. -/
theorem quitting_false_of_parentStep (hquit : s.parent.quitting = false)
    (hne : s.parent ≠ .quitStoreCmd) (h : parentStep n s = some t) :
    t.parent.quitting = false := by
  generalize hp : s.parent = parent at hquit hne
  cases parent with
  | test i =>
      simp only [parentStep, hp] at h
      split at h
      · cases h
        rfl
      · cases h
        rfl
  | kill i =>
      rw [parentStep, hp] at h
      cases h
      simp only [Parent.loop]
      split <;> rfl
  | suspend i =>
      rw [parentStep, hp] at h
      cases h
  | clearReady | storeX | storeCmd | setReady | print | quitClearReady =>
      rw [parentStep, hp] at h
      cases h
      rfl
  | quitStoreCmd => exact absurd rfl hne
  | quitSetReady | quitKill | wait | exited => cases hquit

theorem Phase.quit_of_timely (hs : Phase n s) (hquit : s.parent.quitting = false)
    {action : Action} (htimely : Timely s action) (h : next n s action = some t) :
    t.parent.quitting = false ∨ Quit n t := by
  cases action with
  | parent =>
      by_cases hparent : s.parent = .quitStoreCmd
      · have hdone := htimely rfl hparent
        have hlast := hs.stored_of_quitStoreCmd hparent
        rw [if_pos hdone] at hlast
        rw [next, parentStep, hparent] at h
        cases h
        exact .inr ⟨rfl, rfl, hlast, .inl hdone.2⟩
      · exact .inl (quitting_false_of_parentStep hquit hparent h)
  | child => exact .inl (parent_of_childStep h ▸ hquit)
  | deliverParent =>
      simp only [next, deliverParent] at h
      split at h
      · split at h
        · cases h
          exact .inl rfl
        · cases h
      · cases h
  | deliverChild =>
      simp only [next, deliverChild] at h
      split at h
      · cases h
        exact .inl hquit
      · cases h

/-- What holds in every state if the last request is served in time. -/
def Orderly (n : ℕ) (s : State) : Prop :=
  s.parent.quitting = false ∧ Phase n s ∨ Quit n s

/-- The child serves every request but possibly the last one before it is overwritten, and the
last one exactly if it is done with it before `'Q'` is stored. The processes never both wait for a
signal that does not come. -/
theorem requests_served (n : ℕ) (x y : Long) (cmd : Char) :
    Always (ActsWithin Timely (next n)) (Served n) (start n x y cmd) ∧
      Always (Acts (next n)) (fun s => ¬ Blocked s) (start n x y cmd) ∧
      Always (Acts (next n)) (fun s => s.parent = .quitStoreCmd →
        ∀ t, next n s .parent = some t →
          (Served n t ↔ s.pready = false ∧ s.child.works = false)) (start n x y cmd) := by
  have hstart := phase_start n x y cmd
  have hstep : ∀ s t, Phase n s → Acts (next n) s t → Phase n t :=
    fun s t hs ⟨_, h⟩ => hs.of_next h
  refine ⟨?_, ?_, ?_⟩
  · refine Always.of_actions (I := Orderly n) (.inl ⟨?_, hstart⟩) ?_ ?_
    · simp only [start, Parent.loop]
      split <;> rfl
    · intro s t action hs htimely h
      rcases hs with ⟨hquit, hphase⟩ | hquit
      · exact (hphase.quit_of_timely hquit htimely h).imp_left fun hquit' => ⟨hquit', hphase.of_next h⟩
      · exact .inr (hquit.of_next h)
    · intro s hs
      rcases hs with ⟨hquit, hphase⟩ | hquit
      · exact hphase.served hquit
      · exact hquit.served
  · exact Always.of_invariant hstart hstep fun _ => Phase.not_blocked
  · exact Always.of_invariant hstart hstep fun s hs hparent t h => hs.served_quit_iff hparent h

/-- A request that is served while the parent has come to the test for the next one. -/
def servedRequest : List Action :=
  [.parent, .parent, .parent, .parent, .parent, .parent, .parent, .child, .child, .child, .child,
    .child, .child, .child, .child]

/-- The parent stores `'Q'` before the child has looked at the last of 100 requests. -/
def lastRequestLost : List Action :=
  [.child, .child] ++ (List.replicate 99 servedRequest).flatten ++
    [.parent, .parent, .parent, .parent, .parent, .parent, .parent, .parent, .parent, .parent,
      .parent, .child, .child, .child, .parent]

theorem runActions_lastRequestLost :
    (runActions (next 100) (start 100 0 0 ' ') lastRequestLost).map
      (fun s => (s.parent, s.stored.length)) = some (.exited, 99) := by
  decide +kernel

theorem not_served : ¬ Always (Acts (next 100)) (Served 100) (start 100 0 0 ' ') := by
  intro h
  obtain ⟨s, hrun, hs⟩ := Option.map_eq_some_iff.mp runActions_lastRequestLost
  obtain ⟨hparent, hlength⟩ := Prod.mk.inj hs
  obtain ⟨k, hk, hstored⟩ := h s (reaches_of_runActions hrun)
  rw [hstored, length_squares] at hlength
  rw [hparent, Parent.overwritten] at hk
  omega

end SysProg.SharedMemory
