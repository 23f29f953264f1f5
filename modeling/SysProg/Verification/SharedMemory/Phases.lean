import SysProg.Model.SharedMemory

/-! # The phases of a request

A request is written while the child is idle and no flag is set; `pready` is set while it is
published and `cready` when the child is ready for the next one. -/

namespace SysProg.SharedMemory

/-- The values that the first `k` requests ask for. -/
def squares (k : ℕ) : List Long :=
  (List.range k).map fun j : ℕ => (j : Long) * (j : Long)

theorem length_squares (k : ℕ) : (squares k).length = k := by
  rw [squares, List.length_map, List.length_range]

theorem squares_succ (k : ℕ) : squares (k + 1) = squares k ++ [(k : Long) * k] := by
  rw [squares, List.range_succ, List.map_append]
  rfl

/-- The child has not seen that `pready` is set. -/
def Child.idle : Child → Bool
  | .firstKill | .kill | .test | .suspend => true
  | _ => false

/-- The child is going to send a signal before it tests `pready`. -/
def Child.kills : Child → Bool
  | .firstKill | .kill => true
  | _ => false

/-- The parent has stored `'Q'`. -/
def Parent.quitting : Parent → Bool
  | .quitSetReady | .quitKill | .wait | .exited => true
  | _ => false

/-- The parent waits for the child to be ready for request `i`, or has left its loop with `i`
requests. -/
inductive Parent.AtHead (n : ℕ) : ℕ → Parent → Prop
  | test {i : ℕ} (hi : i < n) : AtHead n i (.test i)
  | suspend {i : ℕ} (hi : i < n) : AtHead n i (.suspend i)
  | quitClearReady : AtHead n n .quitClearReady
  | quitStoreCmd : AtHead n n .quitStoreCmd

/-- The parent has published request `i`. -/
inductive Parent.After (n : ℕ) : ℕ → Parent → Prop
  | print {i : ℕ} (hi : i < n) : After n i (.print i)
  | kill {i : ℕ} (hi : i < n) : After n i (.kill i)
  | head {i : ℕ} {parent : Parent} (hhead : AtHead n (i + 1) parent) : After n i parent

/-- The parent has not taken `cready` for request `i`. -/
inductive Parent.Before (n : ℕ) : ℕ → Parent → Prop
  | first {parent : Parent} (hhead : AtHead n 0 parent) : Before n 0 parent
  | clearReady {i : ℕ} (hi : i < n) : Before n i (.clearReady i)
  | after {i : ℕ} {parent : Parent} (hafter : After n i parent) : Before n (i + 1) parent

/-- What the parent has written of request `i`. -/
inductive Writing (i : ℕ) (s : State) : Prop
  | storeX (hparent : s.parent = .storeX i)
  | storeCmd (hparent : s.parent = .storeCmd i) (hx : s.x = i)
  | setReady (hparent : s.parent = .setReady i) (hx : s.x = i) (hcmd : s.cmd = '*')

/-- What the child has done for request `i`. -/
inductive Working (i : ℕ) (s : State) : Prop
  | loadCmd (hchild : s.child = .loadCmd) (hstored : s.stored = squares i)
  | loadX (hchild : s.child = .loadX) (hstored : s.stored = squares i)
  | loadXAgain (hchild : s.child = .loadXAgain i) (hstored : s.stored = squares i)
  | storeY (hchild : s.child = .storeY i i) (hstored : s.stored = squares i)
  | setReady (hchild : s.child = .setReady) (hstored : s.stored = squares (i + 1))

/-- Request `i` stands in the memory and the parent does not change it. -/
structure Holds (n i : ℕ) (s : State) : Prop where
  parent : s.parent.After n i
  cready : s.cready = false
  x : s.x = i
  cmd : s.cmd = '*'

inductive Phase (n : ℕ) (s : State) : Prop
  | starting (hchild : s.child = .firstSetReady) (hpready : s.pready = false)
      (hcready : s.cready = false) (hstored : s.stored = squares 0)
      (hparent : s.parent.AtHead n 0)
  | ready (i : ℕ) (hchild : s.child.idle) (hpready : s.pready = false)
      (hcready : s.cready = true ∨ s.parent = .quitStoreCmd) (hstored : s.stored = squares i)
      (hparent : s.parent.Before n i)
      (hwake : ∀ j, s.parent = .suspend j → s.parentPending = true ∨ s.child.kills)
  | writing (i : ℕ) (hi : i < n) (hchild : s.child.idle) (hpready : s.pready = false)
      (hcready : s.cready = false) (hstored : s.stored = squares i) (hparent : Writing i s)
  | published (i : ℕ) (hchild : s.child.idle ∨ s.child = .clearReady) (hpready : s.pready = true)
      (hstored : s.stored = squares i) (hholds : Holds n i s)
      (hwake : s.child = .suspend →
        s.childPending = true ∨ s.parent = .print i ∨ s.parent = .kill i)
  | working (i : ℕ) (hpready : s.pready = false) (hholds : Holds n i s) (hchild : Working i s)
  | quitting (hparent : s.parent.quitting)

variable {n i : ℕ} {s t : State}

theorem atHead_loop (hi : i ≤ n) : (Parent.loop n i).AtHead n i := by
  unfold Parent.loop
  split
  · next hlt => exact .test hlt
  · next hge =>
      obtain rfl : i = n := by omega
      exact .quitClearReady

theorem phase_start (n : ℕ) (x y : Long) (cmd : Char) : Phase n (start n x y cmd) :=
  .starting rfl rfl rfl rfl (atHead_loop (Nat.zero_le n))

/-! ## Steps of the parent -/

/-- The parent waits, or stores `'Q'`. -/
theorem Parent.AtHead.of_parentStep (hparent : s.parent.AtHead n i) (hcready : s.cready = false)
    (h : parentStep n s = some t) :
    (t.parent.quitting ∨ t.parent.AtHead n i ∧ t.cready = false ∧ t.x = s.x ∧ t.cmd = s.cmd) ∧
      t.child = s.child ∧ t.pready = s.pready ∧ t.stored = s.stored ∧
      t.childPending = s.childPending := by
  generalize hp : s.parent = parent at hparent
  cases hparent with
  | test hi =>
      have hnot : ¬ s.cready = true := by simp [hcready]
      simp only [parentStep, hp, if_neg hnot] at h
      cases h
      exact ⟨.inr ⟨.suspend hi, hcready, rfl, rfl⟩, rfl, rfl, rfl, rfl⟩
  | suspend hi =>
      rw [parentStep, hp] at h
      cases h
  | quitClearReady =>
      rw [parentStep, hp] at h
      cases h
      exact ⟨.inr ⟨.quitStoreCmd, rfl, rfl, rfl⟩, rfl, rfl, rfl, rfl⟩
  | quitStoreCmd =>
      rw [parentStep, hp] at h
      cases h
      exact ⟨.inl rfl, rfl, rfl, rfl, rfl⟩

/-- The parent goes on without a change of the request, or stores `'Q'`. -/
theorem Holds.of_parentStep (hs : Holds n i s) (h : parentStep n s = some t) :
    (t.parent.quitting ∨ Holds n i t) ∧
      t.child = s.child ∧ t.pready = s.pready ∧ t.stored = s.stored ∧
      (s.childPending = true ∨ s.parent = .print i ∨ s.parent = .kill i →
        t.childPending = true ∨ t.parent = .print i ∨ t.parent = .kill i) := by
  obtain ⟨hparent, hcready, hx, hcmd⟩ := hs
  generalize hp : s.parent = parent at hparent
  cases hparent with
  | print hi =>
      rw [parentStep, hp] at h
      cases h
      exact ⟨.inr ⟨.kill hi, hcready, hx, hcmd⟩, rfl, rfl, rfl, fun _ => .inr (.inr rfl)⟩
  | kill hi =>
      rw [parentStep, hp] at h
      cases h
      exact ⟨.inr ⟨.head (atHead_loop hi), hcready, hx, hcmd⟩, rfl, rfl, rfl, fun _ => .inl rfl⟩
  | head hhead =>
      have hne : parent ≠ .print i ∧ parent ≠ .kill i := by
        cases hhead <;> simp
      rw [← hp] at hhead
      obtain ⟨hnext, hchild, hpready, hstored, hpending⟩ := hhead.of_parentStep hcready h
      refine ⟨?_, hchild, hpready, hstored, fun hwake => .inl ?_⟩
      · rcases hnext with hquit | ⟨hhead', hcready', hx', hcmd'⟩
        · exact .inl hquit
        · exact .inr ⟨.head hhead', hcready', hx'.trans hx, hcmd'.trans hcmd⟩
      · rw [hpending]
        exact hwake.resolve_right (not_or.mpr hne)

theorem Writing.of_parentStep (hs : Writing i s) (h : parentStep n s = some t) :
    (Writing i t ∧ t.pready = s.pready ∨
      t.pready = true ∧ t.parent = .print i ∧ t.x = i ∧ t.cmd = '*') ∧
      t.child = s.child ∧ t.cready = s.cready ∧ t.stored = s.stored := by
  cases hs with
  | storeX hparent =>
      rw [parentStep, hparent] at h
      cases h
      exact ⟨.inl ⟨.storeCmd rfl rfl, rfl⟩, rfl, rfl, rfl⟩
  | storeCmd hparent hx =>
      rw [parentStep, hparent] at h
      cases h
      exact ⟨.inl ⟨.setReady rfl hx rfl, rfl⟩, rfl, rfl, rfl⟩
  | setReady hparent hx hcmd =>
      rw [parentStep, hparent] at h
      cases h
      exact ⟨.inr ⟨rfl, rfl, hx, hcmd⟩, rfl, rfl, rfl⟩

/-- The parent takes `cready`, or has not come to that. -/
theorem Phase.ready_of_parentStep (hchild : s.child.idle) (hpready : s.pready = false)
    (hcready : s.cready = true ∨ s.parent = .quitStoreCmd) (hstored : s.stored = squares i)
    (hparent : s.parent.Before n i) (h : parentStep n s = some t) : Phase n t := by
  have hhead : ∀ {parent}, s.parent = parent → parent.AtHead n i → Phase n t := by
    intro parent hp hhead
    cases hhead with
    | test hi =>
        have hset : s.cready = true := hcready.resolve_right (by simp [hp])
        simp only [parentStep, hp, if_pos hset] at h
        cases h
        exact .ready i hchild hpready (.inl hset) hstored (.clearReady hi) (by simp)
    | suspend hi =>
        rw [parentStep, hp] at h
        cases h
    | quitClearReady =>
        rw [parentStep, hp] at h
        cases h
        refine .ready n hchild hpready (.inr rfl) hstored ?_ (by simp)
        cases n with
        | zero => exact .first .quitStoreCmd
        | succ n => exact .after (.head .quitStoreCmd)
    | quitStoreCmd =>
        rw [parentStep, hp] at h
        cases h
        exact .quitting rfl
  generalize hp : s.parent = parent at hparent
  cases hparent with
  | first hfirst => exact hhead hp hfirst
  | clearReady hi =>
      rw [parentStep, hp] at h
      cases h
      exact .writing i hi hchild hpready rfl hstored (.storeX rfl)
  | @after i _ hafter =>
      have hset : parent ≠ .quitStoreCmd → s.cready = true :=
        fun hne => hcready.resolve_right (by rwa [hp])
      cases hafter with
      | print hi =>
          rw [parentStep, hp] at h
          cases h
          exact .ready (i + 1) hchild hpready (.inl (hset (by simp))) hstored (.after (.kill hi))
            (by simp)
      | kill hi =>
          rw [parentStep, hp] at h
          cases h
          refine .ready (i + 1) hchild hpready (.inl (hset (by simp))) hstored
            (.after (.head (atHead_loop hi))) fun j hj => ?_
          simp only [Parent.loop] at hj
          split at hj <;> cases hj
      | head hatHead => exact hhead hp hatHead

theorem Working.congr (hs : Working i s) (hchild : t.child = s.child)
    (hstored : t.stored = s.stored) : Working i t := by
  cases hs with
  | loadCmd h h' => exact .loadCmd (hchild.trans h) (hstored.trans h')
  | loadX h h' => exact .loadX (hchild.trans h) (hstored.trans h')
  | loadXAgain h h' => exact .loadXAgain (hchild.trans h) (hstored.trans h')
  | storeY h h' => exact .storeY (hchild.trans h) (hstored.trans h')
  | setReady h h' => exact .setReady (hchild.trans h) (hstored.trans h')

theorem quitting_of_parentStep (hs : s.parent.quitting) (h : parentStep n s = some t) :
    t.parent.quitting ∧ t.child = s.child ∧ t.cmd = s.cmd ∧ t.stored = s.stored := by
  generalize hp : s.parent = parent at hs
  cases parent with
  | quitSetReady =>
      rw [parentStep, hp] at h
      cases h
      exact ⟨rfl, rfl, rfl, rfl⟩
  | quitKill =>
      rw [parentStep, hp] at h
      cases h
      exact ⟨rfl, rfl, rfl, rfl⟩
  | wait =>
      simp only [parentStep, hp] at h
      split at h
      · cases h
        exact ⟨rfl, rfl, rfl, rfl⟩
      · cases h
  | exited =>
      rw [parentStep, hp] at h
      cases h
  | _ => cases hs

theorem Phase.of_parentStep (hs : Phase n s) (h : parentStep n s = some t) : Phase n t := by
  cases hs with
  | starting hchild hpready hcready hstored hparent =>
      obtain ⟨hnext, hchild', hpready', hstored', -⟩ := hparent.of_parentStep hcready h
      rcases hnext with hquit | ⟨hparent', hcready', -⟩
      · exact .quitting hquit
      · exact .starting (hchild'.trans hchild) (hpready'.trans hpready) hcready'
          (hstored'.trans hstored) hparent'
  | ready i hchild hpready hcready hstored hparent _ =>
      exact .ready_of_parentStep hchild hpready hcready hstored hparent h
  | writing i hi hchild hpready hcready hstored hparent =>
      obtain ⟨hwritten, hchild', hcready', hstored'⟩ := hparent.of_parentStep h
      rw [← hchild'] at hchild
      rw [← hcready'] at hcready
      rw [← hstored'] at hstored
      rcases hwritten with ⟨hwriting, hpready'⟩ | ⟨hpready', hprint, hx, hcmd⟩
      · exact .writing i hi hchild (hpready'.trans hpready) hcready hstored hwriting
      · exact .published i (.inl hchild) hpready' hstored
          ⟨hprint ▸ .print hi, hcready, hx, hcmd⟩ fun _ => .inr (.inl hprint)
  | published i hchild hpready hstored hholds hwake =>
      obtain ⟨hnext, hchild', hpready', hstored', hwake'⟩ := hholds.of_parentStep h
      rcases hnext with hquit | hholds'
      · exact .quitting hquit
      · rw [← hchild'] at hchild hwake
        exact .published i hchild (hpready'.trans hpready) (hstored'.trans hstored) hholds'
          fun hsuspend => hwake' (hwake hsuspend)
  | working i hpready hholds hchild =>
      obtain ⟨hnext, hchild', hpready', hstored', -⟩ := hholds.of_parentStep h
      rcases hnext with hquit | hholds'
      · exact .quitting hquit
      · exact .working i (hpready'.trans hpready) hholds' (hchild.congr hchild' hstored')
  | quitting hparent => exact .quitting (quitting_of_parentStep hparent h).1

/-! ## Steps of the child -/

theorem Holds.congr (hs : Holds n i s) (hparent : t.parent = s.parent)
    (hcready : t.cready = s.cready) (hx : t.x = s.x) (hcmd : t.cmd = s.cmd) : Holds n i t :=
  ⟨hparent ▸ hs.parent, hcready.trans hs.cready, hx.trans hs.x, hcmd.trans hs.cmd⟩

theorem Writing.congr (hs : Writing i s) (hparent : t.parent = s.parent) (hx : t.x = s.x)
    (hcmd : t.cmd = s.cmd) : Writing i t := by
  cases hs with
  | storeX h => exact .storeX (hparent.trans h)
  | storeCmd h h' => exact .storeCmd (hparent.trans h) (hx.trans h')
  | setReady h h' h'' => exact .setReady (hparent.trans h) (hx.trans h') (hcmd.trans h'')

/-- What a step of an idle child changes. -/
structure IdleStep (s t : State) : Prop where
  child : if s.pready then t.child = .test ∨ t.child = .clearReady else t.child.idle
  parent : t.parent = s.parent
  pready : t.pready = s.pready
  cready : t.cready = s.cready
  x : t.x = s.x
  cmd : t.cmd = s.cmd
  stored : t.stored = s.stored
  wake : s.parentPending = true ∨ s.child.kills → t.parentPending = true ∨ t.child.kills

theorem idleStep_of_childStep (hs : s.child.idle) (h : childStep s = some t) : IdleStep s t := by
  generalize hc : s.child = child at hs
  cases child with
  | firstKill =>
      rw [childStep, hc] at h
      cases h
      exact ⟨by simp [Child.idle], rfl, rfl, rfl, rfl, rfl, rfl, fun _ => .inl rfl⟩
  | kill =>
      rw [childStep, hc] at h
      cases h
      exact ⟨by simp [Child.idle], rfl, rfl, rfl, rfl, rfl, rfl, fun _ => .inl rfl⟩
  | test =>
      simp only [childStep, hc] at h
      split at h
      · next hset =>
          cases h
          exact ⟨by simp [hset], rfl, rfl, rfl, rfl, rfl, rfl, by simp [hc, Child.kills]⟩
      · next hset =>
          cases h
          exact ⟨by simp [hset, Child.idle], rfl, rfl, rfl, rfl, rfl, rfl, by simp [hc, Child.kills]⟩
  | suspend =>
      rw [childStep, hc] at h
      cases h
  | _ => cases hs

theorem Phase.working_of_childStep (hpready : s.pready = false) (hholds : Holds n i s)
    (hchild : Working i s) (h : childStep s = some t) : Phase n t := by
  cases hchild with
  | loadCmd hc hstored =>
      have hnot : ¬ s.cmd = 'Q' := by simp [hholds.cmd]
      simp only [childStep, hc, if_neg hnot] at h
      cases h
      exact .working i hpready (hholds.congr rfl rfl rfl rfl) (.loadX rfl hstored)
  | loadX hc hstored =>
      rw [childStep, hc] at h
      cases h
      exact .working i hpready (hholds.congr rfl rfl rfl rfl)
        (.loadXAgain (congrArg Child.loadXAgain hholds.x) hstored)
  | loadXAgain hc hstored =>
      rw [childStep, hc] at h
      cases h
      exact .working i hpready (hholds.congr rfl rfl rfl rfl)
        (.storeY (congrArg (Child.storeY i) hholds.x) hstored)
  | storeY hc hstored =>
      rw [childStep, hc] at h
      cases h
      refine .working i hpready (hholds.congr rfl rfl rfl rfl) (.setReady rfl ?_)
      rw [squares_succ, ← hstored]
  | setReady hc hstored =>
      rw [childStep, hc] at h
      cases h
      exact .ready (i + 1) rfl hpready (.inl rfl) hstored (.after hholds.parent) fun _ _ => .inr rfl

theorem parent_of_childStep (h : childStep s = some t) : t.parent = s.parent := by
  unfold childStep at h
  split at h <;> (try split at h) <;> first
    | (cases h; rfl)
    | cases h

theorem Phase.of_childStep (hs : Phase n s) (h : childStep s = some t) : Phase n t := by
  cases hs with
  | starting hchild hpready hcready hstored hparent =>
      rw [childStep, hchild] at h
      cases h
      exact .ready 0 rfl hpready (.inl rfl) hstored (.first hparent) fun _ _ => .inr rfl
  | ready i hchild hpready hcready hstored hparent hwake =>
      have hstep := idleStep_of_childStep hchild h
      have hidle := hstep.child
      rw [hpready] at hidle
      refine .ready i (by simpa using hidle) (hstep.pready.trans hpready) ?_
        (hstep.stored.trans hstored) (hstep.parent ▸ hparent) fun j hj => ?_
      · rwa [hstep.cready, hstep.parent]
      · exact hstep.wake (hwake j (hstep.parent ▸ hj))
  | writing i hi hchild hpready hcready hstored hparent =>
      have hstep := idleStep_of_childStep hchild h
      have hidle := hstep.child
      rw [hpready] at hidle
      exact .writing i hi (by simpa using hidle) (hstep.pready.trans hpready)
        (hstep.cready.trans hcready) (hstep.stored.trans hstored)
        (hparent.congr hstep.parent hstep.x hstep.cmd)
  | published i hchild hpready hstored hholds hwake =>
      rcases hchild with hchild | hchild
      · have hstep := idleStep_of_childStep hchild h
        have hholds' := hholds.congr hstep.parent hstep.cready hstep.x hstep.cmd
        have hmoves := hstep.child
        rw [hpready, if_pos rfl] at hmoves
        refine .published i ?_ (hstep.pready.trans hpready) (hstep.stored.trans hstored) hholds' ?_
        · rcases hmoves with hmoves | hmoves
          · exact .inl (by rw [hmoves]; rfl)
          · exact .inr hmoves
        · intro hsuspend
          rw [hsuspend] at hmoves
          simp at hmoves
      · rw [childStep, hchild] at h
        cases h
        exact .working i rfl (hholds.congr rfl rfl rfl rfl) (.loadCmd rfl hstored)
  | working i hpready hholds hchild => exact .working_of_childStep hpready hholds hchild h
  | quitting hparent => exact .quitting (parent_of_childStep h ▸ hparent)

/-! ## Signals -/

theorem Parent.AtHead.deliver {j : ℕ} (h : AtHead n i (.suspend j)) : AtHead n i (.test j) := by
  cases h with
  | suspend hi => exact .test hi

theorem Parent.After.deliver {j : ℕ} (h : After n i (.suspend j)) : After n i (.test j) := by
  cases h with
  | head hhead => exact .head hhead.deliver

theorem Parent.Before.deliver {j : ℕ} (h : Before n i (.suspend j)) : Before n i (.test j) := by
  cases h with
  | first hhead => exact .first hhead.deliver
  | after hafter => exact .after hafter.deliver

theorem Phase.of_deliverParent (hs : Phase n s) (h : deliverParent s = some t) : Phase n t := by
  unfold deliverParent at h
  split at h
  · next j hp =>
      split at h
      · cases h
        cases hs with
        | starting hchild hpready hcready hstored hparent =>
            rw [hp] at hparent
            exact .starting hchild hpready hcready hstored hparent.deliver
        | ready i hchild hpready hcready hstored hparent hwake =>
            rw [hp] at hparent hcready
            exact .ready i hchild hpready (hcready.imp_right (by simp)) hstored hparent.deliver
              (by simp)
        | writing i hi hchild hpready hcready hstored hparent =>
            cases hparent with
            | storeX hparent => rw [hp] at hparent; cases hparent
            | storeCmd hparent _ => rw [hp] at hparent; cases hparent
            | setReady hparent _ _ => rw [hp] at hparent; cases hparent
        | published i hchild hpready hstored hholds hwake =>
            obtain ⟨hparent, hcready, hx, hcmd⟩ := hholds
            rw [hp] at hparent
            refine .published i hchild hpready hstored ⟨hparent.deliver, hcready, hx, hcmd⟩ ?_
            intro hsuspend
            rcases hwake hsuspend with hpending | hprint | hkill
            · exact .inl hpending
            · rw [hp] at hprint
              cases hprint
            · rw [hp] at hkill
              cases hkill
        | working i hpready hholds hchild =>
            obtain ⟨hparent, hcready, hx, hcmd⟩ := hholds
            rw [hp] at hparent
            exact .working i hpready ⟨hparent.deliver, hcready, hx, hcmd⟩ (hchild.congr rfl rfl)
        | quitting hparent =>
            rw [hp] at hparent
            cases hparent
      · cases h
  · cases h

theorem Phase.of_deliverChild (hs : Phase n s) (h : deliverChild s = some t) : Phase n t := by
  unfold deliverChild at h
  split at h
  · next hsuspend =>
      obtain ⟨hc, -⟩ := hsuspend
      cases h
      cases hs with
      | starting hchild =>
          rw [hc] at hchild
          cases hchild
      | ready i hchild hpready hcready hstored hparent hwake =>
          refine .ready i rfl hpready hcready hstored hparent fun j hj => .inl ?_
          exact (hwake j hj).resolve_right (by simp [hc, Child.kills])
      | writing i hi hchild hpready hcready hstored hparent =>
          exact .writing i hi rfl hpready hcready hstored (hparent.congr rfl rfl rfl)
      | published i hchild hpready hstored hholds hwake =>
          exact .published i (.inl rfl) hpready hstored (hholds.congr rfl rfl rfl rfl) (by simp)
      | working i hpready hholds hchild => cases hchild <;> simp_all
      | quitting hparent => exact .quitting hparent
  · cases h

theorem Phase.of_next (hs : Phase n s) {action : Action} (h : next n s action = some t) :
    Phase n t := by
  cases action with
  | parent => exact hs.of_parentStep h
  | child => exact hs.of_childStep h
  | deliverParent => exact hs.of_deliverParent h
  | deliverChild => exact hs.of_deliverChild h

end SysProg.SharedMemory
