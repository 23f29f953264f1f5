import SysProg.Model.OneSender

/-! # What the receivers get

The messages of a child that it has not received are in the queue, in their order, as long as the
queue is there. -/

namespace SysProg.OneSender

open Message Transmission

/-! ## What is sent -/

/-- What the first messages of the parent have for a child. -/
def sentData (n : ℕ) (i : Fin N) : List Data :=
  (ofType (i + 1) ((List.range n).map message)).map Message.data

/-- All that is meant for a child. -/
def expected (cfg : Config) (i : Fin N) : List Data :=
  sentData cfg.n i ++ [(quit cfg i).data]

/-- What the parent has sent to a child. -/
def sentTo (cfg : Config) (i : Fin N) : Parent → List Data
  | .forking _ => []
  | .sending k => sentData k i
  | .quitting k => if i < k then expected cfg i else sentData cfg.n i
  | .exiting | .exited => expected cfg i

theorem sentData_succ (n : ℕ) (i : Fin N) : sentData (n + 1) i =
    sentData n i ++ if (message n).type = i + 1 then [(message n).data] else [] := by
  unfold sentData
  rw [List.range_succ, List.map_append, List.map_singleton]
  by_cases htype : (message n).type = i + 1
  · rw [ofType_append_self _ htype, List.map_append, if_pos htype, List.map_singleton]
  · rw [ofType_append_of_ne _ htype, if_neg htype, List.append_nil]

theorem sentTo_quitting_succ {cfg : Config} (k : ℕ) (i : Fin N) :
    sentTo cfg i (.quitting (k + 1)) = sentTo cfg i (.quitting k) ++
      if (quit cfg k).type = i + 1 then [(quit cfg k).data] else [] := by
  have htype : (quit cfg k).type = i + 1 ↔ k = i := by
    simp [quit]
  simp only [sentTo, htype]
  rcases Nat.lt_trichotomy i k with hlt | rfl | hlt
  · rw [if_pos (Nat.lt_succ_of_lt hlt), if_pos hlt, if_neg hlt.ne', List.append_nil]
  · rw [if_pos (Nat.lt_succ_self _), if_neg (Nat.lt_irrefl _), if_pos rfl, expected]
  · rw [if_neg (Nat.not_lt.mpr hlt), if_neg (Nat.not_lt.mpr hlt.le), if_neg hlt.ne,
      List.append_nil]

theorem c_of_mem_sentData {n : ℕ} {i : Fin N} {d : Data} (h : d ∈ sentData n i) : d.c = 'C' := by
  obtain ⟨msg, hmsg, rfl⟩ := List.mem_map.mp h
  obtain ⟨k, -, rfl⟩ := List.mem_map.mp (List.mem_of_mem_filter hmsg)
  rfl

/-- Only the last message ends a child. -/
theorem sentTo_of_quit {cfg : Config} {i : Fin N} {parent : Parent} {d : Data}
    (hmem : d ∈ sentTo cfg i parent) (hd : d.c = 'Q') : sentTo cfg i parent = expected cfg i := by
  have hsent : ∀ n, d ∉ sentData n i := by
    intro n hmem
    rw [c_of_mem_sentData hmem] at hd
    exact absurd hd (by decide)
  cases parent with
  | forking k => cases hmem
  | sending k => exact absurd hmem (hsent k)
  | quitting k =>
      simp only [sentTo] at hmem ⊢
      split at hmem
      · next hk => rw [if_pos hk]
      · exact absurd hmem (hsent cfg.n)
  | exiting => rfl
  | exited => rfl

theorem quit_of_expected {cfg : Config} {i : Fin N} {received rest : List Data} {d : Data}
    (h : received ++ d :: rest = expected cfg i) (hd : d.c = 'Q') : rest = [] := by
  by_contra hrest
  have hmem : d ∈ sentData cfg.n i := by
    have hlast := congrArg List.dropLast h
    rw [expected, List.dropLast_concat, List.dropLast_append_of_ne_nil (List.cons_ne_nil d rest),
      List.dropLast_cons_of_ne_nil hrest] at hlast
    rw [← hlast]
    simp
  rw [c_of_mem_sentData hmem] at hd
  exact absurd hd (by decide)

/-! ## The invariant -/

/-- The messages that are in the queue. -/
def State.waiting (s : State) : List Msg :=
  s.queue.getD []

/-- What the queue has for a child. -/
def State.waitingFor (s : State) (i : Fin N) : List Data :=
  (ofType (i + 1) s.waiting).map Message.data

/-- A child has received what has been sent to it and is no longer in the queue. -/
def Facts (cfg : Config) (i : Fin N) (parent : Parent) (waiting : List Data) : Child → Prop
  | .notForked => (∃ k : ℕ, k ≤ i ∧ parent = .forking k) ∧ waiting = []
  | .receiving received => received ++ waiting = sentTo cfg i parent ∧
      ∀ d ∈ received, d.c ≠ 'Q'
  | .exited received => received = expected cfg i ∧ received ++ waiting = sentTo cfg i parent
  | .failed _ => False

/-- The queue is empty when it is removed. -/
def Drained (cfg : Config) (s : State) : Action → Prop
  | .parent => s.parent = .exiting → cfg.id > 0 → s.queue = some []
  | .child _ => True

structure Inv (cfg : Config) (s : State) : Prop where
  removed : s.queue = none → s.parent = .exited
  bound : ∀ k, s.parent = .sending k → k ≤ cfg.n
  types : ∀ msg ∈ s.waiting, ∃ i : Fin N, msg.type = i + 1
  facts : ∀ i, Facts cfg i s.parent (s.waitingFor i) (s.child i)

theorem inv_start (cfg : Config) : Inv cfg start where
  removed h := by cases h
  bound _ h := by cases h
  types _ h := by cases h
  facts _ := ⟨⟨0, Nat.zero_le _, rfl⟩, rfl⟩

variable {cfg : Config} {s t : State} {i : Fin N}

theorem Inv.queue_eq_some (hs : Inv cfg s) (h : s.parent ≠ .exited) : ∃ queue, s.queue = some queue := by
  cases hqueue : s.queue with
  | none => exact absurd (hs.removed hqueue) h
  | some queue => exact ⟨queue, rfl⟩

theorem waiting_eq {queue : List Msg} (h : s.queue = some queue) : s.waiting = queue := by
  rw [State.waiting, h]
  rfl

/-- A child that has ended has no messages. -/
theorem waiting_of_exited {parent : Parent} {waiting : List Data}
    (h : expected cfg i ++ waiting = sentTo cfg i parent) : waiting = [] := by
  have hmem : (quit cfg i).data ∈ sentTo cfg i parent := by
    rw [← h, expected]
    simp
  rwa [sentTo_of_quit hmem rfl, List.append_right_eq_self] at h

/-- A child has received everything when nothing is left at the end. -/
theorem not_receiving_of_expected {received : List Data} (hquit : ∀ d ∈ received, d.c ≠ 'Q') :
    received ++ [] ≠ expected cfg i := by
  intro hreceived
  refine hquit (quit cfg i).data ?_ rfl
  rw [← List.append_nil received, hreceived, expected]
  simp

/-- A child that waits finds the queue. -/
theorem Inv.queue_of_receiving (hs : Inv cfg s) {received : List Data}
    (hchild : s.child i = .receiving received) : ∃ queue, s.queue = some queue := by
  cases hqueue : s.queue with
  | some queue => exact ⟨queue, rfl⟩
  | none =>
      have hfacts := hs.facts i
      rw [hchild, State.waitingFor, State.waiting, hqueue, hs.removed hqueue] at hfacts
      exact absurd hfacts.1 (not_receiving_of_expected hfacts.2)

/-- A child for which there is a message is waiting for it. -/
theorem Inv.receiving_of_mem (hs : Inv cfg s) {msg : Msg} (hmem : msg ∈ s.waiting)
    (htype : msg.type = i + 1) : ∃ received, s.child i = .receiving received := by
  have hdata : s.waitingFor i ≠ [] :=
    List.ne_nil_of_mem (List.mem_map_of_mem (List.mem_filter.mpr ⟨hmem, by simpa using htype⟩))
  have hfacts := hs.facts i
  cases hchild : s.child i with
  | notForked =>
      rw [hchild] at hfacts
      exact absurd hfacts.2 hdata
  | receiving received => exact ⟨received, rfl⟩
  | exited received =>
      rw [hchild] at hfacts
      obtain ⟨rfl, hhistory⟩ := hfacts
      exact absurd (waiting_of_exited hhistory) hdata
  | failed received =>
      rw [hchild] at hfacts
      cases hfacts

/-! ## The children -/

theorem type_inj {i i' : Fin N} (h : ((i : ℕ) : ℤ) + 1 = (i' : ℕ) + 1) : i = i' := by
  ext
  omega

theorem Inv.childStep_eq_some (hs : Inv cfg s) (h : childStep s i = some t) :
    ∃ received queue msg rest, s.child i = .receiving received ∧
      s.queue = some queue ∧ msgrcv (i + 1) queue = some (msg, rest) ∧
      t = { s with queue := some rest }.goto i (if msg.data.c = 'Q'
        then .exited (received ++ [msg.data]) else .receiving (received ++ [msg.data])) := by
  unfold childStep at h
  cases hchild : s.child i with
  | receiving received =>
      rw [hchild] at h
      obtain ⟨queue, hqueue⟩ := hs.queue_of_receiving hchild
      rw [hqueue] at h
      obtain ⟨⟨msg, rest⟩, hmsg, heq⟩ := Option.map_eq_some_iff.mp h
      refine ⟨received, queue, msg, rest, rfl, hqueue, hmsg, ?_⟩
      rw [← heq]
      dsimp only
      split <;> rfl
  | notForked =>
      rw [hchild] at h
      cases h
  | exited received =>
      rw [hchild] at h
      cases h
  | failed received =>
      rw [hchild] at h
      cases h

/-- A child takes its next message from the queue. -/
theorem Inv.of_childStep (hs : Inv cfg s) (h : childStep s i = some t) : Inv cfg t := by
  obtain ⟨received, queue, msg, rest, hchild, hqueue, hmsg, rfl⟩ := hs.childStep_eq_some h
  have hfacts := hs.facts i
  rw [hchild] at hfacts
  obtain ⟨hhistory, hquit⟩ := hfacts
  obtain ⟨hfirst, hother⟩ := msgrcv_ofType hmsg
  rw [State.waitingFor, waiting_eq hqueue, hfirst, List.map_cons] at hhistory
  refine ⟨fun h => (by cases h), hs.bound, ?_, ?_⟩
  · intro msg' hmem
    refine hs.types msg' ?_
    rw [waiting_eq hqueue, (msgrcv_perm hmsg).2.mem_iff]
    exact List.mem_cons_of_mem msg hmem
  · intro i'
    by_cases hi' : i' = i
    · subst hi'
      have hnext : (received ++ [msg.data]) ++ (ofType (i' + 1) rest).map Message.data =
          sentTo cfg i' s.parent := by
        rwa [List.append_assoc]
      simp only [State.goto, Function.update_self]
      split
      · next hc =>
          have hmem : msg.data ∈ sentTo cfg i' s.parent := by
            rw [← hhistory]
            simp
          have hrest := quit_of_expected (hhistory.trans (sentTo_of_quit hmem hc)) hc
          refine ⟨?_, hnext⟩
          rw [← sentTo_of_quit hmem hc, ← hnext, hrest, List.append_nil]
      · next hc =>
          refine ⟨hnext, ?_⟩
          intro d hd
          rcases List.mem_append.mp hd with hd | hd
          · exact hquit d hd
          · rwa [List.mem_singleton.mp hd]
    · have hfacts := hs.facts i'
      rw [State.waitingFor, waiting_eq hqueue, ← hother _ (fun h => hi' (type_inj h))] at hfacts
      change Facts cfg i' s.parent ((ofType (i' + 1) rest).map Message.data)
        (Function.update s.child i _ i')
      rwa [Function.update_of_ne hi']

/-! ## The parent -/

/-- The parent goes on, and the queue is still there. -/
theorem Inv.of_parent (hs : Inv cfg s) {parent : Parent} {queue : List Msg}
    (hbound : ∀ k, parent = .sending k → k ≤ cfg.n)
    (htypes : ∀ msg ∈ queue, ∃ i : Fin N, msg.type = i + 1)
    (hforked : ∀ i, s.child i ≠ .notForked)
    (hsent : ∀ i, ∃ data, sentTo cfg i parent = sentTo cfg i s.parent ++ data ∧
      (ofType (i + 1) queue).map Message.data = s.waitingFor i ++ data) :
    Inv cfg { s with queue := some queue, parent } := by
  refine ⟨fun h => (by cases h), hbound, htypes, ?_⟩
  intro i
  have hfacts := hs.facts i
  obtain ⟨data, hdata, hqueue⟩ := hsent i
  have hnext : ∀ received, received ++ s.waitingFor i = sentTo cfg i s.parent →
      received ++ (ofType (i + 1) queue).map Message.data = sentTo cfg i parent := by
    intro received h
    rw [hqueue, hdata, ← List.append_assoc, h]
  change Facts cfg i parent ((ofType (i + 1) queue).map Message.data) (s.child i)
  cases hchild : s.child i with
  | notForked => exact absurd hchild (hforked i)
  | receiving received =>
      rw [hchild] at hfacts
      exact ⟨hnext received hfacts.1, hfacts.2⟩
  | exited received =>
      rw [hchild] at hfacts
      exact ⟨hfacts.1, hnext received hfacts.2⟩
  | failed received =>
      rw [hchild] at hfacts
      cases hfacts

theorem Inv.not_notForked (hs : Inv cfg s) (h : ∀ k, s.parent = .forking k → N ≤ k) (i : Fin N) :
    s.child i ≠ .notForked := by
  intro hchild
  have hfacts := hs.facts i
  rw [hchild] at hfacts
  obtain ⟨⟨k, hk, hparent⟩, -⟩ := hfacts
  exact absurd (hk.trans_lt i.isLt) (not_lt.mpr (h k hparent))

/-- The parent goes on without a message. -/
theorem Inv.of_move (hs : Inv cfg s) {parent : Parent} (hbefore : s.parent ≠ .exited)
    (hbound : ∀ k, parent = .sending k → k ≤ cfg.n)
    (hforked : ∀ k, s.parent = .forking k → N ≤ k)
    (hsent : ∀ i : Fin N, sentTo cfg i parent = sentTo cfg i s.parent) :
    Inv cfg { s with parent } := by
  obtain ⟨queue, hqueue⟩ := hs.queue_eq_some hbefore
  have hnext : Inv cfg { s with queue := some queue, parent } := by
    refine hs.of_parent hbound ?_ (hs.not_notForked hforked) ?_
    · rw [← waiting_eq hqueue]
      exact hs.types
    · intro i
      refine ⟨[], ?_, ?_⟩
      · rw [hsent, List.append_nil]
      · rw [State.waitingFor, waiting_eq hqueue, List.append_nil]
  rwa [← hqueue] at hnext

/-- The parent sends a message. -/
theorem Inv.of_send (hs : Inv cfg s) {parent : Parent} {msg : Msg} (i : Fin N)
    (htype : msg.type = i + 1) (hbound : ∀ k, parent = .sending k → k ≤ cfg.n)
    (hforked : ∀ k, s.parent = .forking k → N ≤ k)
    (hsent : ∀ i : Fin N, sentTo cfg i parent =
      sentTo cfg i s.parent ++ if msg.type = i + 1 then [msg.data] else [])
    (h : s.send cfg msg parent = some t) : Inv cfg t := by
  obtain ⟨queue, hqueue, h⟩ := Option.bind_eq_some_iff.mp h
  obtain ⟨queue', hqueue', h⟩ := Option.bind_eq_some_iff.mp h
  obtain ⟨-, rfl⟩ := msgsnd_eq_some.mp hqueue'
  obtain rfl := Option.some.inj h
  refine hs.of_parent hbound ?_ (hs.not_notForked hforked) ?_
  · intro msg' hmem
    rcases List.mem_append.mp hmem with hmem | hmem
    · exact hs.types msg' (by rwa [waiting_eq hqueue])
    · exact ⟨i, by rwa [List.mem_singleton.mp hmem]⟩
  · intro i'
    refine ⟨_, hsent i', ?_⟩
    rw [State.waitingFor, waiting_eq hqueue]
    split
    · next htype' => rw [ofType_append_self queue htype', List.map_append, List.map_singleton]
    · next htype' => rw [ofType_append_of_ne queue htype', List.append_nil]

theorem waiting_of_forking {k : ℕ} {waiting : List Data} {child : Child}
    (h : Facts cfg i (.forking k) waiting child) : waiting = [] := by
  cases child with
  | notForked => exact h.2
  | receiving received => exact (List.append_eq_nil_iff.mp h.1).2
  | exited received => exact (List.append_eq_nil_iff.mp h.2).2
  | failed received => cases h

/-- The parent creates a child. -/
theorem Inv.of_fork (hs : Inv cfg s) {k : ℕ} (hparent : s.parent = .forking k) (hk : k < N) :
    Inv cfg ({ s with parent := .forking (k + 1) }.goto ⟨k, hk⟩ (.receiving [])) := by
  refine ⟨?_, ?_, hs.types, ?_⟩
  · intro hqueue
    rw [hs.removed hqueue] at hparent
    cases hparent
  · intro k' h
    cases h
  · intro i
    have hfacts := hs.facts i
    rw [hparent] at hfacts
    change Facts cfg i (.forking (k + 1)) (s.waitingFor i) (Function.update s.child ⟨k, hk⟩ _ i)
    by_cases hi : i = ⟨k, hk⟩
    · rw [hi, Function.update_self, ← hi, waiting_of_forking hfacts]
      exact ⟨rfl, by simp⟩
    · rw [Function.update_of_ne hi]
      cases hchild : s.child i with
      | notForked =>
          rw [hchild] at hfacts
          obtain ⟨⟨k', hk', heq⟩, hwaiting⟩ := hfacts
          obtain rfl := Parent.forking.inj heq
          refine ⟨⟨k + 1, ?_, rfl⟩, hwaiting⟩
          exact Nat.lt_of_le_of_ne hk' fun h => hi (Fin.ext h.symm)
      | receiving received =>
          rw [hchild] at hfacts
          exact hfacts
      | exited received =>
          rw [hchild] at hfacts
          exact hfacts
      | failed received =>
          rw [hchild] at hfacts
          cases hfacts

/-- The parent ends, and removes the queue when it is empty. -/
theorem Inv.of_exit (hs : Inv cfg s) (hparent : s.parent = .exiting)
    (hempty : cfg.id > 0 → s.queue = some []) :
    Inv cfg ({ s with parent := .exited }.cleanupQueue cfg) := by
  have hnext : Inv cfg { s with parent := .exited } := by
    refine hs.of_move (by simp [hparent]) (by simp) (by simp [hparent]) ?_
    intro i
    rw [hparent]
    rfl
  unfold State.cleanupQueue
  split
  · next hid =>
      have hwaiting : s.waiting = [] := waiting_eq (hempty hid)
      refine ⟨fun _ => rfl, hnext.bound, by simp [State.waiting], ?_⟩
      intro i
      have hfacts := hnext.facts i
      change Facts cfg i .exited ((ofType (i + 1) s.waiting).map Message.data) (s.child i) at hfacts
      rwa [hwaiting] at hfacts
  · exact hnext

theorem Inv.of_parentStep (hs : Inv cfg s) (hallowed : Drained cfg s .parent)
    (h : parentStep cfg s = some t) : Inv cfg t := by
  unfold parentStep at h
  split at h
  · next k hparent =>
      split at h
      · next hk =>
          obtain rfl := Option.some.inj h
          exact hs.of_fork hparent hk
      · next hk =>
          obtain rfl := Option.some.inj h
          refine hs.of_move (by simp [hparent]) ?_ ?_ ?_
          · intro k' hk'
            rw [← Parent.sending.inj hk']
            exact Nat.zero_le _
          · intro k' hk'
            obtain rfl := Parent.forking.inj (hparent.symm.trans hk')
            exact not_lt.mp hk
          · intro i
            rw [hparent]
            rfl
  · next k hparent =>
      split at h
      · next hk =>
          refine hs.of_send ⟨k % 2, Nat.mod_lt k two_pos⟩ rfl ?_ (by simp [hparent]) ?_ h
          · intro k' hk'
            rw [← Parent.sending.inj hk']
            exact hk
          · intro i
            rw [hparent]
            exact sentData_succ k i
      · next hk =>
          obtain rfl := Option.some.inj h
          refine hs.of_move (by simp [hparent]) (by simp) (by simp [hparent]) ?_
          intro i
          obtain rfl : k = cfg.n := Nat.le_antisymm (hs.bound k hparent) (not_lt.mp hk)
          rw [hparent]
          rfl
  · next k hparent =>
      split at h
      · next hk =>
          refine hs.of_send ⟨k, hk⟩ rfl (by simp) (by simp [hparent]) ?_ h
          intro i
          rw [hparent]
          exact sentTo_quitting_succ k i
      · next hk =>
          obtain rfl := Option.some.inj h
          refine hs.of_move (by simp [hparent]) (by simp) (by simp [hparent]) ?_
          intro i
          rw [hparent]
          exact (if_pos (i.isLt.trans_le (not_lt.mp hk))).symm
  · next hparent =>
      obtain rfl := Option.some.inj h
      exact hs.of_exit hparent (hallowed hparent)
  · cases h

/-! ## Progress -/

/-- The steps that the parent still makes, twice for each message that it sends. -/
def Parent.rank (cfg : Config) : Parent → ℕ
  | .forking k => (N - k) + 2 * cfg.n + 2 * N + 4
  | .sending k => 2 * (cfg.n - k) + 2 * N + 3
  | .quitting k => 2 * (N - k) + 2
  | .exiting => 1
  | .exited => 0

def variant (cfg : Config) (s : State) : ℕ :=
  s.parent.rank cfg + s.waiting.length

theorem variant_childStep (hs : Inv cfg s) (h : childStep s i = some t) :
    variant cfg t < variant cfg s := by
  obtain ⟨received, queue, msg, rest, -, hqueue, hmsg, rfl⟩ := hs.childStep_eq_some h
  have hlength := (msgrcv_perm hmsg).2.length_eq
  change s.parent.rank cfg + rest.length < s.parent.rank cfg + s.waiting.length
  rw [waiting_eq hqueue, hlength, List.length_cons]
  omega

theorem variant_send {msg : Msg} {parent : Parent} (hrank : parent.rank cfg + 2 ≤ s.parent.rank cfg)
    (h : s.send cfg msg parent = some t) : variant cfg t < variant cfg s := by
  obtain ⟨queue, hqueue, h⟩ := Option.bind_eq_some_iff.mp h
  obtain ⟨queue', hqueue', h⟩ := Option.bind_eq_some_iff.mp h
  obtain ⟨-, rfl⟩ := msgsnd_eq_some.mp hqueue'
  obtain rfl := Option.some.inj h
  change parent.rank cfg + (queue ++ [msg]).length < s.parent.rank cfg + s.waiting.length
  rw [waiting_eq hqueue, List.length_append, List.length_singleton]
  omega

theorem variant_parentStep (h : parentStep cfg s = some t) : variant cfg t < variant cfg s := by
  unfold parentStep at h
  split at h
  · next k hparent =>
      split at h
      · next hk =>
          obtain rfl := Option.some.inj h
          simp only [variant, hparent, State.goto, State.waiting, Parent.rank]
          omega
      · obtain rfl := Option.some.inj h
        simp only [variant, hparent, State.waiting, Parent.rank]
        omega
  · next k hparent =>
      split at h
      · refine variant_send ?_ h
        simp only [hparent, Parent.rank]
        omega
      · obtain rfl := Option.some.inj h
        simp only [variant, hparent, State.waiting, Parent.rank]
        omega
  · next k hparent =>
      split at h
      · refine variant_send ?_ h
        simp only [hparent, Parent.rank]
        omega
      · obtain rfl := Option.some.inj h
        simp only [variant, hparent, State.waiting, Parent.rank]
        omega
  · next hparent =>
      obtain rfl := Option.some.inj h
      have hwaiting : ({ s with parent := .exited }.cleanupQueue cfg).waiting.length ≤
          s.waiting.length := by
        unfold State.cleanupQueue
        split
        · exact Nat.zero_le _
        · exact le_rfl
      have hexited : ({ s with parent := .exited }.cleanupQueue cfg).parent = .exited := by
        unfold State.cleanupQueue
        split <;> rfl
      simp only [variant, hparent, hexited, Parent.rank]
      omega
  · cases h

/-- A message in the queue is for a child that takes it. -/
theorem Inv.child_takes (hs : Inv cfg s) (h : s.waiting ≠ []) :
    ∃ i t, childStep s i = some t := by
  obtain ⟨msg, hmem⟩ := List.exists_mem_of_ne_nil _ h
  obtain ⟨i, htype⟩ := hs.types msg hmem
  obtain ⟨received, hchild⟩ := hs.receiving_of_mem hmem htype
  refine ⟨i, Option.ne_none_iff_exists'.mp ?_⟩
  intro hnone
  simp only [childStep, hchild] at hnone
  cases hqueue : s.queue with
  | none =>
      rw [hqueue] at hnone
      cases hnone
  | some queue =>
      rw [hqueue] at hnone
      rw [waiting_eq hqueue] at hmem
      exact msgrcv_eq_none.mp (Option.map_eq_none_iff.mp hnone) msg hmem htype

/-- The parent sends a message unless the queue is full. -/
theorem Inv.send_or_takes (hs : Inv cfg s) (hopen : s.parent ≠ .exited) (msg : Msg)
    (parent : Parent) : (∃ t, s.send cfg msg parent = some t) ∨ s.waiting ≠ [] := by
  obtain ⟨queue, hqueue⟩ := hs.queue_eq_some hopen
  by_cases hempty : s.waiting = []
  · refine .inl ⟨{ s with queue := some [msg], parent }, ?_⟩
    rw [waiting_eq hqueue] at hempty
    simp [State.send, hqueue, hempty, msgsnd, cfg.capacity_pos]
  · exact .inr hempty

/-- The parent has ended, and each child with all that was meant for it. -/
def Delivered (cfg : Config) (s : State) : Prop :=
  s.parent = .exited ∧ ∀ i, s.child i = .exited (expected cfg i)

theorem Inv.delivered (hs : Inv cfg s) (hparent : s.parent = .exited) (hwaiting : s.waiting = []) :
    Delivered cfg s := by
  refine ⟨hparent, ?_⟩
  intro i
  have hfacts := hs.facts i
  rw [hparent, State.waitingFor, hwaiting] at hfacts
  cases hchild : s.child i with
  | notForked => exact absurd hchild (hs.not_notForked (by simp [hparent]) i)
  | receiving received =>
      rw [hchild] at hfacts
      exact absurd hfacts.1 (not_receiving_of_expected hfacts.2)
  | exited received =>
      rw [hchild] at hfacts
      rw [hfacts.1]
  | failed received =>
      rw [hchild] at hfacts
      cases hfacts

theorem Inv.progress (hs : Inv cfg s) :
    Delivered cfg s ∨ ∃ t, ActsWithin (Drained cfg) (next cfg) s t := by
  have hchild : s.waiting ≠ [] → ∃ t, ActsWithin (Drained cfg) (next cfg) s t := by
    intro h
    obtain ⟨i, t, ht⟩ := hs.child_takes h
    exact ⟨t, .child i, trivial, ht⟩
  have hparent : s.parent ≠ .exiting → (∃ t, parentStep cfg s = some t) →
      ∃ t, ActsWithin (Drained cfg) (next cfg) s t := by
    intro hne ⟨t, ht⟩
    exact ⟨t, .parent, fun h => absurd h hne, ht⟩
  cases hstate : s.parent with
  | forking k =>
      refine .inr (hparent (by simp [hstate]) ?_)
      by_cases hk : k < N
      · simp [parentStep, hstate, hk]
      · simp [parentStep, hstate, hk]
  | sending k =>
      rcases hs.send_or_takes (by simp [hstate]) (message k) (.sending (k + 1)) with ⟨t, ht⟩ | h
      · refine .inr (hparent (by simp [hstate]) ?_)
        by_cases hk : k < cfg.n
        · exact ⟨t, by simp [parentStep, hstate, hk, ht]⟩
        · simp [parentStep, hstate, hk]
      · exact .inr (hchild h)
  | quitting k =>
      rcases hs.send_or_takes (by simp [hstate]) (quit cfg k) (.quitting (k + 1)) with ⟨t, ht⟩ | h
      · refine .inr (hparent (by simp [hstate]) ?_)
        by_cases hk : k < N
        · exact ⟨t, by simp [parentStep, hstate, hk, ht]⟩
        · simp [parentStep, hstate, hk]
      · exact .inr (hchild h)
  | exiting =>
      by_cases hwaiting : s.waiting = []
      · obtain ⟨queue, hqueue⟩ := hs.queue_eq_some (by simp [hstate])
        rw [waiting_eq hqueue] at hwaiting
        subst hwaiting
        exact .inr ⟨_, .parent, fun _ _ => hqueue, by rw [next, parentStep, hstate]⟩
      · exact .inr (hchild hwaiting)
  | exited =>
      by_cases hwaiting : s.waiting = []
      · exact .inl (hs.delivered hstate hwaiting)
      · exact .inr (hchild hwaiting)

theorem Inv.of_next {action : Action} (hs : Inv cfg s) (hallowed : Drained cfg s action)
    (h : next cfg s action = some t) : Inv cfg t ∧ variant cfg t < variant cfg s := by
  cases action with
  | parent => exact ⟨hs.of_parentStep hallowed h, variant_parentStep h⟩
  | child i => exact ⟨hs.of_childStep h, variant_childStep hs h⟩

/-! ## The runs -/

/-- Every child gets its messages if the queue is only removed when it is empty. -/
theorem receives_all (cfg : Config) :
    Leads (ActsWithin (Drained cfg) (next cfg)) (Delivered cfg) start ∧
      Always (ActsWithin (Drained cfg) (next cfg)) (fun s => ∀ i received, s.child i ≠ .failed received)
        start := by
  constructor
  · refine Leads.of_variant (I := Inv cfg) (variant cfg) (fun s hs => hs.progress) ?_ start
      (inv_start cfg)
    intro s t hs ⟨action, hallowed, hnext⟩
    exact .inr (hs.of_next hallowed hnext)
  · refine Always.of_actions (inv_start cfg) (fun s t action hs hallowed hnext =>
      (hs.of_next hallowed hnext).1) ?_
    intro s hs i received hchild
    have hfacts := hs.facts i
    rw [hchild] at hfacts
    cases hfacts

/-- The removal of a queue that is not empty is the end of a child that waits for a message. -/
theorem Inv.fails_of_removed (hs : Inv cfg s) (hparent : s.parent = .exiting) (hid : cfg.id > 0)
    (hwaiting : s.waiting ≠ []) : ∃ t, parentStep cfg s = some t ∧
      ∃ i received, t.child i = .receiving received ∧
        childStep t i = some (t.goto i (.failed received)) := by
  obtain ⟨msg, hmem⟩ := List.exists_mem_of_ne_nil _ hwaiting
  obtain ⟨i, htype⟩ := hs.types msg hmem
  obtain ⟨received, hchild⟩ := hs.receiving_of_mem hmem htype
  refine ⟨{ s with queue := none, parent := .exited }, ?_, i, received, hchild, ?_⟩
  · rw [parentStep, hparent]
    exact congrArg some (if_pos hid)
  · simp only [childStep, hchild]

/-- The parent comes to its end before the children receive anything. -/
def undelivered : List Action :=
  List.replicate 108 .parent ++ [.child ⟨0, by decide⟩]

theorem child_fails : ∃ cfg, cfg.n = 100 ∧ ∃ t, Reaches (Step cfg) start t ∧
    t.child ⟨0, by decide⟩ = .failed [] := by
  let cfg : Config := ⟨100, 1, 819, by decide, ⟨'C', 0, 0⟩⟩
  have hrun : (runActions (next cfg) start undelivered).map (fun t => t.child ⟨0, by decide⟩) =
      some (.failed []) := by
    decide +kernel
  obtain ⟨t, ht, hchild⟩ := Option.map_eq_some_iff.mp hrun
  exact ⟨cfg, rfl, t, reaches_of_runActions ht, hchild⟩

end SysProg.OneSender
