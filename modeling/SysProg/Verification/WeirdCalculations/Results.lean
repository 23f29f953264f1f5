import SysProg.Verification.WeirdCalculations.Dialogue

/-! # All clients and the squarer

In every run each client gets the squares of exactly the numbers that it sends, one after the other,
and nothing after it has stopped. The squarer squares what the clients have ordered. -/

namespace SysProg.WeirdCalculations

/-! ## Each client -/

/-- What holds of a client for every interleaving with the others. -/
structure Orderly (s : State) (i : ℕ) (client : Client) : Prop where
  favoriteNumber : 50 ≤ client.favoriteNumber ∧ client.favoriteNumber < 150
  starting : client.status = .starting → client.log = []
  running : client.status = .running → ∃ waitsFor, Talk client.favoriteNumber waitsFor client.log
  stopped : client.status = .stopped → client.mailbox = [] ∧
    ∃ waitsFor log, Talk client.favoriteNumber waitsFor log ∧ client.log = log ++ [.goodBye]
  /-- The dialogue goes on while there is a squarer. Besides there is the pill, once the main
  thread has scheduled it. -/
  underway : client.status = .running → s.squarer.running → ∃ waitsFor msg,
    Talk client.favoriteNumber waitsFor client.log ∧ Token waitsFor msg ∧
      ofClient i s.squarer.mailbox + client.mailbox + ofClient i s.scheduler =
        msg ::ₘ pill (s.main.pilled i)
  poisoned : client.status ≠ .stopped → s.main.pilled i = true →
    .PoisonPill ∈ (client.mailbox : Multiset Message) + ofClient i s.scheduler
  /-- Until then nothing stops the client. -/
  unpilled : s.main.pilled i = false → client.status ≠ .stopped
  orders : ∀ msg ∈ ofClient i s.squarer.mailbox, ∃ x, msg = .OrderSquare x

theorem view_start (i : ℕ) (commands : List String) : (view i (start commands)).Inv :=
  ⟨⟨nofun, nofun⟩, fun _ => ⟨rfl, rfl, rfl⟩, nofun⟩

theorem always_inv (commands : List String) :
    Always Step (fun s => ∀ i, (view i s).Inv) (start commands) := by
  refine Always.of_invariant (view_start · commands) ?_ fun _ h => h
  intro s t h ⟨action, hstep⟩ i
  exact (h i).step (step_view i hstep)

theorem Going.orderly {s : State} {i : ℕ} {client : Client}
    (hplaced : Placed (ofClient i s.squarer.mailbox) (ofClient i s.scheduler))
    (hfn : 50 ≤ client.favoriteNumber ∧ client.favoriteNumber < 150)
    (h : Going s.squarer.running (s.main.pilled i)
      (ofClient i s.squarer.mailbox + client.mailbox + ofClient i s.scheduler) client) :
    Orderly s i client := by
  have hpoisoned (hmem : .PoisonPill ∈
      ofClient i s.squarer.mailbox + client.mailbox + ofClient i s.scheduler) :
      .PoisonPill ∈ (client.mailbox : Multiset Message) + ofClient i s.scheduler := by
    rw [add_assoc] at hmem
    refine (Multiset.mem_add.mp hmem).resolve_left ?_
    intro hmem
    obtain ⟨x, hx⟩ := hplaced.orders _ hmem
    cases hx
  cases h with
  | starting hpending =>
      refine ⟨hfn, fun _ => rfl, nofun, nofun, nofun, fun _ hpilled => hpoisoned ?_, nofun,
        hplaced.orders⟩
      simp [hpending, pill, hpilled]
  | running waitsFor msg htalk htoken hmailbox hpending =>
      refine ⟨hfn, nofun, fun _ => ⟨waitsFor, htalk⟩, nofun,
        fun _ _ => ⟨waitsFor, msg, htalk, htoken, hpending⟩, fun _ hpilled => hpoisoned ?_, nofun,
        hplaced.orders⟩
      simp [hpending, pill, hpilled]
  | unanswered x htalk hanswers hpending =>
      refine ⟨hfn, nofun, fun _ => ⟨some x, htalk⟩, nofun, ?_, fun _ hpilled => hpoisoned ?_, nofun,
        hplaced.orders⟩
      · intro _ hrunning
        rw [hanswers] at hrunning
        cases hrunning
      · simp [hpending, pill, hpilled]
  | stopped waitsFor htalk hpilled =>
      refine ⟨hfn, nofun, nofun, fun _ => ⟨rfl, waitsFor, _, htalk, rfl⟩, nofun,
        fun h => absurd rfl h, ?_, hplaced.orders⟩
      intro hunpilled
      rw [hpilled] at hunpilled
      cases hunpilled

/-- Whatever the users enter and however the actors and the scheduler interleave, each client is in
an orderly dialogue with the squarer. -/
theorem clients_orderly (commands : List String) :
    Always Step (fun s => ∀ i client, s.clients[i]? = some client → Orderly s i client)
      (start commands) := by
  intro s hrun i client hclient
  obtain ⟨hplaced, -, hsome⟩ := always_inv commands s hrun i
  obtain ⟨hlow, hhigh, hgoing⟩ := hsome client hclient
  exact hgoing.orderly hplaced ⟨hlow, hhigh⟩

/-! ## The squarer -/

/-- The numbers that a client has ordered. -/
def orderedBy (fn : ℤ) (log : List ClientLog) : List ℤ :=
  log.filterMap fun
    | .created => some fn
    | .sending x => some x
    | _ => none

def Client.ordered (client : Client) : Multiset ℤ :=
  orderedBy client.favoriteNumber client.log

/-- The numbers that have been ordered by all clients. -/
def ordered (clients : List Client) : Multiset ℤ :=
  (clients.map Client.ordered).sum

theorem ordered_set {clients : List Client} {i : ℕ} {client : Client}
    (hclient : clients[i]? = some client) {client' : Client} {more : Multiset ℤ}
    (h : client'.ordered = client.ordered + more) :
    ordered (clients.set i client') = ordered clients + more := by
  induction clients generalizing i with
  | nil => cases hclient
  | cons first clients ih =>
      cases i with
      | zero =>
          obtain rfl := Option.some.inj hclient
          simp only [ordered, List.set_cons_zero, List.map_cons, List.sum_cons, h]
          abel
      | succ i =>
          have hrest := ih hclient
          simp only [ordered, List.set_cons_succ, List.map_cons, List.sum_cons] at hrest ⊢
          rw [hrest, add_assoc]

@[simp] theorem ordered_tell (msg : Message) (client : Client) :
    (client.tell msg).ordered = client.ordered := by
  rw [Client.tell]
  split <;> rfl

theorem ordered_modify (clients : List Client) (i : ℕ) (msg : Message) :
    ordered (clients.modify i (Client.tell msg)) = ordered clients := by
  induction clients generalizing i with
  | nil => rw [List.modify_nil]
  | cons first clients ih =>
      cases i with
      | zero => simp [ordered]
      | succ i =>
          have hrest := ih i
          simp only [ordered, List.modify_succ_cons, List.map_cons, List.sum_cons] at hrest ⊢
          rw [hrest]

/-- The squarer has squared the numbers `xs`, and `ys` are the ones that wait. -/
structure Accounts (s : State) (xs ys : List ℤ) : Prop where
  log : s.squarer.log = xs.map fun x => .squaring (squareMsg x)
  mailbox : s.squarer.mailbox.map Prod.snd = ys.map .OrderSquare
  total : s.squarer.running → ordered s.clients = (xs : Multiset ℤ) + ys
  squared : xs ≤ ordered s.clients

variable {s t : State} {xs ys : List ℤ} {i : ℕ}

/-- The clients change without ordering anything. -/
theorem Accounts.frame (h : Accounts s xs ys) {t : State} (hsquarer : t.squarer = s.squarer)
    (hclients : ordered t.clients = ordered s.clients) :
    Accounts t xs ys := by
  obtain ⟨hlog, hmailbox, htotal, hsquared⟩ := h
  rw [← hsquarer] at hlog hmailbox htotal
  rw [← hclients] at htotal hsquared
  exact ⟨hlog, hmailbox, htotal, hsquared⟩

theorem Accounts.order (h : Accounts s xs ys) {t : State} (l : List ℤ)
    (hsquarer : t.squarer =
      (l.map .OrderSquare).foldl (fun squarer msg => squarer.tell i msg) s.squarer)
    (hclients : ordered t.clients = ordered s.clients + l) :
    ∃ ys, Accounts t xs ys := by
  obtain ⟨hlog, hmailbox, htotal, hsquared⟩ := h
  rw [foldl_tell] at hsquarer
  have hle : xs ≤ ordered t.clients := by
    rw [hclients]
    exact hsquared.trans (Multiset.le_add_right _ _)
  cases hrunning : s.squarer.running with
  | false =>
      refine ⟨ys, ?_, ?_, ?_, hle⟩
      · rw [hsquarer, hlog]
      · simp [hsquarer, hrunning, hmailbox]
      · intro h
        simp [hsquarer, hrunning] at h
  | true =>
      refine ⟨ys ++ l, ?_, ?_, ?_, hle⟩
      · rw [hsquarer, hlog]
      · simp [hsquarer, hrunning, hmailbox, Function.comp_def]
      · intro _
        rw [hclients, htotal hrunning, ← Multiset.coe_add, add_assoc]

/-! ### The steps -/

theorem orderedBy_append (fn : ℤ) (log more : List ClientLog) :
    orderedBy fn (log ++ more) = orderedBy fn log ++ orderedBy fn more :=
  List.filterMap_append

theorem receive_orders (fn : ℤ) (currentTimeMillis : ℕ) (msg : Message) :
    (Client.receive fn currentTimeMillis msg).orders =
      (orderedBy fn (Client.receive fn currentTimeMillis msg).log).map .OrderSquare := by
  cases msg <;> rfl

theorem ordered_stop (client : Client) : client.stop.ordered = client.ordered := by
  simp [Client.ordered, Client.stop, orderedBy]

theorem ordered_set_stop {clients : List Client} {client : Client}
    (hclient : clients[i]? = some client) :
    ordered (clients.set i client.stop) = ordered clients := by
  have hstop : client.stop.ordered = client.ordered + 0 := by rw [ordered_stop, add_zero]
  exact (ordered_set hclient hstop).trans (add_zero _)

theorem Accounts.command (h : Accounts s xs ys) {currentTimeMillis : ℕ}
    (hstep : WeirdCalculations.command currentTimeMillis s = some t) : Accounts t xs ys := by
  unfold WeirdCalculations.command at hstep
  split at hstep
  · obtain rfl := Option.some.inj hstep
    exact h
  · obtain rfl := Option.some.inj hstep
    refine h.frame rfl ?_
    simp [WeirdCalculations.ordered, Client.ordered, orderedBy]
  · obtain rfl := Option.some.inj hstep
    exact h.frame rfl rfl
  · obtain rfl := Option.some.inj hstep
    exact h.frame rfl rfl
  · cases hstep

theorem Accounts.scheduleOnce (h : Accounts s xs ys)
    (hstep : WeirdCalculations.scheduleOnce s = some t) : Accounts t xs ys := by
  unfold WeirdCalculations.scheduleOnce at hstep
  split at hstep
  · obtain rfl := Option.some.inj hstep
    exact h.frame rfl rfl
  · cases hstep

theorem Accounts.create (h : Accounts s xs ys) {client : Client}
    (hclient : s.clients[i]? = some client)
    (hstep : WeirdCalculations.create i client s = some t) : ∃ ys, Accounts t xs ys := by
  obtain ⟨-, hstep⟩ := Option.ite_none_right_eq_some.mp hstep
  obtain rfl := Option.some.inj hstep
  refine h.order (i := i) [client.favoriteNumber] rfl (ordered_set hclient ?_)
  rw [Client.ordered, Client.ordered, orderedBy_append, ← Multiset.coe_add]
  rfl

theorem Accounts.receive (h : Accounts s xs ys) {client : Client} {currentTimeMillis : ℕ}
    (hclient : s.clients[i]? = some client)
    (hstep : WeirdCalculations.receive i currentTimeMillis client s = some t) :
    ∃ ys, Accounts t xs ys := by
  unfold WeirdCalculations.receive at hstep
  split at hstep
  · obtain rfl := Option.some.inj hstep
    exact ⟨ys, h.frame rfl (ordered_set_stop hclient)⟩
  · next msg mailbox _ _ _ =>
      obtain rfl := Option.some.inj hstep
      refine h.order (i := i) (orderedBy client.favoriteNumber
        (Client.receive client.favoriteNumber currentTimeMillis msg).log) ?_
        (ordered_set hclient ?_)
      · simp only [receive_orders]
      · simp [Client.ordered, orderedBy_append]
  · cases hstep

/-- The squarer gets orders only. -/
theorem Accounts.square (h : Accounts s xs ys) (hstep : WeirdCalculations.square s = some t) :
    ∃ xs ys, Accounts t xs ys := by
  obtain ⟨hlog, hmailbox, htotal, hsquared⟩ := h
  unfold WeirdCalculations.square at hstep
  split at hstep
  · next sender msg mailbox hrunning hcons =>
      obtain rfl := Option.some.inj hstep
      rw [hcons] at hmailbox
      cases ys with
      | nil => cases hmailbox
      | cons y ys =>
          obtain ⟨hmsg, hrest⟩ := List.cons.inj hmailbox
          simp only at hmsg
          subst hmsg
          have hclients : ordered (tellSender sender
              (Squarer.receive (.OrderSquare y)).2 s.clients) = ordered s.clients :=
            ordered_modify s.clients sender _
          have heq : ((xs ++ [y] : List ℤ) : Multiset ℤ) + ys = xs + ((y :: ys : List ℤ)) := by
            simp [← Multiset.coe_add, add_assoc]
          refine ⟨xs ++ [y], ys, ?_, hrest, ?_, ?_⟩
          · simp [hlog, Squarer.receive]
          · intro _
            rw [hclients, htotal hrunning, heq]
          · rw [hclients, htotal hrunning, ← heq]
            exact Multiset.le_add_right _ _
  · cases hstep

theorem Accounts.fire (h : Accounts s xs ys) {msg : Message}
    (hstep : WeirdCalculations.fire i msg s = some t) : Accounts t xs ys := by
  obtain ⟨-, hstep⟩ := Option.ite_none_right_eq_some.mp hstep
  obtain rfl := Option.some.inj hstep
  exact h.frame rfl (ordered_modify s.clients i msg)

theorem Accounts.stopClient (h : Accounts s xs ys) {client : Client}
    (hclient : s.clients[i]? = some client)
    (hstep : WeirdCalculations.stopClient i client s = some t) : Accounts t xs ys := by
  obtain ⟨-, hstep⟩ := Option.ite_none_right_eq_some.mp hstep
  obtain rfl := Option.some.inj hstep
  exact h.frame rfl (ordered_set_stop hclient)

theorem Accounts.stopSquarer (h : Accounts s xs ys)
    (hstep : WeirdCalculations.stopSquarer s = some t) : Accounts t xs [] := by
  obtain ⟨-, hstep⟩ := Option.ite_none_right_eq_some.mp hstep
  obtain rfl := Option.some.inj hstep
  exact ⟨h.log, rfl, nofun, h.squared⟩

theorem Accounts.step {action : Action} (h : Accounts s xs ys)
    (hstep : WeirdCalculations.step s action = some t) : ∃ xs ys, Accounts t xs ys := by
  cases action with
  | command currentTimeMillis => exact ⟨xs, ys, h.command hstep⟩
  | scheduleOnce => exact ⟨xs, ys, h.scheduleOnce hstep⟩
  | create j =>
      obtain ⟨client, hclient, hstep⟩ := Option.bind_eq_some_iff.mp hstep
      exact ⟨xs, h.create hclient hstep⟩
  | client j currentTimeMillis =>
      obtain ⟨client, hclient, hstep⟩ := Option.bind_eq_some_iff.mp hstep
      exact ⟨xs, h.receive hclient hstep⟩
  | squarer => exact h.square hstep
  | fire j msg => exact ⟨xs, ys, h.fire hstep⟩
  | stopClient j =>
      obtain ⟨client, hclient, hstep⟩ := Option.bind_eq_some_iff.mp hstep
      exact ⟨xs, ys, h.stopClient hclient hstep⟩
  | stopSquarer => exact ⟨xs, [], h.stopSquarer hstep⟩

/-- No order is lost or squared twice: what the squarer has squared and what waits for it is what
all clients have ordered. After the squarer has stopped, what it has squared is a part of that. -/
theorem squarer_squares_orders (commands : List String) :
    Always Step (fun s => ∃ xs ys, Accounts s xs ys) (start commands) := by
  refine Always.of_invariant ⟨[], [], rfl, rfl, fun _ => rfl, Multiset.zero_le _⟩ ?_ fun _ h => h
  intro s t ⟨xs, ys, h⟩ ⟨action, hstep⟩
  exact h.step hstep

end SysProg.WeirdCalculations
