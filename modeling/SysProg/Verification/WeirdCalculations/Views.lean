import SysProg.Model.WeirdCalculations

/-! # What a client sees of the system

A step of the system is a step of the client, something that happens to its messages, or nothing
at all for it. -/

namespace SysProg.WeirdCalculations

/-- The messages to or from a client. -/
def ofClient (i : ℕ) (messages : List (ℕ × Message)) : Multiset Message :=
  ((messages.filter (·.1 = i)).map Prod.snd : List Message)

/-- The main thread has no `PoisonPill` to schedule for the client. -/
def Main.pilled (i : ℕ) : Main → Bool
  | .created client _ => client != i
  | _ => true

/-- A client with its orders in the mailbox of the squarer, with what is scheduled for it, whether
the squarer is running, and whether the main thread has done with it. -/
structure View where
  client : Option Client
  orders : Multiset Message
  scheduled : Multiset Message
  answers : Bool
  pilled : Bool

def view (i : ℕ) (s : State) : View :=
  ⟨s.clients[i]?, ofClient i s.squarer.mailbox, ofClient i s.scheduler, s.squarer.running,
    s.main.pilled i⟩

/-- The messages that get to the squarer. -/
def told (answers : Bool) (messages : List Message) : Multiset Message :=
  if answers then messages else 0

inductive ViewStep : View → View → Prop
  | stay (v : View) : ViewStep v v
  | new {orders scheduled : Multiset Message} {answers : Bool} (fn : ℤ) (hlow : 50 ≤ fn)
      (hhigh : fn < 150) :
      ViewStep ⟨none, orders, scheduled, answers, true⟩
        ⟨some ⟨fn, .starting, [], []⟩, orders, scheduled, answers, false⟩
  | pill {client : Option Client} {orders scheduled : Multiset Message} {answers : Bool} :
      ViewStep ⟨client, orders, scheduled, answers, false⟩
        ⟨client, orders, .PoisonPill ::ₘ scheduled, answers, true⟩
  | create {orders scheduled : Multiset Message} {answers pilled : Bool} (client : Client)
      (h : client.status = .starting) :
      ViewStep ⟨some client, orders, scheduled, answers, pilled⟩
        ⟨some { client with status := .running, log := client.log ++ [.created] },
          orders + told answers [.OrderSquare client.favoriteNumber], scheduled, answers, pilled⟩
  | stop {orders scheduled : Multiset Message} {answers pilled : Bool} (client : Client)
      (h : client.status = .running)
      (hpilled : .PoisonPill ∈ client.mailbox ∨ pilled = true) :
      ViewStep ⟨some client, orders, scheduled, answers, pilled⟩
        ⟨some client.stop, orders, scheduled, answers, pilled⟩
  | receive {orders scheduled : Multiset Message} {answers pilled : Bool} (client : Client)
      (msg : Message) (mailbox : List Message) (currentTimeMillis : ℕ)
      (h : client.status = .running) (hmailbox : client.mailbox = msg :: mailbox)
      (hmsg : msg ≠ .PoisonPill) :
      ViewStep ⟨some client, orders, scheduled, answers, pilled⟩
        ⟨some { client with
            mailbox
            log := client.log ++
              (Client.receive client.favoriteNumber currentTimeMillis msg).log },
          orders + told answers (Client.receive client.favoriteNumber currentTimeMillis msg).orders,
          scheduled + (Client.receive client.favoriteNumber currentTimeMillis msg).scheduled,
          answers, pilled⟩
  | square {client : Option Client} {orders scheduled : Multiset Message} {pilled : Bool}
      (msg : Message) :
      ViewStep ⟨client, msg ::ₘ orders, scheduled, true, pilled⟩
        ⟨(Squarer.receive msg).2.elim client fun answer => client.map (Client.tell answer), orders,
          scheduled, true, pilled⟩
  | fire {client : Option Client} {orders scheduled : Multiset Message} {answers pilled : Bool}
      (msg : Message) :
      ViewStep ⟨client, orders, msg ::ₘ scheduled, answers, pilled⟩
        ⟨client.map (Client.tell msg), orders, scheduled, answers, pilled⟩
  | stopSquarer {client : Option Client} {orders scheduled : Multiset Message} {pilled : Bool} :
      ViewStep ⟨client, orders, scheduled, true, pilled⟩ ⟨client, 0, scheduled, false, pilled⟩

/-! ## The messages of one client among those of all -/

variable {i j : ℕ} {messages : List (ℕ × Message)} {msg : Message}

theorem ofClient_append (more : List (ℕ × Message)) :
    ofClient i (messages ++ more) = ofClient i messages + ofClient i more := by
  simp [ofClient]

@[simp] theorem ofClient_self (l : List Message) : ofClient i (l.map (i, ·)) = l := by
  simp [ofClient, List.filter_map, Function.comp_def]

theorem ofClient_of_ne (h : j ≠ i) (l : List Message) : ofClient i (l.map (j, ·)) = 0 := by
  simp [ofClient, List.filter_map, Function.comp_def, h]

theorem ofClient_cons_self : ofClient i ((i, msg) :: messages) = msg ::ₘ ofClient i messages := by
  simp [ofClient]

theorem ofClient_cons_of_ne (h : j ≠ i) :
    ofClient i ((j, msg) :: messages) = ofClient i messages := by
  simp [ofClient, h]

theorem ofClient_perm {more : List (ℕ × Message)} (h : messages.Perm more) :
    ofClient i messages = ofClient i more :=
  Multiset.coe_eq_coe.mpr ((h.filter _).map _)

/-- All that a client orders at once. -/
theorem foldl_tell (squarer : Squarer) (l : List Message) :
    l.foldl (fun squarer msg => squarer.tell i msg) squarer =
      { squarer with
        mailbox := squarer.mailbox ++ if squarer.running then l.map (i, ·) else [] } := by
  induction l generalizing squarer with
  | nil => simp
  | cons msg l ih =>
      rw [List.foldl_cons, ih, Squarer.tell]
      split
      · next hrunning => simp [hrunning]
      · next hrunning => simp [hrunning]

theorem ofClient_told_self (answers : Bool) (l : List Message) :
    ofClient i (if answers then l.map (i, ·) else []) = told answers l := by
  cases answers with
  | false => rfl
  | true => exact ofClient_self l

theorem ofClient_told_of_ne (h : j ≠ i) (answers : Bool) (l : List Message) :
    ofClient i (if answers then l.map (j, ·) else []) = 0 := by
  cases answers with
  | false => rfl
  | true => exact ofClient_of_ne h l

theorem tell_eq (squarer : Squarer) (msg : Message) :
    squarer.tell i msg = { squarer with
      mailbox := squarer.mailbox ++ if squarer.running then [msg].map (i, ·) else [] } :=
  foldl_tell squarer [msg]

/-! ## Every step is a step for each client -/

variable {s t : State}

theorem view_set_of_ne (h : j ≠ i) (client : Client) :
    view i { s with clients := s.clients.set j client } = view i s := by
  simp [view, h]

theorem command_view {currentTimeMillis : ℕ} (h : command currentTimeMillis s = some t) :
    ViewStep (view i s) (view i t) := by
  unfold command at h
  split at h
  · obtain rfl := Option.some.inj h
    exact .stay _
  · next commands hmain =>
      obtain rfl := Option.some.inj h
      have hlow : (50 : ℤ) ≤ (currentTimeMillis * 731 % 100 + 50 : ℕ) := by omega
      have hhigh : ((currentTimeMillis * 731 % 100 + 50 : ℕ) : ℤ) < 150 := by omega
      simp only [view, hmain, Main.pilled]
      by_cases hi : s.clients.length = i
      · subst hi
        rw [List.getElem?_concat_length, List.getElem?_eq_none le_rfl, bne_self_eq_false]
        exact .new _ hlow hhigh
      · have hget (client : Client) : (s.clients ++ [client])[i]? = s.clients[i]? := by
          rcases Nat.lt_or_gt_of_ne hi with hlt | hgt
          · rw [List.getElem?_eq_none (by simpa using hlt), List.getElem?_eq_none hlt.le]
          · exact List.getElem?_append_left hgt
        rw [hget, bne_iff_ne.mpr hi]
        exact .stay _
  · next hmain =>
      obtain rfl := Option.some.inj h
      simp only [view, hmain, Main.pilled]
      exact .stay _
  · next hmain =>
      obtain rfl := Option.some.inj h
      simp only [view, hmain, Main.pilled]
      exact .stay _
  · cases h

theorem scheduleOnce_view (h : scheduleOnce s = some t) : ViewStep (view i s) (view i t) := by
  unfold scheduleOnce at h
  split at h
  · next client commands hmain =>
      obtain rfl := Option.some.inj h
      simp only [view, hmain, Main.pilled, ofClient_append]
      by_cases hi : client = i
      · subst hi
        have hself := ofClient_self (i := client) [.PoisonPill]
        rw [List.map_singleton] at hself
        rw [hself, bne_self_eq_false, Multiset.add_comm, Multiset.coe_singleton,
          Multiset.singleton_add]
        exact .pill
      · have hne := ofClient_of_ne hi [.PoisonPill]
        rw [List.map_singleton] at hne
        rw [hne, add_zero, bne_iff_ne.mpr hi]
        exact .stay _
  · cases h

theorem create_view {client : Client} (hclient : s.clients[j]? = some client)
    (h : create j client s = some t) : ViewStep (view i s) (view i t) := by
  obtain ⟨hstatus, h⟩ := Option.ite_none_right_eq_some.mp h
  obtain rfl := Option.some.inj h
  by_cases hi : j = i
  · subst hi
    have hlt := (List.getElem?_eq_some_iff.mp hclient).1
    simp only [view, tell_eq, ofClient_append, ofClient_told_self,
      List.getElem?_set_self hlt, hclient]
    exact .create client hstatus
  · simp only [view, tell_eq, ofClient_append, ofClient_told_of_ne hi, add_zero,
      List.getElem?_set_ne hi]
    exact .stay _

theorem receive_view {currentTimeMillis : ℕ} {client : Client}
    (hclient : s.clients[j]? = some client) (h : receive j currentTimeMillis client s = some t) :
    ViewStep (view i s) (view i t) := by
  unfold receive at h
  split at h
  · next hstatus hmailbox =>
      obtain rfl := Option.some.inj h
      by_cases hi : j = i
      · subst hi
        have hlt := (List.getElem?_eq_some_iff.mp hclient).1
        simp only [view, List.getElem?_set_self hlt, hclient]
        refine .stop client hstatus (.inl ?_)
        rw [hmailbox]
        exact List.mem_cons_self
      · rw [view_set_of_ne hi]
        exact .stay _
  · next msg mailbox hmsg hstatus hmailbox =>
      obtain rfl := Option.some.inj h
      by_cases hi : j = i
      · subst hi
        have hlt := (List.getElem?_eq_some_iff.mp hclient).1
        simp only [view, List.getElem?_set_self hlt, hclient, foldl_tell, ofClient_append,
          ofClient_told_self, ofClient_self]
        exact .receive client msg mailbox currentTimeMillis hstatus hmailbox hmsg
      · simp only [view, List.getElem?_set_ne hi, foldl_tell, ofClient_append,
          ofClient_told_of_ne hi, ofClient_of_ne hi, add_zero]
        exact .stay _
  · cases h

theorem tellSender_self (answer : Option Message) (clients : List Client) :
    (tellSender i answer clients)[i]? =
      answer.elim clients[i]? fun answer => clients[i]?.map (Client.tell answer) := by
  cases answer with
  | none => rfl
  | some answer => exact List.getElem?_modify_eq ..

theorem tellSender_of_ne (h : j ≠ i) (answer : Option Message) (clients : List Client) :
    (tellSender j answer clients)[i]? = clients[i]? := by
  cases answer with
  | none => rfl
  | some answer => exact List.getElem?_modify_ne _ _ h

theorem square_view (h : square s = some t) : ViewStep (view i s) (view i t) := by
  unfold square at h
  split at h
  · next sender msg mailbox hrunning hmailbox =>
      obtain rfl := Option.some.inj h
      by_cases hi : sender = i
      · subst hi
        simp only [view, hmailbox, ofClient_cons_self, hrunning, tellSender_self]
        exact .square msg
      · simp only [view, hmailbox, ofClient_cons_of_ne hi, tellSender_of_ne hi]
        exact .stay _
  · cases h

theorem fire_view (h : fire j msg s = some t) : ViewStep (view i s) (view i t) := by
  obtain ⟨hmem, h⟩ := Option.ite_none_right_eq_some.mp h
  obtain rfl := Option.some.inj h
  have hperm := ofClient_perm (i := i) (List.perm_cons_erase hmem)
  by_cases hi : j = i
  · subst hi
    rw [ofClient_cons_self] at hperm
    simp only [view, hperm, List.getElem?_modify_eq]
    exact .fire msg
  · rw [ofClient_cons_of_ne hi] at hperm
    simp only [view, hperm, List.getElem?_modify_ne _ _ hi]
    exact .stay _

theorem stopClient_view {client : Client} (hclient : s.clients[j]? = some client)
    (h : stopClient j client s = some t) : ViewStep (view i s) (view i t) := by
  obtain ⟨⟨hmain, hstatus⟩, h⟩ := Option.ite_none_right_eq_some.mp h
  obtain rfl := Option.some.inj h
  by_cases hi : j = i
  · subst hi
    have hlt := (List.getElem?_eq_some_iff.mp hclient).1
    simp only [view, List.getElem?_set_self hlt, hclient]
    refine .stop client hstatus (.inr ?_)
    rw [hmain]
    rfl
  · rw [view_set_of_ne hi]
    exact .stay _

theorem stopSquarer_view (h : stopSquarer s = some t) : ViewStep (view i s) (view i t) := by
  obtain ⟨⟨-, hrunning⟩, h⟩ := Option.ite_none_right_eq_some.mp h
  obtain rfl := Option.some.inj h
  simp only [view, hrunning]
  exact .stopSquarer

theorem step_view {action : Action} (i : ℕ) (h : step s action = some t) :
    ViewStep (view i s) (view i t) := by
  cases action with
  | command currentTimeMillis => exact command_view h
  | scheduleOnce => exact scheduleOnce_view h
  | create j =>
      obtain ⟨client, hclient, h⟩ := Option.bind_eq_some_iff.mp h
      exact create_view hclient h
  | client j currentTimeMillis =>
      obtain ⟨client, hclient, h⟩ := Option.bind_eq_some_iff.mp h
      exact receive_view hclient h
  | squarer => exact square_view h
  | fire j msg => exact fire_view h
  | stopClient j =>
      obtain ⟨client, hclient, h⟩ := Option.bind_eq_some_iff.mp h
      exact stopClient_view hclient h
  | stopSquarer => exact stopSquarer_view h

end SysProg.WeirdCalculations
