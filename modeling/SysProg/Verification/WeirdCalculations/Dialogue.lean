import SysProg.Verification.WeirdCalculations.Views

/-! # The dialogue of a client and the squarer

At any time one message keeps the dialogue of a client going: an order, its result, or the reminder
to calculate the next square. Besides there is the message that stops the client, from the time on
at which the main thread has scheduled it. -/

namespace SysProg.WeirdCalculations

/-- The log of a client that waits for the square of a number, or that sleeps. -/
inductive Talk (fn : ℤ) : Option ℤ → List ClientLog → Prop
  | created : Talk fn (some fn) [.created]
  | received {x : ℤ} {log : List ClientLog} (msec : ℕ) (hmsec : msec < 10000)
      (h : Talk fn (some x) log) :
      Talk fn none (log ++ [.received (x * x) (squareMsg x), .willSleep msec])
  | sending {log : List ClientLog} (x : ℤ) (hlow : fn - 50 ≤ x) (hhigh : x < fn + 50)
      (h : Talk fn none log) : Talk fn (some x) (log ++ [.sending x])

/-- The message that the dialogue depends on. -/
inductive Token : Option ℤ → Message → Prop
  | order (x : ℤ) : Token (some x) (.OrderSquare x)
  | result (x : ℤ) : Token (some x) (.Result (x * x) (squareMsg x))
  | next : Token none .NextCalculation

/-- Nobody gets a message that he does not understand. -/
structure Placed (orders scheduled : Multiset Message) : Prop where
  orders : ∀ msg ∈ orders, ∃ x, msg = .OrderSquare x
  scheduled : ∀ msg ∈ scheduled, msg = .NextCalculation ∨ msg = .PoisonPill

/-- What is under way to a client besides its dialogue. -/
def pill (pilled : Bool) : Multiset Message :=
  if pilled then {.PoisonPill} else 0

/-- How a client is, together with the messages under way. -/
inductive Going (answers pilled : Bool) (pending : Multiset Message) : Client → Prop
  | starting {fn : ℤ} {mailbox : List Message} (hpending : pending = pill pilled) :
      Going answers pilled pending ⟨fn, .starting, mailbox, []⟩
  | running {fn : ℤ} {mailbox : List Message} {log : List ClientLog} (waitsFor : Option ℤ)
      (msg : Message) (htalk : Talk fn waitsFor log) (htoken : Token waitsFor msg)
      (hmailbox : ∀ x, .OrderSquare x ∉ mailbox) (hpending : pending = msg ::ₘ pill pilled) :
      Going answers pilled pending ⟨fn, .running, mailbox, log⟩
  /-- The squarer has stopped with the order. -/
  | unanswered {fn : ℤ} {mailbox : List Message} {log : List ClientLog} (x : ℤ)
      (htalk : Talk fn (some x) log) (hanswers : answers = false)
      (hpending : pending = pill pilled) :
      Going answers pilled pending ⟨fn, .running, mailbox, log⟩
  | stopped {fn : ℤ} {log : List ClientLog} (waitsFor : Option ℤ) (htalk : Talk fn waitsFor log)
      (hpilled : pilled = true) :
      Going answers pilled pending ⟨fn, .stopped, [], log ++ [.goodBye]⟩

structure View.Inv (v : View) : Prop where
  placed : Placed v.orders v.scheduled
  none : v.client = none → v.orders = 0 ∧ v.scheduled = 0 ∧ v.pilled = true
  some : ∀ client, v.client = some client →
    50 ≤ client.favoriteNumber ∧ client.favoriteNumber < 150 ∧
      Going v.answers v.pilled (v.orders + client.mailbox + v.scheduled) client

/-! ## The messages under way -/

theorem eq_of_mem_pill {pilled : Bool} {msg : Message} (h : msg ∈ pill pilled) :
    msg = .PoisonPill ∧ pilled = true := by
  cases pilled with
  | false => exact absurd h (Multiset.notMem_zero msg)
  | true => exact ⟨Multiset.mem_singleton.mp h, rfl⟩

theorem cons_eq_cons_pill {a b : Message} {pilled : Bool} {rest : Multiset Message}
    (h : a ::ₘ rest = b ::ₘ pill pilled) (hne : a ≠ .PoisonPill) : a = b ∧ rest = pill pilled := by
  have hmem : a ∈ b ::ₘ pill pilled := h ▸ Multiset.mem_cons_self a rest
  rcases Multiset.mem_cons.mp hmem with rfl | hmem
  · exact ⟨rfl, (Multiset.cons_inj_right a).mp h⟩
  · exact absurd (eq_of_mem_pill hmem).1 hne

theorem not_cons_eq_pill {a : Message} {pilled : Bool} {rest : Multiset Message}
    (hne : a ≠ .PoisonPill) : a ::ₘ rest ≠ pill pilled := by
  intro h
  have hmem : a ∈ pill pilled := h ▸ Multiset.mem_cons_self a rest
  exact hne (eq_of_mem_pill hmem).1

theorem Token.ne_pill {waitsFor : Option ℤ} {msg : Message} (h : Token waitsFor msg) :
    msg ≠ .PoisonPill := by
  cases h <;> simp

theorem add_cons_add (orders scheduled : Multiset Message) (msg : Message)
    (mailbox : List Message) :
    orders + ((msg :: mailbox : List Message) : Multiset Message) + scheduled =
      msg ::ₘ (orders + mailbox + scheduled) := by
  rw [← Multiset.cons_coe, Multiset.add_cons, Multiset.cons_add]

@[simp] theorem told_nil (answers : Bool) : told answers [] = 0 := by
  cases answers <;> rfl

theorem Placed.add_orders {orders scheduled : Multiset Message} (h : Placed orders scheduled)
    (answers : Bool) {l : List Message} (hl : ∀ msg ∈ l, ∃ x, msg = .OrderSquare x) :
    Placed (orders + told answers l) scheduled := by
  refine ⟨?_, h.scheduled⟩
  intro msg hmsg
  rcases Multiset.mem_add.mp hmsg with hmsg | hmsg
  · exact h.orders msg hmsg
  · cases answers with
    | false => exact absurd hmsg (Multiset.notMem_zero msg)
    | true => exact hl msg hmsg

theorem Placed.add_scheduled {orders scheduled : Multiset Message} (h : Placed orders scheduled)
    {l : List Message} (hl : ∀ msg ∈ l, msg = .NextCalculation ∨ msg = .PoisonPill) :
    Placed orders (scheduled + l) := by
  refine ⟨h.orders, ?_⟩
  intro msg hmsg
  rcases Multiset.mem_add.mp hmsg with hmsg | hmsg
  · exact h.scheduled msg hmsg
  · exact hl msg hmsg

/-! ## The steps -/

variable {orders scheduled : Multiset Message} {answers pilled : Bool} {client : Client}

/-- A client that sends a number waits for its square, if there is someone to answer. -/
theorem Going.send {fn x : ℤ} {mailbox : List Message} {log : List ClientLog}
    (htalk : Talk fn (some x) log) (hmailbox : ∀ x, .OrderSquare x ∉ mailbox)
    (hpending : orders + mailbox + scheduled = pill pilled) :
    Going answers pilled (orders + told answers [.OrderSquare x] + mailbox + scheduled)
      ⟨fn, .running, mailbox, log⟩ := by
  cases answers with
  | false =>
      refine .unanswered x htalk rfl ?_
      rw [← hpending, told, if_neg Bool.false_ne_true, add_zero]
  | true =>
      refine .running (some x) (.OrderSquare x) htalk (.order x) hmailbox ?_
      rw [← hpending, told, if_pos rfl, Multiset.coe_singleton, add_assoc orders,
        Multiset.singleton_add, Multiset.add_cons, Multiset.cons_add, add_assoc]

theorem Going.create (h : Going answers pilled (orders + client.mailbox + scheduled) client)
    (hstatus : client.status = .starting) :
    Going answers pilled (orders + told answers [.OrderSquare client.favoriteNumber] + client.mailbox +
        scheduled)
      { client with status := .running, log := client.log ++ [.created] } := by
  cases h with
  | running | unanswered | stopped => cases hstatus
  | @starting fn mailbox hpending =>
      apply Going.send .created _ hpending
      intro x hmem
      have hmem : .OrderSquare x ∈ orders + (mailbox : Multiset Message) + scheduled :=
        Multiset.mem_add.mpr (.inl (Multiset.mem_add.mpr (.inr hmem)))
      rw [hpending] at hmem
      cases (eq_of_mem_pill hmem).1

/-- What a client does when it gets a message. -/
theorem Going.receive {msg : Message} {mailbox : List Message}
    (h : Going answers pilled (orders + client.mailbox + scheduled) client)
    (hstatus : client.status = .running) (hmailbox : client.mailbox = msg :: mailbox)
    (hmsg : msg ≠ .PoisonPill) (currentTimeMillis : ℕ) :
    let reaction := Client.receive client.favoriteNumber currentTimeMillis msg
    Going answers pilled (orders + told answers reaction.orders + mailbox +
        (scheduled + reaction.scheduled))
      { client with mailbox, log := client.log ++ reaction.log } ∧
      (∀ msg ∈ reaction.orders, ∃ x, msg = .OrderSquare x) ∧
      ∀ msg ∈ reaction.scheduled, msg = .NextCalculation ∨ msg = .PoisonPill := by
  rw [hmailbox, add_cons_add] at h
  generalize hpending : orders + (mailbox : Multiset Message) + scheduled = rest at h
  cases h with
  | starting => cases hstatus
  | stopped => cases hstatus
  | unanswered x htalk hanswers hcons => exact absurd hcons (not_cons_eq_pill hmsg)
  | running waitsFor token htalk htoken hplaces hcons =>
      obtain ⟨rfl, rfl⟩ := cons_eq_cons_pill hcons hmsg
      simp only at hmailbox
      subst hmailbox
      have hrest : ∀ x, .OrderSquare x ∉ mailbox := fun x hmem => hplaces x (.tail _ hmem)
      cases htoken with
      | order x => exact absurd List.mem_cons_self (hplaces x)
      | result x =>
          refine ⟨.running none .NextCalculation (.received _ (Nat.mod_lt _ (by decide)) htalk)
            .next hrest ?_, nofun, by simp [Client.receive]⟩
          rw [← hpending]
          simp only [Client.receive, told_nil, add_zero, Multiset.coe_singleton]
          rw [← add_assoc, add_comm, Multiset.singleton_add]
      | next =>
          refine ⟨?_, by simp [Client.receive], nofun⟩
          simp only [Client.receive, Multiset.coe_nil, add_zero]
          apply Going.send _ hrest hpending
          have hlt : currentTimeMillis * 851 % 100 < 100 := Nat.mod_lt _ (by decide)
          exact .sending _ (by omega) (by omega) htalk

/-- It does not matter what is under way to a client that has stopped. -/
theorem Going.of_stopped {pending pending' : Multiset Message} {answers' : Bool}
    (h : Going answers pilled pending client) (hstatus : client.status = .stopped) :
    Going answers' pilled pending' client := by
  cases h with
  | starting | running | unanswered => cases hstatus
  | stopped waitsFor htalk hpilled => exact .stopped waitsFor htalk hpilled

/-- A client is stopped by its pill, or by the shutdown. -/
theorem Going.stop {pending : Multiset Message} (h : Going answers pilled pending client)
    (hstatus : client.status = .running) (hpill : .PoisonPill ∈ pending ∨ pilled = true)
    (pending' : Multiset Message) : Going answers pilled pending' client.stop := by
  cases h with
  | starting | stopped => cases hstatus
  | running waitsFor msg htalk htoken hmailbox hpending =>
      refine .stopped waitsFor htalk (hpill.elim (fun hmem => ?_) id)
      rw [hpending] at hmem
      rcases Multiset.mem_cons.mp hmem with hmsg | hmem
      · exact absurd hmsg.symm htoken.ne_pill
      · exact (eq_of_mem_pill hmem).2
  | unanswered x htalk hanswers hpending =>
      refine .stopped (some x) htalk (hpill.elim (fun hmem => ?_) id)
      rw [hpending] at hmem
      exact (eq_of_mem_pill hmem).2

theorem Going.tell {pending : Multiset Message} {msg : Message}
    (h : Going answers pilled pending client) (hmsg : ∀ x, .OrderSquare x ≠ msg) :
    Going answers pilled pending (client.tell msg) := by
  cases h with
  | starting hpending => exact .starting hpending
  | running waitsFor token htalk htoken hplaces hpending =>
      refine .running waitsFor token htalk htoken ?_ hpending
      intro x hmem
      rcases List.mem_append.mp hmem with hmem | hmem
      · exact hplaces x hmem
      · exact hmsg x (List.mem_singleton.mp hmem)
  | unanswered x htalk hanswers hpending => exact .unanswered x htalk hanswers hpending
  | stopped waitsFor htalk hpilled => exact .stopped waitsFor htalk hpilled

@[simp] theorem tell_favoriteNumber (msg : Message) (client : Client) :
    (client.tell msg).favoriteNumber = client.favoriteNumber := by
  rw [Client.tell]
  split <;> rfl

/-- A message that has got to a client is still under way. -/
theorem tell_pending {msg : Message} (hstatus : client.status ≠ .stopped) :
    orders + (client.tell msg).mailbox + scheduled =
      msg ::ₘ (orders + client.mailbox + scheduled) := by
  rw [Client.tell, if_neg hstatus, ← Multiset.coe_add, Multiset.coe_singleton,
    ← Multiset.singleton_add]
  abel

/-- The squarer replaces an order by its result. -/
theorem Going.square {x : ℤ} {rest : Multiset Message}
    (h : Going answers pilled (.OrderSquare x ::ₘ rest) client)
    (hstatus : client.status ≠ .stopped) :
    Going answers pilled (.Result (x * x) (squareMsg x) ::ₘ rest) client := by
  cases h with
  | starting hpending => exact absurd hpending (not_cons_eq_pill nofun)
  | running waitsFor token htalk htoken hplaces hpending =>
      obtain ⟨rfl, rfl⟩ := cons_eq_cons_pill hpending nofun
      cases htoken with
      | order x => exact .running (some x) _ htalk (.result x) hplaces rfl
  | unanswered x htalk hanswers hpending => exact absurd hpending (not_cons_eq_pill nofun)
  | stopped => exact absurd rfl hstatus

theorem Going.answer {x : ℤ}
    (h : Going answers pilled (.OrderSquare x ::ₘ orders + client.mailbox + scheduled) client) :
    Going answers pilled
      (orders + (client.tell (.Result (x * x) (squareMsg x))).mailbox + scheduled)
      (client.tell (.Result (x * x) (squareMsg x))) := by
  by_cases hstatus : client.status = .stopped
  · exact (h.of_stopped hstatus).tell nofun
  · rw [Multiset.cons_add, Multiset.cons_add] at h
    rw [tell_pending hstatus]
    exact (h.square hstatus).tell nofun

theorem Going.fire {msg : Message}
    (h : Going answers pilled (orders + client.mailbox + msg ::ₘ scheduled) client)
    (hmsg : ∀ x, .OrderSquare x ≠ msg) :
    Going answers pilled (orders + (client.tell msg).mailbox + scheduled) (client.tell msg) := by
  by_cases hstatus : client.status = .stopped
  · exact (h.of_stopped hstatus).tell hmsg
  · rw [Multiset.add_cons] at h
    rw [tell_pending hstatus]
    exact h.tell hmsg

/-- The main thread schedules the pill of a client that is running or still to start. -/
theorem Going.addPill (h : Going answers false (orders + client.mailbox + scheduled) client) :
    Going answers true (orders + client.mailbox + .PoisonPill ::ₘ scheduled) client := by
  rw [Multiset.add_cons]
  generalize orders + (client.mailbox : Multiset Message) + scheduled = pending at h
  cases h with
  | starting hpending =>
      subst hpending
      exact .starting rfl
  | running waitsFor msg htalk htoken hplaces hpending =>
      subst hpending
      exact .running waitsFor msg htalk htoken hplaces (Multiset.cons_swap ..)
  | unanswered x htalk hanswers hpending =>
      subst hpending
      exact .unanswered x htalk hanswers rfl
  | stopped waitsFor htalk hpilled => cases hpilled

theorem Placed.orders_eq_zero (hplaced : Placed orders scheduled) {rest : Multiset Message}
    (h : orders + rest = pill pilled) : orders = 0 := by
  apply Multiset.eq_zero_of_forall_notMem
  intro msg hmsg
  obtain ⟨x, rfl⟩ := hplaced.orders msg hmsg
  have hmem : .OrderSquare x ∈ orders + rest := Multiset.mem_add.mpr (.inl hmsg)
  rw [h] at hmem
  cases (eq_of_mem_pill hmem).1

/-- When the squarer stops, the order of a client is lost. -/
theorem Going.lose (hplaced : Placed orders scheduled)
    (h : Going answers pilled (orders + client.mailbox + scheduled) client) :
    Going false pilled (0 + client.mailbox + scheduled) client := by
  rw [add_assoc] at h ⊢
  rw [zero_add]
  generalize (client.mailbox : Multiset Message) + scheduled = rest at h ⊢
  cases h with
  | starting hpending =>
      rw [hplaced.orders_eq_zero hpending, zero_add] at hpending
      exact .starting hpending
  | unanswered x htalk hanswers hpending =>
      rw [hplaced.orders_eq_zero hpending, zero_add] at hpending
      exact .unanswered x htalk rfl hpending
  | stopped waitsFor htalk hpilled => exact .stopped waitsFor htalk hpilled
  | running waitsFor token htalk htoken hplaces hpending =>
      rcases Multiset.empty_or_exists_mem orders with rfl | ⟨msg, hmsg⟩
      · rw [zero_add] at hpending
        exact .running waitsFor token htalk htoken hplaces hpending
      · obtain ⟨x, rfl⟩ := hplaced.orders msg hmsg
        obtain ⟨orders', rfl⟩ := Multiset.exists_cons_of_mem hmsg
        rw [Multiset.cons_add] at hpending
        obtain ⟨rfl, hrest⟩ := cons_eq_cons_pill hpending nofun
        have hplaced' : Placed orders' scheduled :=
          ⟨fun msg hmsg => hplaced.orders msg (Multiset.mem_cons_of_mem hmsg), hplaced.scheduled⟩
        rw [hplaced'.orders_eq_zero hrest, zero_add] at hrest
        cases htoken with
        | order x => exact .unanswered x htalk rfl hrest

/-! ## Every run -/

theorem View.Inv.step {v w : View} (h : v.Inv) (hstep : ViewStep v w) : w.Inv := by
  obtain ⟨hplaced, hnone, hsome⟩ := h
  cases hstep with
  | stay => exact ⟨hplaced, hnone, hsome⟩
  | new fn hlow hhigh =>
      obtain ⟨horders, hscheduled, -⟩ := hnone rfl
      simp only at horders hscheduled
      subst horders hscheduled
      refine ⟨⟨nofun, nofun⟩, nofun, ?_⟩
      rintro client hclient
      obtain rfl := Option.some.inj hclient
      exact ⟨hlow, hhigh, .starting rfl⟩
  | @pill client orders scheduled =>
      refine ⟨⟨hplaced.orders, ?_⟩, ?_, ?_⟩
      · intro msg hmsg
        rcases Multiset.mem_cons.mp hmsg with rfl | hmsg
        · exact .inr rfl
        · exact hplaced.scheduled msg hmsg
      · intro hclient
        obtain ⟨-, -, hpilled⟩ := hnone hclient
        cases hpilled
      · intro client hclient
        obtain ⟨hlow, hhigh, hgoing⟩ := hsome client hclient
        exact ⟨hlow, hhigh, hgoing.addPill⟩
  | create client hstatus =>
      obtain ⟨hlow, hhigh, hgoing⟩ := hsome client rfl
      refine ⟨hplaced.add_orders _ (by simp), nofun, ?_⟩
      rintro client' hclient'
      obtain rfl := Option.some.inj hclient'
      exact ⟨hlow, hhigh, hgoing.create hstatus⟩
  | stop client hstatus hpilled =>
      obtain ⟨hlow, hhigh, hgoing⟩ := hsome client rfl
      refine ⟨hplaced, nofun, ?_⟩
      rintro client' hclient'
      obtain rfl := Option.some.inj hclient'
      refine ⟨hlow, hhigh, hgoing.stop hstatus (hpilled.imp_left fun hmem => ?_) _⟩
      exact Multiset.mem_add.mpr (.inl (Multiset.mem_add.mpr (.inr hmem)))
  | receive client msg mailbox currentTimeMillis hstatus hmailbox hmsg =>
      obtain ⟨hlow, hhigh, hgoing⟩ := hsome client rfl
      obtain ⟨hgoing, horders, hscheduled⟩ :=
        hgoing.receive hstatus hmailbox hmsg currentTimeMillis
      refine ⟨(hplaced.add_orders _ horders).add_scheduled hscheduled, nofun, ?_⟩
      rintro client' hclient'
      obtain rfl := Option.some.inj hclient'
      exact ⟨hlow, hhigh, hgoing⟩
  | @square client orders scheduled pilled msg =>
      obtain ⟨x, rfl⟩ := hplaced.orders msg (Multiset.mem_cons_self msg orders)
      have hplaced' : Placed orders scheduled :=
        ⟨fun msg hmsg => hplaced.orders msg (Multiset.mem_cons_of_mem hmsg), hplaced.scheduled⟩
      cases client with
      | none =>
          obtain ⟨horders, -⟩ := hnone rfl
          exact absurd horders (Multiset.cons_ne_zero)
      | some client =>
          refine ⟨hplaced', nofun, ?_⟩
          rintro client' hclient'
          obtain rfl := Option.some.inj hclient'
          obtain ⟨hlow, hhigh, hgoing⟩ := hsome client rfl
          exact ⟨by simpa using hlow, by simpa using hhigh, hgoing.answer⟩
  | @fire client orders scheduled answers pilled msg =>
      have hplaced' : Placed orders scheduled :=
        ⟨hplaced.orders, fun msg hmsg => hplaced.scheduled msg (Multiset.mem_cons_of_mem hmsg)⟩
      have hmsg := hplaced.scheduled msg (Multiset.mem_cons_self msg scheduled)
      cases client with
      | none =>
          obtain ⟨-, hscheduled, -⟩ := hnone rfl
          exact absurd hscheduled (Multiset.cons_ne_zero)
      | some client =>
          refine ⟨hplaced', nofun, ?_⟩
          rintro client' hclient'
          obtain rfl := Option.some.inj hclient'
          obtain ⟨hlow, hhigh, hgoing⟩ := hsome client rfl
          refine ⟨by simpa using hlow, by simpa using hhigh, hgoing.fire ?_⟩
          rcases hmsg with rfl | rfl <;> nofun
  | stopSquarer =>
      refine ⟨⟨nofun, hplaced.scheduled⟩, ?_, ?_⟩
      · intro h
        exact ⟨rfl, (hnone h).2⟩
      · intro client hclient
        obtain ⟨hlow, hhigh, hgoing⟩ := hsome client hclient
        exact ⟨hlow, hhigh, hgoing.lose hplaced⟩

end SysProg.WeirdCalculations
