import SysProg.Verification.Square.Handler
import SysProg.Verification.Square.Input

/-! # A session of a client with its handler

The conversation is a request and its reply for each number that is entered, and then a
frame without bytes in each direction. -/

namespace SysProg.Square

open Transmission ByteStream

/-- The reply to the request for the square of `x`. -/
def replyTo (x : ℤ) : Bytes :=
  square (stored (format12d x))

def conversation (xs : List ℤ) : List Bytes :=
  xs.flatMap (fun x => [frame (format12d x), frame (replyTo x)]) ++ [frame [], frame []]

theorem conversation_cons (x : ℤ) (xs : List ℤ) :
    conversation (x :: xs) = frame (format12d x) :: frame (replyTo x) :: conversation xs :=
  rfl

theorem frame_ne_nil (msg : Bytes) : frame msg ≠ [] := by
  simp [frame, htonl]

theorem conversation_ne_nil (xs : List ℤ) : [] ∉ conversation xs := by
  induction xs with
  | nil => simp [conversation, (frame_ne_nil []).symm]
  | cons x xs ih =>
      rw [conversation_cons]
      simp only [List.mem_cons, not_or]
      exact ⟨(frame_ne_nil _).symm, (frame_ne_nil _).symm, ih⟩

/-! ## The handler -/

section Handler

variable (server : Server)

/-- While a reply is written the next request is still to come. -/
def Server.SendsIn (items : List Bytes) (handler : HandleTcpClient) (rest : Bytes) : Prop :=
  (∃ xs, (items = conversation xs ∧ ∀ x ∈ xs, IsInt x) ∧ Replies handler rest) ∨
    (items = [] ∧ server.EndsTransmission handler rest)

def Server.ReceivesIn (items : List Bytes) (handler : HandleTcpClient) (rest : Bytes) : Prop :=
  (∃ x xs, (items = frame (replyTo x) :: conversation xs ∧ ∀ y ∈ x :: xs, IsInt y) ∧
      server.Receives (format12d x) handler rest) ∨
    (items = [frame []] ∧ server.Receives [] handler rest)

variable {server}

theorem sendsIn_offers (items : List Bytes) : server.writer.Offers (server.SendsIn items) :=
  .or (.exists fun _ => .and _ fun _ => replies_offers server)
    (.and _ fun _ => endsTransmission_offers server)

theorem receivesIn_expects (items : List Bytes) :
    server.reader.Expects (server.ReceivesIn items) := by
  refine .or (.exists fun x => .exists fun xs => .and _ ?_) (.and _ fun _ => ?_)
  · rintro ⟨-, hints⟩
    apply reader_expects
    rw [length_format12d (hints x (by simp))]
    norm_num
  · exact reader_expects server (by norm_num)

theorem server_sent {item : Bytes} {items : List Bytes} {handler : HandleTcpClient}
    (h : server.SendsIn (item :: items) handler []) : server.ReceivesIn items handler item := by
  rcases h with ⟨xs, ⟨heq, hints⟩, hreplies⟩ | ⟨heq, -⟩
  · obtain rfl := replies_nil.mp hreplies
    cases xs with
    | nil =>
        obtain ⟨rfl, rfl⟩ := List.cons.inj heq
        exact .inr ⟨rfl, .header, rfl, rfl⟩
    | cons x xs =>
        rw [conversation_cons] at heq
        obtain ⟨rfl, rfl⟩ := List.cons.inj heq
        exact .inl ⟨x, xs, ⟨rfl, hints⟩, .header, rfl, rfl⟩
  · cases heq

theorem server_received (hsize : 13 ≤ server.RCVBUFSIZE) {items : List Bytes}
    {handler : HandleTcpClient} (h : server.ReceivesIn items handler []) :
    ∃ item items', items = item :: items' ∧ server.SendsIn items' handler item := by
  rcases h with ⟨x, xs, ⟨rfl, hints⟩, hreceives⟩ | ⟨rfl, hreceives⟩
  · have hne : format12d x ≠ [] := by
      have hlength := length_format12d (hints x (by simp))
      intro h
      simp [h] at hlength
    rw [receives_nil.mp hreceives]
    refine ⟨_, _, rfl, .inl ⟨xs, ⟨rfl, fun y hy => hints y (by simp [hy])⟩, ?_⟩⟩
    exact replies_square hsize hne
  · rw [receives_nil.mp hreceives]
    exact ⟨_, _, rfl, .inr ⟨rfl, endsTransmission_writeEot⟩⟩

/-- The handler writes the replies of the conversation. -/
def serverRole (hsize : 13 ≤ server.RCVBUFSIZE) : Role server.party where
  thinking items handler :=
    (∃ item items', items = item :: items' ∧ server.SendsIn items' handler item) ∨
      items = [] ∧ handler = .closed server.report
  sending := server.SendsIn
  receiving := server.ReceivesIn
  finished handler := handler = .closed server.report
  rank _ := 0
  offers := sendsIn_offers
  expects := receivesIn_expects
  thinking_cases items handler h := .inr h.symm
  thinking_step items p p' _ hthinks := by cases hthinks
  sent _ _ _ h := server_sent h
  sent_last handler h := by
    rcases h with ⟨xs, ⟨heq, -⟩, -⟩ | ⟨-, hends⟩
    · cases xs <;> cases heq
    · exact endsTransmission_nil.mp hends
  received items handler h := .inl (server_received hsize h)
  finished_thinks _ _ := rfl
  finished_offered := by rintro _ rfl; rfl
  finished_asked := by rintro _ rfl; rfl

end Handler

/-! ## The client -/

/-- The value that the client reads from the reply. -/
def printedFor (x : ℤ) : ℤ :=
  atoi (cString (stored (replyTo x)))

/-- The client when the numbers `done` have been answered and those in `pending` sent. -/
def clientAt (stdin : Bytes) (phase : ClientPhase) (done pending : List ℤ) : Client where
  stdin := stdin
  phase := phase
  printed := done.map fun x => (x, printedFor x)
  sent := (done ++ pending).map format12d
  received := done.map fun x => stored (replyTo x)

/-- The numbers `todo` are still to be entered. -/
structure ToCome (xs : List ℤ) (stdin : Bytes) (done todo : List ℤ) : Prop where
  split : xs = done ++ todo
  enters : Enters stdin todo

/-- The client writes a request, or the end of the transmission when all is done. -/
def ClientSends (xs : List ℤ) (items : List Bytes) (client : Client) (rest : Bytes) : Prop :=
  (∃ stdin done x todo, (ToCome xs stdin (done ++ [x]) todo ∧
      items = frame (replyTo x) :: conversation todo) ∧
      ∃ call, clientAt stdin (.afterSend x call) done [x] = client ∧ call.Rest rest) ∨
    (∃ stdin, items = [frame []] ∧
      ∃ call, clientAt stdin (.afterSendEndOfTransmission call) xs [] = client ∧ call.Rest rest)

def ClientReceives (xs : List ℤ) (items : List Bytes) (client : Client) (rest : Bytes) : Prop :=
  (∃ stdin done x todo, (ToCome xs stdin (done ++ [x]) todo ∧ items = conversation todo) ∧
      ∃ call, (clientAt stdin .prompt done [x]).afterReceive x call = client ∧
        ReadAndStore.Expects (replyTo x) call rest) ∨
    (∃ stdin, items = [] ∧
      ∃ call, clientAt stdin (.afterReceiveEndOfTransmission call) xs [] = client ∧
        ReadAndStore.Expects [] call rest)

def ClientThinks (xs : List ℤ) (items : List Bytes) (client : Client) : Prop :=
  (∃ stdin done todo, ToCome xs stdin done todo ∧ items = conversation todo ∧
      client = clientAt stdin .prompt done []) ∨
    (∃ item items', items = item :: items' ∧ ClientSends xs items' client item) ∨
    (items = [] ∧ ∃ stdin, client = clientAt stdin .closed xs [])

variable {xs : List ℤ}

theorem clientSends_offers (items : List Bytes) : clientWriter.Offers (ClientSends xs items) := by
  apply Writer.Offers.or
  · refine .exists fun stdin => .exists fun done => .exists fun x => .exists fun todo => .and _ ?_
    intro _
    apply embed_writeString fun call => clientAt stdin (.afterSend x call) done [x]
    · intro call
      cases call <;> rfl
    · intro str len
      trivial
    · intro str len k
      rfl
    · intro str ptr restLen k
      rfl
  · refine .exists fun stdin => .and _ ?_
    intro _
    apply embed_writeString fun call => clientAt stdin (.afterSendEndOfTransmission call) xs []
    · intro call
      cases call <;> rfl
    · intro str len
      trivial
    · intro str len k
      rfl
    · intro str ptr restLen k
      rfl

/-- The phase does not matter at the end of a call. -/
theorem afterReceive_phase (client : Client) (phase : ClientPhase) (x : ℤ) (call : ReadAndStore) :
    { client with phase := phase }.afterReceive x call = client.afterReceive x call := by
  cases call <;> rfl

theorem clientReceives_expects (items : List Bytes) :
    clientReader.Expects (ClientReceives xs items) := by
  apply Reader.Expects.or
  · refine .exists fun stdin => .exists fun done => .exists fun x => .exists fun todo => .and _ ?_
    intro _
    apply embed_readAndStore fun call => (clientAt stdin .prompt done [x]).afterReceive x call
    · intro call hcall
      cases call with
      | returned ulen result => exact absurd rfl hcall
      | _ => rfl
    · exact .inr ⟨x, rfl⟩
    · intro bs
      exact afterReceive_phase _ _ x _
    · intro ulen buffer ptr restLen bs
      exact afterReceive_phase _ _ x _
    · rw [replyTo, length_square]
      decide
  · refine .exists fun stdin => .and _ ?_
    intro _
    apply embed_readAndStore fun call => clientAt stdin (.afterReceiveEndOfTransmission call) xs []
    · intro call hcall
      cases call with
      | returned ulen result => exact absurd rfl hcall
      | _ => rfl
    · exact .inl rfl
    · intro bs
      rfl
    · intro ulen buffer ptr restLen bs
      rfl
    · norm_num

theorem clientSends_thinks {items : List Bytes} {client : Client} {rest : Bytes}
    (h : ClientSends xs items client rest) : clientParty.thinks client = none := by
  rcases h with ⟨stdin, done, x, todo, -, call, rfl, -⟩ | ⟨stdin, -, call, rfl, -⟩ <;>
    cases call <;> rfl

theorem client_sent {item : Bytes} {items : List Bytes} {client : Client}
    (h : ClientSends xs (item :: items) client []) : ClientReceives xs items client item := by
  rcases h with ⟨stdin, done, x, todo, ⟨hcome, heq⟩, call, rfl, hcall⟩ |
    ⟨stdin, heq, call, rfl, hcall⟩
  · obtain rfl := rest_nil.mp hcall
    obtain ⟨rfl, rfl⟩ := List.cons.inj heq
    exact .inl ⟨stdin, done, x, todo, ⟨hcome, rfl⟩, .header, rfl, rfl⟩
  · obtain rfl := rest_nil.mp hcall
    obtain ⟨rfl, rfl⟩ := List.cons.inj heq
    exact .inr ⟨stdin, rfl, .header, rfl, rfl⟩

theorem client_received {items : List Bytes} {client : Client}
    (h : ClientReceives xs items client []) : ClientThinks xs items client := by
  rcases h with ⟨stdin, done, x, todo, ⟨hcome, rfl⟩, call, rfl, hcall⟩ |
    ⟨stdin, rfl, call, rfl, hcall⟩
  · obtain rfl := expects_nil.mp hcall
    refine .inl ⟨stdin, done ++ [x], todo, hcome, rfl, ?_⟩
    have hlength : (replyTo x).length ≠ 0 := by
      rw [replyTo, length_square]
      decide
    simp [Client.afterReceive, hlength, clientAt, printedFor, stored]
  · obtain rfl := expects_nil.mp hcall
    exact .inr (.inr ⟨rfl, stdin, rfl⟩)

theorem afterSend_writeString (x : ℤ) (str : Bytes) (len : ℕ) :
    ClientPhase.afterSend x (writeString str len) = .send x (writeString str len) := by
  unfold writeString
  extract_lets len' ulen
  split <;> rfl

/-- The client turns to the next line. -/
theorem client_enterLine {items : List Bytes} {stdin : Bytes} {done todo : List ℤ}
    (hcome : ToCome xs stdin done todo) (hitems : items = conversation todo) :
    let client := (clientAt stdin .prompt done []).enterLine
    ClientThinks xs items client ∧
      (client.phase = .prompt → client.stdin.length < stdin.length) := by
  have hlength := length_fgets 4096 stdin
  cases hcome.enters with
  | terminated hne hline =>
      refine ⟨.inr (.inl ⟨frame [], [frame []], hitems, .inr ?_⟩), ?_⟩
      · refine ⟨(fgets 4096 stdin).2, rfl, writeEot, ?_, writeEot_rest⟩
        have hxs : xs = done := by simpa using hcome.split
        simp only [Client.enterLine, clientAt, if_neg hne, hline, hxs]
        rfl
      · simp [Client.enterLine, clientAt, hne, hline]
  | ignored hne hline hrest =>
      have hclient : (clientAt stdin .prompt done []).enterLine =
          clientAt (fgets 4096 stdin).2 .prompt done [] := by
        simp only [Client.enterLine, clientAt, if_neg hne, hline]
      have hpos := List.length_pos_iff.mpr hne
      rw [hclient]
      refine ⟨.inl ⟨_, done, todo, ⟨hcome.split, hrest⟩, hitems, rfl⟩, fun _ => ?_⟩
      change (fgets 4096 stdin).2.length < stdin.length
      omega
  | @number _ x todo hne hline hrest =>
      refine ⟨.inr (.inl ⟨frame (format12d x), frame (replyTo x) :: conversation todo, hitems,
        .inl ?_⟩), ?_⟩
      · refine ⟨(fgets 4096 stdin).2, done, x, todo, ⟨⟨?_, hrest⟩, rfl⟩,
          writeString (format12d x ++ [0]) (sizeT (-1)), ?_, ?_⟩
        · rw [hcome.split]
          simp
        · rw [afterSend_writeString]
          simp [Client.enterLine, clientAt, hne, hline]
        · apply writeString_rest _ (.inr ⟨rfl, nul_notMem_format12d x⟩)
          rw [length_format12d (isInt_of_readLine hline)]
          norm_num
      · simp [Client.enterLine, clientAt, hne, hline]

/-- The client sends the numbers that are entered. -/
def clientRole (xs : List ℤ) : Role clientParty where
  thinking := ClientThinks xs
  sending := ClientSends xs
  receiving := ClientReceives xs
  finished client := ∃ stdin, client = clientAt stdin .closed xs []
  rank client := if client.phase = .prompt then client.stdin.length + 1 else 0
  offers := clientSends_offers
  expects := clientReceives_expects
  thinking_cases := by
    rintro items client (⟨stdin, done, todo, -, -, rfl⟩ | h | h)
    · exact .inl (by simp [clientParty, clientAt])
    · exact .inr (.inr h)
    · exact .inr (.inl h)
  thinking_step := by
    rintro items client client' (⟨stdin, done, todo, hcome, hitems, rfl⟩ |
      ⟨item, items', -, hsends⟩ | ⟨-, stdin, rfl⟩) hthinks
    · obtain rfl : (clientAt stdin .prompt done []).enterLine = client' :=
        Option.some.inj hthinks
      obtain ⟨hthinking, hless⟩ := client_enterLine hcome hitems
      refine ⟨hthinking, ?_⟩
      rw [if_pos (show (clientAt stdin .prompt done []).phase = .prompt from rfl)]
      split
      · exact Nat.succ_lt_succ (hless ‹_›)
      · exact Nat.succ_pos _
    · simp [clientSends_thinks hsends] at hthinks
    · cases hthinks
  sent _ _ _ h := client_sent h
  sent_last := by
    rintro client (⟨stdin, done, x, todo, ⟨-, heq⟩, -⟩ | ⟨stdin, heq, -⟩) <;> cases heq
  received _ _ h := client_received h
  finished_thinks := by
    rintro _ ⟨stdin, rfl⟩
    rfl
  finished_offered := by
    rintro _ ⟨stdin, rfl⟩
    rfl
  finished_asked := by
    rintro _ ⟨stdin, rfl⟩
    rfl

/-! ## The session -/

/-- The blocks received hold the replies to the requests sent, in this order. -/
def RepliesMatch (client : Client) : Prop :=
  ∀ (k : ℕ) (buffer : List (Option UInt8)), client.received[k]? = some buffer →
    ∃ request, client.sent[k]? = some request ∧ buffer = stored (square (stored request))

theorem repliesMatch_clientAt (stdin : Bytes) (phase : ClientPhase) (done pending : List ℤ) :
    RepliesMatch (clientAt stdin phase done pending) := by
  intro k buffer h
  obtain ⟨x, hx, rfl⟩ : ∃ x, done[k]? = some x ∧ stored (replyTo x) = buffer := by
    simpa [clientAt] using h
  refine ⟨format12d x, ?_, rfl⟩
  have hk : k < done.length := (List.getElem?_eq_some_iff.mp hx).1
  change ((done ++ pending).map format12d)[k]? = _
  rw [List.getElem?_map, List.getElem?_append_left hk, hx]
  rfl

theorem repliesMatch_of_thinks {items : List Bytes} {client : Client}
    (h : ClientThinks xs items client) : RepliesMatch client := by
  rcases h with ⟨stdin, done, todo, -, -, rfl⟩ |
    ⟨item, items', -, ⟨stdin, done, x, todo, -, call, rfl, -⟩ | ⟨stdin, -, call, rfl, -⟩⟩ |
    ⟨-, stdin, rfl⟩
  all_goals exact repliesMatch_clientAt _ _ _ _

theorem repliesMatch_of_plays {client : Client} (h : (clientRole xs).Plays client) :
    RepliesMatch client := by
  rcases h with ⟨items, hthinking⟩ | ⟨items, rest, hsending⟩ | ⟨items, rest, hreceiving⟩ |
    ⟨stdin, rfl⟩
  · exact repliesMatch_of_thinks hthinking
  · rcases hsending with ⟨stdin, done, x, todo, -, call, rfl, -⟩ | ⟨stdin, -, call, rfl, -⟩
    all_goals exact repliesMatch_clientAt _ _ _ _
  · rcases hreceiving with ⟨stdin, done, x, todo, hcome, call, rfl, hcall⟩ |
      ⟨stdin, -, call, rfl, -⟩
    · cases call with
      | header => exact repliesMatch_clientAt stdin _ done [x]
      | payload ulen buffer ptr restLen => exact repliesMatch_clientAt stdin _ done [x]
      | returned ulen result =>
          obtain rfl : rest = [] := hcall.1
          exact repliesMatch_of_thinks
            (client_received (.inl ⟨stdin, done, x, todo, hcome, _, rfl, hcall⟩))
      | died => exact absurd hcall not_false
      | fault => exact absurd hcall not_false
    · exact repliesMatch_clientAt _ _ _ _
  · exact repliesMatch_clientAt _ _ _ _

theorem start_talking (server : Server) (hsize : 13 ≤ server.RCVBUFSIZE) {stdin : Bytes}
    (hxs : Enters stdin xs) :
    ∃ m, Talking (clientRole xs) (serverRole hsize) (conversation xs)
      (Session.start stdin) m := by
  have hints := hxs.isInt
  refine ⟨_, .inl (.thinks (List.suffix_refl _) (.inl ⟨stdin, [], xs, ⟨rfl, hxs⟩, rfl, rfl⟩) ?_)⟩
  cases xs with
  | nil => exact .inr ⟨rfl, .header, rfl, rfl⟩
  | cons x xs => exact .inl ⟨x, xs, ⟨rfl, hints⟩, .header, rfl, rfl⟩

/-- The client or the handler waits for input. -/
def Waits {P : Type} (A : Party P UInt8) (p : P) : Prop :=
  A.reader.asked p ≠ none

/-- Every run of a session comes to its end, with all numbers answered. -/
theorem session_leads (server : Server) (hsize : 13 ≤ server.RCVBUFSIZE) {stdin : Bytes}
    (hxs : Enters stdin xs) :
    Leads server.SessionStep (fun s => (∃ stdin', s.left = clientAt stdin' .closed xs []) ∧
      s.right = .closed server.report ∧ s.up = [] ∧ s.down = []) (.start stdin) := by
  obtain ⟨m, hm⟩ := start_talking server hsize hxs
  refine (hm.leads (conversation_ne_nil xs)).mono ?_
  intro s ⟨hleft, hright, hup, hdown⟩
  exact ⟨hleft, hright, hup, hdown⟩

/-- A session in which numbers are entered ends with each of them answered. In all its states
only one frame is on its way, each reply is the one to its request, and somebody can go on. -/
theorem session_correct (lines : List Bytes) (after : Bytes) :
    ∃ xs, Enters (input lines after) xs ∧
      (∀ s, Reaches squareServer.SessionStep (.start (input lines after)) s →
        (s.up = [] ∨ s.down = []) ∧ (∃ item ∈ conversation xs, s.up ++ s.down <:+: item) ∧
          RepliesMatch s.left ∧ ¬ (s.up = [] ∧ s.down = [] ∧ Waits clientParty s.left ∧
            Waits squareServer.party s.right)) ∧
      Leads squareServer.SessionStep (fun s => s.left.phase = .closed ∧
          s.right = .closed squareServer.report ∧ s.up = [] ∧ s.down = [] ∧
          s.left.sent = xs.map format12d ∧
          s.left.received = xs.map fun x => stored (square (stored (format12d x))))
        (.start (input lines after)) := by
  obtain ⟨xs, hxs⟩ := enters_input lines after
  have hsize : 13 ≤ squareServer.RCVBUFSIZE := by decide
  have hne := conversation_ne_nil xs
  refine ⟨xs, hxs, ?_, ?_⟩
  · intro s hrun
    obtain ⟨m, hm⟩ := start_talking squareServer hsize hxs
    obtain ⟨m', htalking⟩ := hm.reaches hne hrun
    have hwait : ¬ (s.up = [] ∧ s.down = [] ∧ Waits clientParty s.left ∧
        Waits squareServer.party s.right) := by
      intro ⟨hup, hdown, hleft, hright⟩
      rcases htalking with h | h
      · exact h.not_both_wait hne hup hleft
      · exact h.not_both_wait hne hdown hright
    obtain ⟨hempty, hitem⟩ := htalking.inFlight
    have hitem : ∃ item ∈ conversation xs, s.up ++ s.down <:+: item := by
      rcases hitem with hnil | hitem
      · rw [hnil]
        exact ⟨frame [], by simp [conversation], List.nil_infix⟩
      · exact hitem
    exact ⟨hempty, hitem, repliesMatch_of_plays htalking.left_plays, hwait⟩
  · refine (session_leads squareServer hsize hxs).mono ?_
    intro s ⟨⟨stdin', hleft⟩, hright, hup, hdown⟩
    refine ⟨?_, hright, hup, hdown, ?_, ?_⟩
    · rw [hleft]
      rfl
    · rw [hleft, clientAt, List.append_nil]
    · rw [hleft]
      rfl

end SysProg.Square
