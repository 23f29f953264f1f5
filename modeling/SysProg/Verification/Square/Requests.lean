import SysProg.Verification.Square.Handler

/-! # Requests in pieces

The header of a frame is read by one call of `recv`. So a piece that ends inside of a header
ends the session, although requests are still to come. -/

namespace SysProg.Square

open Transmission ByteStream

/-- Complete frames, in the pieces in which they arrive. -/
structure FragmentedStream where
  messages : List Bytes
  pieces : List Bytes
  length_lt : ∀ msg ∈ messages, msg.length < 2 ^ 32
  nonempty : [] ∉ pieces
  flatten : pieces.flatten = messages.flatMap frame

def Connection.start (pieces : List Bytes) : Connection :=
  ⟨.receive .header, pieces, []⟩

/-- `read_and_store_string` has returned 0. -/
def HandleTcpClient.LeftLoop : HandleTcpClient → Prop
  | .endOfTransmission _ => True
  | .closed _ => True
  | _ => False

/-- The replies to the messages before the first empty one. -/
def replies (messages : List Bytes) : Bytes :=
  (messages.takeWhile fun msg => msg != []).flatMap fun msg => frame (square (stored msg))

/-- A frame without bytes has been read, or the stream has ended. -/
def Ended (messages pieces : List Bytes) : Prop :=
  pieces = [] ∨ ∃ before after, messages = before ++ [] :: after ∧
    pieces.flatten = after.flatMap frame

/-- The loop is left only after a frame without bytes or at the end of the stream, and every
request before it is answered. -/
structure Server.Answers (server : Server) (stream : FragmentedStream) : Prop where
  zero : ∀ conn, Reaches server.Step (.start stream.pieces) conn → conn.handler.LeftLoop →
    Ended stream.messages conn.incoming
  answered : Leads server.Step (fun conn => conn.handler = .closed server.report ∧
    conn.outgoing = replies stream.messages ++ frame []) (.start stream.pieces)

/-- No piece ends inside of the header of a frame up to the first one without bytes, and each
of these frames fits into a block of memory. -/
def HeadersWhole (messages pieces : List Bytes) : Prop :=
  ∀ before msg after, messages = before ++ msg :: after → [] ∉ before →
    msg.length < 2 ^ 32 - 1 ∧ ∀ c ∈ cuts pieces,
      c ≤ (before.flatMap frame).length ∨ (before.flatMap frame).length + 4 ≤ c

theorem headersWhole_cons {msg : Bytes} {messages pieces rest : List Bytes} (hne : [] ∉ pieces)
    (hleft : LeftOf (frame msg).length pieces rest) :
    HeadersWhole (msg :: messages) pieces ↔
      (msg.length < 2 ^ 32 - 1 ∧ ∀ c ∈ cuts pieces, 4 ≤ c) ∧
        (msg ≠ [] → HeadersWhole messages rest) := by
  have hshift : ∀ offset, (∀ c ∈ cuts pieces, c ≤ (frame msg).length + offset ∨
      (frame msg).length + offset + 4 ≤ c) ↔
      ∀ c ∈ cuts rest, c ≤ offset ∨ offset + 4 ≤ c := by
    intro offset
    constructor
    · intro h c hc
      have := h _ ((hleft.cuts c).mp hc).2
      omega
    · intro h c hc
      by_cases hle : c ≤ (frame msg).length
      · exact .inl (by omega)
      · have hc' : c - (frame msg).length ∈ cuts rest := by
          rw [hleft.cuts]
          refine ⟨by omega, ?_⟩
          rwa [Nat.add_sub_cancel' (by omega)]
        have := h _ hc'
        omega
  constructor
  · intro h
    refine ⟨?_, ?_⟩
    · obtain ⟨hlt, hcuts⟩ := h [] msg messages rfl (by simp)
      refine ⟨hlt, fun c hc => ?_⟩
      have hpos := cuts_pos hne c hc
      rcases hcuts c hc with hle | hle
      · simp at hle
        omega
      · simpa using hle
    · rintro hmsg before msg' after rfl hbefore
      have := h (msg :: before) msg' after rfl (by simp [hbefore, hmsg.symm])
      rwa [List.flatMap_cons, List.length_append, hshift] at this
  · intro ⟨⟨hlt, hcuts⟩, htail⟩ before msg' after heq hbefore
    cases before with
    | nil =>
        obtain ⟨rfl, rfl⟩ := List.cons.inj heq
        exact ⟨hlt, fun c hc => .inr (by simpa using hcuts c hc)⟩
    | cons msg'' before =>
        obtain ⟨rfl, rfl⟩ := List.cons.inj heq
        have hmsg : msg ≠ [] := fun h => hbefore (by simp [h])
        rw [List.flatMap_cons, List.length_append, hshift]
        exact htail hmsg before msg' after rfl fun h => hbefore (by simp [h])

variable {server : Server}

/-! ## One request -/

/-- The handler does not read and write at once. -/
theorem offered_of_asked {handler : HandleTcpClient} {n : ℕ}
    (hask : server.reader.asked handler = some n) : server.writer.offered handler = none := by
  apply server.party.offered_of_asked handler
  rw [show server.party.reader.asked handler = some n from hask]
  simp

theorem leads_of_read {Q : HandleTcpClient × List Bytes → Prop} {handler : HandleTcpClient}
    {pieces : List Bytes} (out : Bytes) (h : Leads (PieceStep server.reader) Q (handler, pieces)) :
    Leads server.Step (fun conn => Q (conn.handler, conn.incoming) ∧ conn.outgoing = out)
      ⟨handler, pieces, out⟩ := by
  refine (h.simulated (R := fun s conn => conn = ⟨s.1, s.2, out⟩) ?_ ?_ rfl).mono ?_
  · rintro ⟨r, stream⟩ conn rfl ⟨s', hs⟩
    exact ⟨_, .read hs⟩
  · rintro ⟨r, stream⟩ conn conn' rfl ⟨s', hs⟩ hstep
    cases hs with
    | read hask =>
        cases hstep with
        | read hread => exact ⟨_, hread, rfl⟩
        | write hwrite =>
            cases hwrite with
            | write hoffer => exact absurd hoffer (by simp [offered_of_asked hask])
  · rintro conn ⟨s, hs, rfl⟩
    exact ⟨hs, rfl⟩

theorem leads_of_write {Q : HandleTcpClient × Bytes → Prop} {handler : HandleTcpClient}
    {out : Bytes} (pieces : List Bytes) (h : Leads (WriteStep server.writer) Q (handler, out)) :
    Leads server.Step (fun conn => Q (conn.handler, conn.outgoing) ∧ conn.incoming = pieces)
      ⟨handler, pieces, out⟩ := by
  refine (h.simulated (R := fun s conn => conn = ⟨s.1, pieces, s.2⟩) ?_ ?_ rfl).mono ?_
  · rintro ⟨w, stream⟩ conn rfl ⟨s', hs⟩
    exact ⟨_, .write hs⟩
  · rintro ⟨w, stream⟩ conn conn' rfl ⟨s', hs⟩ hstep
    cases hs with
    | write hoffer =>
        cases hstep with
        | write hwrite => exact ⟨_, hwrite, rfl⟩
        | read hread =>
            cases hread with
            | read hask => exact absurd hoffer (by simp [offered_of_asked hask])
  · rintro conn ⟨s, hs, rfl⟩
    exact ⟨hs, rfl⟩

theorem reader_once (handler : HandleTcpClient) (n : ℕ) (bs : Bytes)
    (hask : server.reader.asked handler = some n) :
    ¬ server.reader.whole (server.reader.onRead handler bs) := by
  cases handler with
  | receive call =>
      intro hwhole
      have hne : call.onRead (.received bs) ≠ .header :=
        onRead_ne_header (by rw [show call.asked = some n from hask]; simp) _
      generalize hnext : call.onRead (.received bs) = next at hne
      have hheader : server.afterReceive next = .receive .header := by
        rw [← hnext]
        exact hwhole
      cases next with
      | header => exact hne rfl
      | payload ulen buffer ptr restLen => cases hheader
      | returned ulen result =>
          have hasked := reader_asked_afterReceive server (.returned ulen result)
          rw [hheader] at hasked
          cases hasked
      | died => cases hheader
      | fault => cases hheader
  | reply call => exact absurd hask (by simp [Server.reader])
  | endOfTransmission call => exact absurd hask (by simp [Server.reader])
  | closed report => exact absurd hask (by simp [Server.reader])
  | fault => exact absurd hask (by simp [Server.reader])

theorem receive_leads {msg following : Bytes} {pieces : List Bytes} (out : Bytes)
    (hlt : msg.length < 2 ^ 32 - 1) (hne : [] ∉ pieces)
    (hflatten : pieces.flatten = frame msg ++ following) (hcuts : ∀ c ∈ cuts pieces, 4 ≤ c) :
    Leads server.Step (fun conn =>
        conn.handler = server.afterReceive (.returned msg.length (some (stored msg))) ∧
        conn.outgoing = out ∧ conn.incoming.flatten = following ∧
        LeftOf (frame msg).length pieces conn.incoming)
      ⟨.receive .header, pieces, out⟩ := by
  have hread := (reader_expects server hlt).leads_pieces reader_once
    (r := .receive .header) ⟨.header, rfl, rfl⟩ hne hflatten ?_
  · refine (leads_of_read out hread).mono ?_
    intro conn ⟨⟨hhandler, hfollowing, hleft⟩, hout⟩
    exact ⟨receives_nil.mp hhandler, hout, hfollowing, hleft⟩
  · intro _ n hask c hc
    obtain rfl : 4 = n := Option.some.inj hask
    exact hcuts c hc

theorem request_leads (hsize : 13 ≤ server.RCVBUFSIZE) {msg following : Bytes}
    {pieces : List Bytes} (out : Bytes) (hmsg : msg ≠ []) (hlt : msg.length < 2 ^ 32 - 1)
    (hne : [] ∉ pieces) (hflatten : pieces.flatten = frame msg ++ following)
    (hcuts : ∀ c ∈ cuts pieces, 4 ≤ c) :
    Leads server.Step (fun conn => conn.handler = .receive .header ∧
        conn.outgoing = out ++ frame (square (stored msg)) ∧
        conn.incoming.flatten = following ∧ LeftOf (frame msg).length pieces conn.incoming)
      ⟨.receive .header, pieces, out⟩ := by
  refine (receive_leads out hlt hne hflatten hcuts).trans ?_
  rintro ⟨handler, incoming, outgoing⟩ ⟨rfl, rfl, hfollowing, hleft⟩
  have hwrite := (replies_offers server).leads outgoing (replies_square hsize hmsg)
  refine (leads_of_write incoming hwrite).mono ?_
  rintro conn ⟨⟨hhandler, hout⟩, rfl⟩
  exact ⟨replies_nil.mp hhandler, hout, hfollowing, hleft⟩

theorem end_leads (pieces : List Bytes) (out : Bytes) :
    Leads server.Step (fun conn => conn.handler = .closed server.report ∧
        conn.outgoing = out ++ frame [])
      ⟨.endOfTransmission writeEot, pieces, out⟩ := by
  have hwrite := (endsTransmission_offers server).leads out endsTransmission_writeEot
  refine (leads_of_write pieces hwrite).mono ?_
  rintro conn ⟨⟨hhandler, hout⟩, -⟩
  exact ⟨endsTransmission_nil.mp hhandler, hout⟩

/-- At the end of the stream the call of `recv` returns 0. -/
theorem endOfStream_leads (out : Bytes) :
    Leads server.Step (fun conn => conn = ⟨.endOfTransmission writeEot, [], out⟩)
      ⟨.receive .header, [], out⟩ := by
  refine .later ⟨_, .read (.read rfl)⟩ ?_
  intro conn hstep
  apply Leads.now
  cases hstep with
  | read hread =>
      cases hread with
      | read hask => rfl
  | write hwrite =>
      cases hwrite with
      | write hoffer => cases hoffer

/-! ## All requests -/

theorem loop_leads (hsize : 13 ≤ server.RCVBUFSIZE) (messages : List Bytes)
    {pieces : List Bytes} (out : Bytes) (hne : [] ∉ pieces)
    (hflatten : pieces.flatten = messages.flatMap frame) (h : HeadersWhole messages pieces) :
    Leads server.Step (fun conn => conn.handler = .endOfTransmission writeEot ∧
        conn.outgoing = out ++ replies messages ∧ Ended messages conn.incoming)
      ⟨.receive .header, pieces, out⟩ := by
  induction messages generalizing pieces out with
  | nil =>
      obtain rfl : pieces = [] := by
        cases pieces with
        | nil => rfl
        | cons piece pieces =>
            have hpiece : piece = [] := (List.append_eq_nil_iff.mp hflatten).1
            exact absurd (by simp [hpiece]) hne
      refine (endOfStream_leads out).mono ?_
      rintro conn rfl
      exact ⟨rfl, (List.append_nil out).symm, .inl rfl⟩
  | cons msg messages ih =>
      obtain ⟨hlt, hcuts⟩ := h [] msg messages rfl (by simp)
      have hheader : ∀ c ∈ cuts pieces, 4 ≤ c := by
        intro c hc
        have hpos := cuts_pos hne c hc
        have := hcuts c hc
        simp only [List.flatMap_nil, List.length_nil] at this
        omega
      by_cases hmsg : msg = []
      · subst hmsg
        refine (receive_leads out hlt hne hflatten hheader).mono ?_
        rintro conn ⟨hhandler, rfl, hfollowing, -⟩
        exact ⟨hhandler, by simp [replies], .inr ⟨[], messages, rfl, hfollowing⟩⟩
      · refine (request_leads hsize out hmsg hlt hne hflatten hheader).trans ?_
        rintro ⟨handler, incoming, outgoing⟩ ⟨rfl, rfl, hfollowing, hleft⟩
        have hwhole := ((headersWhole_cons hne hleft).mp h).2 hmsg
        refine (ih _ hleft.nonempty hfollowing hwhole).mono ?_
        intro conn ⟨hhandler, hout, hended⟩
        refine ⟨hhandler, ?_, ?_⟩
        · simp [hout, replies, hmsg]
        · refine hended.imp id ?_
          rintro ⟨before, after, rfl, hafter⟩
          exact ⟨msg :: before, after, rfl, hafter⟩

theorem leftLoop_step {conn conn' : Connection} (hleft : conn.handler.LeftLoop)
    (hstep : server.Step conn conn') :
    conn'.handler.LeftLoop ∧ conn'.incoming = conn.incoming := by
  cases hstep with
  | @read handler _ _ _ _ hread =>
      cases hread with
      | read hask =>
          cases handler with
          | receive call => exact absurd hleft not_false
          | reply call => exact absurd hleft not_false
          | endOfTransmission call => exact absurd hask (by simp [Server.reader])
          | closed report => exact absurd hask (by simp [Server.reader])
          | fault => exact absurd hleft not_false
  | @write handler _ _ _ _ hwrite =>
      refine ⟨?_, rfl⟩
      cases hwrite with
      | @write _ k _ _ hoffer =>
          cases handler with
          | receive call => exact absurd hleft not_false
          | reply call => exact absurd hleft not_false
          | endOfTransmission call =>
              change (server.afterEndOfTransmission (call.onWrite k)).LeftLoop
              cases call.onWrite k <;> trivial
          | closed report => exact absurd hoffer (by simp [Server.writer])
          | fault => exact absurd hleft not_false

/-- After the loop nothing is read. -/
theorem leftLoop_reaches {conn conn' : Connection} (hleft : conn.handler.LeftLoop)
    (hrun : Reaches server.Step conn conn') : conn'.incoming = conn.incoming := by
  have h := hrun.invariant (I := fun c => c.handler.LeftLoop ∧ c.incoming = conn.incoming)
    (fun c c' hc hstep => (leftLoop_step hc.1 hstep).imp id fun h => h.trans hc.2) ⟨hleft, rfl⟩
  exact h.2

theorem answers_of_headersWhole (hsize : 13 ≤ server.RCVBUFSIZE) {stream : FragmentedStream}
    (h : HeadersWhole stream.messages stream.pieces) : server.Answers stream := by
  have hloop := loop_leads hsize stream.messages [] stream.nonempty
    stream.flatten h
  constructor
  · intro conn hrun hleft
    obtain ⟨conn', ⟨hhandler, -, hended⟩, hrun' | hrun'⟩ := hloop.before_or_after hrun
    · rwa [leftLoop_reaches hleft hrun'] at hended
    · have hleft' : conn'.handler.LeftLoop := by
        rw [hhandler]
        trivial
      rwa [leftLoop_reaches hleft' hrun']
  · refine hloop.trans ?_
    rintro ⟨handler, incoming, outgoing⟩ ⟨rfl, rfl, -⟩
    exact end_leads incoming (replies stream.messages)

/-! ## A header in two pieces -/

/-- The loop has been left although the message is still to be answered, or a block for the
message could not be allocated. -/
def Premature (messages : List Bytes) (conn : Connection) : Prop :=
  conn.handler = .receive .fault ∨ conn.handler.LeftLoop ∧ conn.incoming ≠ [] ∧
    ∃ before msg after, messages = before ++ msg :: after ∧ [] ∉ before ∧
      (msg ++ after.flatMap frame).length < conn.incoming.flatten.length

/-- A `recv` of less than four bytes ends the session. -/
theorem cut_reaches {msg following : Bytes} {pieces : List Bytes} (out : Bytes)
    (hflatten : pieces.flatten = frame msg ++ following) {c : ℕ} (hc : c ∈ cuts pieces)
    (hlt : c < 4) :
    ∃ conn, Reaches server.Step ⟨.receive .header, pieces, out⟩ conn ∧ conn.handler.LeftLoop ∧
      conn.incoming ≠ [] ∧ (msg ++ following).length < conn.incoming.flatten.length := by
  have hcut : (receive 4 pieces).1.length < 4 := (receive_le_cut hc).trans_lt hlt
  have hlength := congrArg List.length ((receive_append 4 pieces).trans hflatten)
  simp only [List.length_append, length_frame] at hlength
  have hzero : server.reader.onRead (.receive .header) (receive 4 pieces).1 =
      .endOfTransmission writeEot := by
    have hcount : sizeT (ReadResult.received (receive 4 pieces).1).count ≠ 4 := by
      rw [show sizeT (ReadResult.received (receive 4 pieces).1).count = _ from
        sizeT_natCast (by omega)]
      omega
    simp only [Server.reader, ReadAndStore.onRead, if_pos hcount]
    rfl
  refine ⟨_, .single (.read (.read rfl)), ?_, ?_, ?_⟩
  · rw [hzero]
    trivial
  · intro hnil
    dsimp only at hnil
    rw [hnil] at hlength
    simp at hlength
    omega
  · rw [List.length_append]
    dsimp only
    omega

/-- `malloc(ulen + 1)` is `malloc(0)` for the greatest length. -/
theorem fault_reaches {msg following : Bytes} {pieces : List Bytes} (out : Bytes)
    (hflatten : pieces.flatten = frame msg ++ following) (hcuts : ∀ c ∈ cuts pieces, 4 ≤ c)
    (hmax : msg.length = 2 ^ 32 - 1) :
    ∃ conn, Reaches server.Step ⟨.receive .header, pieces, out⟩ conn ∧
      conn.handler = .receive .fault := by
  have hfour : (receive 4 pieces).1.length = 4 := by
    apply receive_whole _ hcuts
    rw [hflatten, List.length_append, length_frame]
    omega
  have hheader : (receive 4 pieces).1 = htonl (2 ^ 32 - 1) := by
    have hsplit := (receive_append 4 pieces).trans hflatten
    rw [frame, List.append_assoc, hmax] at hsplit
    exact (List.append_inj hsplit hfour).1
  refine ⟨_, .single (.read (.read rfl)), ?_⟩
  rw [hheader]
  have hread := onRead_htonl (show 2 ^ 32 - 1 < 2 ^ 32 by norm_num)
  rw [if_neg (by norm_num)] at hread
  simp only [Server.reader, hread]
  rfl

theorem premature_of_not_headersWhole (hsize : 13 ≤ server.RCVBUFSIZE) (messages : List Bytes)
    (hlength : ∀ msg ∈ messages, msg.length < 2 ^ 32) {pieces : List Bytes} (out : Bytes)
    (hne : [] ∉ pieces) (hflatten : pieces.flatten = messages.flatMap frame)
    (h : ¬ HeadersWhole messages pieces) :
    ∃ conn, Reaches server.Step ⟨.receive .header, pieces, out⟩ conn ∧
      Premature messages conn := by
  induction messages generalizing pieces out with
  | nil => exact absurd (by intro before msg after heq; simp at heq) h
  | cons msg messages ih =>
      rw [List.flatMap_cons] at hflatten
      by_cases hcut : ∃ c ∈ cuts pieces, c < 4
      · obtain ⟨c, hc, hlt⟩ := hcut
        obtain ⟨conn, hrun, hleft, hincoming, hlast⟩ := cut_reaches out hflatten hc hlt
        exact ⟨conn, hrun, .inr ⟨hleft, hincoming, [], msg, messages, rfl, by simp, hlast⟩⟩
      push Not at hcut
      by_cases hmax : msg.length = 2 ^ 32 - 1
      · obtain ⟨conn, hrun, hfault⟩ := fault_reaches out hflatten hcut hmax
        exact ⟨conn, hrun, .inl hfault⟩
      have hlt : msg.length < 2 ^ 32 - 1 := by
        have := hlength msg (by simp)
        omega
      by_cases hmsg : msg = []
      · have hreceive : Leads server.Step _ _ := receive_leads out hlt hne hflatten hcut
        obtain ⟨conn, -, -, -, -, hleft⟩ := hreceive.exists_reaches
        exact absurd ((headersWhole_cons hne hleft).mpr ⟨⟨hlt, hcut⟩, fun h => absurd hmsg h⟩) h
      · obtain ⟨⟨handler, incoming, outgoing⟩, hrun, rfl, -, hfollowing, hleft⟩ :=
          (request_leads hsize out hmsg hlt hne hflatten hcut).exists_reaches
        have hrest : ¬ HeadersWhole messages incoming := fun hwhole =>
          h ((headersWhole_cons hne hleft).mpr ⟨⟨hlt, hcut⟩, fun _ => hwhole⟩)
        obtain ⟨conn, hrun', hpremature⟩ := ih (fun m hm => hlength m (by simp [hm])) outgoing
          hleft.nonempty hfollowing hrest
        refine ⟨conn, hrun.trans hrun', hpremature.imp id ?_⟩
        rintro ⟨hleft', hincoming, before, msg', after, rfl, hbefore, hlast⟩
        exact ⟨hleft', hincoming, msg :: before, msg', after, rfl, by simp [hbefore, Ne.symm hmsg], hlast⟩

theorem no_step {handler : HandleTcpClient} {incoming : List Bytes} {outgoing : Bytes}
    (hask : server.reader.asked handler = none) (hoffer : server.writer.offered handler = none)
    (conn : Connection) : ¬ server.Step ⟨handler, incoming, outgoing⟩ conn := by
  intro hstep
  cases hstep with
  | read hread =>
      cases hread with
      | read hask' => exact absurd hask' (by simp [hask])
  | write hwrite =>
      cases hwrite with
      | write hoffer' => exact absurd hoffer' (by simp [hoffer])

/-- What follows a frame without bytes that comes after `before` is a part of what follows
the message after `before`. -/
theorem length_after_le {before before' after after' : List Bytes} {msg : Bytes}
    (heq : before ++ msg :: after = before' ++ [] :: after') (hbefore : [] ∉ before) :
    (after'.flatMap frame).length ≤ (msg ++ after.flatMap frame).length := by
  rw [List.length_append]
  rcases List.append_eq_append_iff.mp heq with ⟨as, -, has⟩ | ⟨bs, rfl, hbs⟩
  · cases as with
    | nil =>
        obtain ⟨rfl, rfl⟩ := List.cons.inj has
        simp
    | cons a as =>
        rw [List.cons_append] at has
        obtain ⟨rfl, rfl⟩ := List.cons.inj has
        simp only [List.flatMap_append, List.flatMap_cons, List.length_append]
        omega
  · cases bs with
    | nil =>
        obtain ⟨rfl, rfl⟩ := List.cons.inj hbs
        simp
    | cons b bs =>
        obtain ⟨rfl, -⟩ := List.cons.inj hbs
        exact absurd (by simp) hbefore

theorem Premature.not_answers {stream : FragmentedStream} {conn : Connection}
    (h : Premature stream.messages conn) (hrun : Reaches server.Step (.start stream.pieces) conn) :
    ¬ server.Answers stream := by
  intro hanswers
  rcases h with hfault | ⟨hleft, hincoming, before, msg, after, hmessages, hbefore, hlast⟩
  · obtain ⟨handler, incoming, outgoing⟩ := conn
    obtain rfl : handler = .receive .fault := hfault
    have hclosed : ∀ u v : Connection, u.handler = .closed server.report ∧
        u.outgoing = replies stream.messages ++ frame [] → server.Step u v →
        v.handler = .closed server.report ∧ v.outgoing = replies stream.messages ++ frame [] := by
      rintro ⟨handler, incoming, outgoing⟩ v ⟨rfl, -⟩ hstep
      exact absurd hstep (no_step rfl rfl v)
    have hend := hanswers.answered.of_stuck hclosed hrun (no_step rfl rfl)
    cases hend.1
  · rcases hanswers.zero conn hrun hleft with hnil | ⟨before', after', hmessages', hrest⟩
    · exact hincoming hnil
    · have hle := length_after_le (hmessages.symm.trans hmessages') hbefore
      rw [hrest] at hlast
      omega

theorem answers_iff (hsize : 13 ≤ server.RCVBUFSIZE) (stream : FragmentedStream) :
    server.Answers stream ↔ HeadersWhole stream.messages stream.pieces := by
  constructor
  · intro hanswers
    by_contra h
    obtain ⟨conn, hrun, hpremature⟩ := premature_of_not_headersWhole hsize
      stream.messages stream.length_lt [] stream.nonempty stream.flatten h
    exact hpremature.not_answers hrun hanswers
  · exact answers_of_headersWhole hsize

/-- Both copies of the request loop answer every request before the end of the transmission,
and leave the loop at this end only, if and only if no header arrives in two pieces. -/
theorem requests_answered_iff (stream : FragmentedStream) :
    (squareServer.Answers stream ↔ HeadersWhole stream.messages stream.pieces) ∧
      (daemon.Answers stream ↔ HeadersWhole stream.messages stream.pieces) :=
  ⟨answers_iff (by decide) stream, answers_iff (by decide) stream⟩

/-- A request for the square of a number whose header arrives in two pieces. -/
def cutRequest : FragmentedStream where
  messages := [[51], []]
  pieces := [[0], [0, 0, 1, 51, 0, 0, 0, 0]]
  length_lt := by decide
  nonempty := by decide
  flatten := by decide

theorem cutRequest_not_answered : ¬ squareServer.Answers cutRequest ∧ ¬ daemon.Answers cutRequest := by
  have hcut : ¬ HeadersWhole cutRequest.messages cutRequest.pieces := by
    intro h
    have h1 := (h [] [51] [[]] rfl (by simp)).2 1 (by decide)
    simp at h1
  constructor
  · exact fun h => hcut ((answers_iff (by decide) _).mp h)
  · exact fun h => hcut ((answers_iff (by decide) _).mp h)

end SysProg.Square
