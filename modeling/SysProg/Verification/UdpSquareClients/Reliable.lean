import SysProg.Model.UdpSquareClients
import SysProg.Verification.UdpSquare.Replies

/-! # What a client prints

The requests of the clients end within the datagram, so that what other datagrams have left in the
buffer of the server does not matter, and the server answers them with the squares of their
numbers. What else a client takes for its reply has been sent by another socket, or the server has
answered to another socket with the address of the client. -/

namespace SysProg.UdpSquareClients

open Transmission UdpSquare

variable {ι : Type} {host : Host} {args : ι → Args} {s t : State ι}

/-! ## One request and one reply -/

theorem isInt_atoi (str : Bytes) : IsInt (atoi str) :=
  isInt_int32 _

theorem length_request {x : ℤ} (hx : IsInt x) : (request x).length = 13 := by
  rw [request, List.length_append, length_format12d hx, List.length_singleton]

theorem numberEnds_request {x : ℤ} : numberEnds (request x) = true := by
  have hnul : (0 : UInt8) ∈ unsigned (request x) := by
    have hdrop : (request x).dropWhile isspace = formatInt x ++ [0] := by
      have hspace : ∀ b ∈ (formatInt x ++ [0]).head?, isspace b = false := by
        intro b hb
        have hmem : b ∈ formatInt x ++ [0] := List.mem_of_mem_head? hb
        rcases List.mem_append.mp hmem with hmem | hmem
        · rcases byte_of_mem_formatInt hmem with rfl | hdigit
          · rfl
          · exact isspace_of_isdigit hdigit
        · rw [List.mem_singleton.mp hmem]
          rfl
      rw [request, format12d, List.append_assoc, dropWhile_blanks _ hspace]
    rw [unsigned, hdrop]
    have hne : formatInt x ≠ [] := by
      unfold formatInt
      split
      · exact List.cons_ne_nil _ _
      · exact decimal_ne_nil _
    cases hformat : formatInt x with
    | nil => exact absurd hformat hne
    | cons b rest =>
        rw [List.cons_append]
        split
        · next h =>
            rw [← (List.cons.inj h).2]
            simp
        · next h =>
            rw [← (List.cons.inj h).2]
            simp
        · simp
  rw [numberEnds, List.any_eq_true]
  exact ⟨0, hnul, rfl⟩

/-- Whatever has come before, the server squares the number of a client. -/
theorem replyTo_request {x : ℤ} (hx : IsInt x) (buffer : InputBuffer) :
    replyTo buffer (request x) = .ok (request (int32 (x * x))) := by
  have hlength := length_request hx
  have hatoi : atoi (request x) = x := atoi_format12d hx (by simp [isdigit])
  have h := replyTo_of_numberEnds
    (d := ⟨request x, by omega, by rw [hlength]; decide⟩) numberEnds_request buffer
  rw [hatoi] at h
  exact h

/-- What the server sends has always the same form. -/
theorem replyTo_ok {buffer : InputBuffer} {datagram reply : Bytes}
    (h : replyTo buffer datagram = .ok reply) : ∃ y, IsInt y ∧ reply = request y := by
  unfold replyTo at h
  cases hatoi : atoiBuffer (recvfrom buffer datagram) with
  | error e =>
      rw [hatoi] at h
      cases h
  | ok x =>
      rw [hatoi] at h
      exact ⟨int32 (x * x), isInt_int32 _, (Except.ok.inj h).symm⟩

theorem replyTo_take (buffer : InputBuffer) (datagram : Bytes) :
    replyTo buffer (datagram.take SQUAREMAX) = replyTo buffer datagram := by
  have hrecv : recvfrom buffer (datagram.take SQUAREMAX) = recvfrom buffer datagram := by
    simp only [recvfrom, List.take_take, min_self]
  rw [replyTo, replyTo, hrecv]

/-- The server reads behind its buffer only for a number that does not end in its datagram. -/
theorem numberEnds_of_replyTo {buffer : InputBuffer} {datagram : Bytes} {e : Fault}
    (h : replyTo buffer datagram = .error e) : numberEnds (datagram.take SQUAREMAX) = false := by
  by_contra hends
  rw [Bool.not_eq_false] at hends
  have hne : datagram.take SQUAREMAX ≠ [] := by
    intro hempty
    rw [hempty] at hends
    cases hends
  have hreply := replyTo_of_numberEnds
    (d := ⟨datagram.take SQUAREMAX, List.length_pos_iff.mpr hne, List.length_take_le _ _⟩)
    hends buffer
  rw [replyTo_take, h] at hreply
  cases hreply

/-- A reply of the server is read to its end. -/
theorem receiveReply_server {x y : ℤ} (hx : IsInt x) (hy : IsInt y) {args : Args} {reply : Reply}
    (hsource : args.serverAddress.ip = reply.source.ip) (hdatagram : reply.datagram = request y) :
    receiveReply args x reply = .printed x y := by
  have hlength := length_request hy
  have htake : (request y).take SQUAREMAX = request y :=
    List.take_of_length_le (by rw [hlength]; decide)
  have hatoi : atoi ((recvfrom args.squareBuffer (request y)).bytes.set 13 0) = y := by
    have hbytes : (recvfrom args.squareBuffer (request y)).bytes =
        format12d y ++ 0 :: args.squareBuffer.bytes.drop 13 := by
      simp only [recvfrom, htake, hlength]
      rw [request, List.append_assoc, List.singleton_append]
    have hformat := length_format12d hy
    rw [hbytes, List.set_append_right _ _ (by omega), hformat]
    exact atoi_format12d hy (by simp [isdigit])
  simp only [receiveReply, hdatagram, htake, hlength, length_request hx, hsource, ne_eq,
    not_true_eq_false, if_false, hatoi]

/-! ## The invariant -/

/-- The number on the command line of a client. -/
def number (args : Args) : ℤ :=
  atoi args.word.bytes

/-- What the client is to print. -/
def answer (args : Args) : ℤ :=
  int32 (number args * number args)

theorem isInt_number (args : Args) : IsInt (number args) :=
  isInt_atoi _

theorem isInt_answer (args : Args) : IsInt (answer args) :=
  isInt_int32 _

/-- The request that a client sends. -/
def ownRequest (args : ι → Args) (i : ι) : Request ι :=
  ⟨some i, (args i).serverAddress, request (number (args i))⟩

/-- Among these requests to the server is one with the address of the client. -/
def Impersonated (host : Host) (foreign : List (Request ι)) (i : ι) : Prop :=
  ∃ r ∈ foreign, r.source = some i ∧ r.destination.ip ∈ host.interfaces ∧
    r.destination.port = host.serverPort

theorem Impersonated.mono {foreign foreign' : List (Request ι)} {i : ι}
    (h : Impersonated host foreign i) (hsub : foreign ⊆ foreign') :
    Impersonated host foreign' i := by
  obtain ⟨r, hr, hsource⟩ := h
  exact ⟨r, hsub hr, hsource⟩

/-- The socket of the server has sent the reply to the client, whose request it answers unless the
client has been impersonated. -/
structure FromServer (host : Host) (args : Args) (impersonated : Prop) (reply : Reply) : Prop where
  ip : reply.source.ip ∈ host.interfaces
  port : reply.source.port = host.serverPort
  datagram : ∃ y, IsInt y ∧ reply.datagram = request y ∧ (y = answer args ∨ impersonated)

theorem FromServer.mono {args : Args} {impersonated impersonated' : Prop} {reply : Reply}
    (h : FromServer host args impersonated reply) (himp : impersonated → impersonated') :
    FromServer host args impersonated' reply := by
  obtain ⟨y, hy, hdatagram, hanswer⟩ := h.datagram
  exact ⟨h.ip, h.port, y, hy, hdatagram, hanswer.imp_right himp⟩

/-- How a client can be, if `foreign` is what other sockets have sent to it. -/
inductive ClientInv (host : Host) (args : Args) (foreign : List Reply) (impersonated : Prop) :
    Client → Prop
  | starting : ClientInv host args foreign impersonated .starting
  | waiting : ClientInv host args foreign impersonated (.waiting (number args))
  | printed (y : ℤ) (hanswer : y = answer args ∨ impersonated) :
      ClientInv host args foreign impersonated (.printed (number args) y)
  | deceived (y : ℤ) {reply : Reply} (hreply : reply ∈ foreign)
      (hip : args.serverAddress.ip = reply.source.ip)
      (hlength : (reply.datagram.take SQUAREMAX).length = 13) :
      ClientInv host args foreign impersonated (.printed (number args) y)
  | usage (hword : SQUAREMAX < args.word.bytes.length) :
      ClientInv host args foreign impersonated .usage
  | sendto : ClientInv host args foreign impersonated (.died .sendto)
  | recvfrom : ClientInv host args foreign impersonated (.died .recvfrom)
  | length {reply : Reply} (hreply : reply ∈ foreign)
      (hlength : (reply.datagram.take SQUAREMAX).length ≠ 13) :
      ClientInv host args foreign impersonated (.died .length)
  | unknownSource {reply : Reply} (hreply : reply ∈ foreign)
      (hip : args.serverAddress.ip ≠ reply.source.ip) :
      ClientInv host args foreign impersonated (.died .unknownSource)
  /-- The server has another address than the one that the client knows. -/
  | otherInterface {ip : UInt32} (hinterface : ip ∈ host.interfaces)
      (hip : args.serverAddress.ip ≠ ip) :
      ClientInv host args foreign impersonated (.died .unknownSource)

theorem ClientInv.mono {args : Args} {foreign foreign' : List Reply}
    {impersonated impersonated' : Prop} {client : Client}
    (h : ClientInv host args foreign impersonated client) (hsub : foreign ⊆ foreign')
    (himp : impersonated → impersonated') : ClientInv host args foreign' impersonated' client := by
  cases h with
  | starting => exact .starting
  | waiting => exact .waiting
  | printed y hanswer => exact .printed y (hanswer.imp_right himp)
  | deceived y hreply hip hlength => exact .deceived y (hsub hreply) hip hlength
  | usage hword => exact .usage hword
  | sendto => exact .sendto
  | recvfrom => exact .recvfrom
  | length hreply hlength => exact .length (hsub hreply) hlength
  | unknownSource hreply hip => exact .unknownSource (hsub hreply) hip
  | otherInterface hinterface hip => exact .otherInterface hinterface hip

structure Inv (host : Host) (args : ι → Args) (s : State ι) : Prop where
  requests : ∀ r ∈ s.requests, r ∈ s.foreignRequests ∨ ∃ i, r = ownRequest args i
  replies : ∀ i, ∀ r ∈ s.replies i, r ∈ s.foreignReplies i ∨
    FromServer host (args i) (Impersonated host s.foreignRequests i) r
  clients : ∀ i, ClientInv host (args i) (s.foreignReplies i)
    (Impersonated host s.foreignRequests i) (s.clients i)
  fault : s.server = .fault → ∃ r ∈ s.foreignRequests,
    numberEnds (r.datagram.take SQUAREMAX) = false

theorem inv_start (host : Host) (args : ι → Args) (inputBuffer : InputBuffer) :
    Inv host args (start inputBuffer) where
  requests _ h := absurd h List.not_mem_nil
  replies _ _ h := absurd h List.not_mem_nil
  clients _ := .starting
  fault := nofun

theorem Inv.setRequests (h : Inv host args s) {requests : List (Request ι)}
    (hrequests : ∀ r ∈ requests, r ∈ s.foreignRequests ∨ ∃ i, r = ownRequest args i) :
    Inv host args { s with requests := requests } :=
  ⟨hrequests, h.replies, h.clients, h.fault⟩

variable [DecidableEq ι]

theorem Inv.setClient (h : Inv host args s) {i : ι} {client : Client}
    (hclient : ClientInv host (args i) (s.foreignReplies i)
      (Impersonated host s.foreignRequests i) client) :
    Inv host args (s.setClient i client) := by
  refine ⟨h.requests, h.replies, ?_, h.fault⟩
  intro j
  by_cases hij : j = i
  · subst hij
    simpa only [State.setClient, Function.update_self] using hclient
  · simpa only [State.setClient, Function.update_of_ne hij] using h.clients j

theorem Inv.setReplies (h : Inv host args s) {i : ι} {replies : List Reply}
    (hreplies : ∀ r ∈ replies, r ∈ s.foreignReplies i ∨
      FromServer host (args i) (Impersonated host s.foreignRequests i) r) :
    Inv host args (s.setReplies i replies) := by
  refine ⟨h.requests, ?_, h.clients, h.fault⟩
  intro j r hr
  by_cases hij : j = i
  · subst hij
    simp only [State.setReplies, Function.update_self] at hr
    exact hreplies r hr
  · simp only [State.setReplies, Function.update_of_ne hij] at hr
    exact h.replies j r hr

/-! ## The clients -/

theorem prepare_eq (args : Args) : prepare args =
    if SQUAREMAX < args.word.bytes.length then .error .usage else .ok (number args) := by
  have hlength := length_format12d (isInt_atoi args.word.bytes)
  have hfits : ¬ SQUAREMAX < (format12d (atoi args.word.bytes)).length := by
    rw [hlength]
    decide
  rw [prepare]
  dsimp only
  rw [if_neg hfits]
  rfl

theorem Inv.send (h : Inv host args s) {i : ι} {sent : Bool}
    (hstep : UdpSquareClients.send args s i sent = some t) : Inv host args t := by
  simp only [UdpSquareClients.send, Option.ite_none_right_eq_some, prepare_eq] at hstep
  obtain ⟨-, hstep⟩ := hstep
  by_cases hword : SQUAREMAX < (args i).word.bytes.length
  · rw [if_pos hword] at hstep
    obtain rfl := Option.some.inj hstep
    exact h.setClient (.usage hword)
  · rw [if_neg hword] at hstep
    cases sent with
    | false =>
        obtain rfl := Option.some.inj hstep
        exact h.setClient .sendto
    | true =>
        obtain rfl := Option.some.inj hstep
        refine (h.setRequests ?_).setClient .waiting
        intro r hr
        rcases List.mem_append.mp hr with hr | hr
        · exact h.requests r hr
        · obtain rfl := List.mem_singleton.mp hr
          exact .inr ⟨i, rfl⟩

/-- What a client makes of the datagram that it gets. -/
theorem clientInv_receiveReply {args : Args} {foreign : List Reply} {impersonated : Prop}
    {reply : Reply} (hreply : reply ∈ foreign ∨ FromServer host args impersonated reply) :
    ClientInv host args foreign impersonated (receiveReply args (number args) reply) := by
  rcases hreply with hreply | hserver
  · have hrequest := length_request (isInt_number args)
    by_cases hlength : (reply.datagram.take SQUAREMAX).length = 13
    · by_cases hip : args.serverAddress.ip = reply.source.ip
      · simp only [receiveReply, hlength, hrequest, hip, ne_eq, not_true_eq_false, if_false]
        exact .deceived _ hreply hip hlength
      · simp only [receiveReply, hlength, hrequest, hip, ne_eq, not_true_eq_false, if_false,
          not_false_eq_true, if_true]
        exact .unknownSource hreply hip
    · rw [receiveReply, hrequest]
      simp only [ne_eq, hlength, not_false_eq_true, if_true]
      exact .length hreply hlength
  · obtain ⟨y, hy, hdatagram, hanswer⟩ := hserver.datagram
    by_cases hip : args.serverAddress.ip = reply.source.ip
    · rw [receiveReply_server (isInt_number args) hy hip hdatagram]
      exact .printed y hanswer
    · have hlength : (reply.datagram.take SQUAREMAX).length = 13 := by
        rw [hdatagram, List.length_take, length_request hy]
        rfl
      simp only [receiveReply, hlength, length_request (isInt_number args), hip, ne_eq,
        not_true_eq_false, if_false, not_false_eq_true, if_true]
      exact .otherInterface hserver.ip hip

theorem Inv.receive (h : Inv host args s) {i : ι} {reply : Reply}
    (hstep : UdpSquareClients.receive args s i reply = some t) : Inv host args t := by
  unfold UdpSquareClients.receive at hstep
  split at hstep
  · next x hwaiting =>
      obtain ⟨hmem, hstep⟩ := Option.ite_none_right_eq_some.mp hstep
      obtain rfl := Option.some.inj hstep
      have hclient := h.clients i
      rw [hwaiting] at hclient
      cases hclient with
      | waiting =>
          have hrest : Inv host args (s.setReplies i ((s.replies i).erase reply)) :=
            h.setReplies fun r hr => h.replies i r (List.mem_of_mem_erase hr)
          exact hrest.setClient (clientInv_receiveReply (h.replies i reply hmem))
  · cases hstep

theorem Inv.recvfromFails (h : Inv host args s) {i : ι}
    (hstep : UdpSquareClients.recvfromFails s i = some t) : Inv host args t := by
  unfold UdpSquareClients.recvfromFails at hstep
  split at hstep
  · obtain rfl := Option.some.inj hstep
    exact h.setClient .recvfrom
  · cases hstep

/-! ## The server -/

omit [DecidableEq ι] in
/-- What the server answers to a request with the address of a client. -/
theorem Inv.fromServer (h : Inv host args s) {r : Request ι} (hmem : r ∈ s.requests)
    (hip : r.destination.ip ∈ host.interfaces) (hport : r.destination.port = host.serverPort)
    {i : ι} (hsource : r.source = some i) {interface : UInt32}
    (hinterface : interface ∈ host.interfaces) {text : Bytes}
    (htext : replyTo s.inputBuffer r.datagram = .ok text) :
    FromServer host (args i) (Impersonated host s.foreignRequests i)
      ⟨⟨interface, host.serverPort⟩, text⟩ := by
  refine ⟨hinterface, rfl, ?_⟩
  rcases h.requests r hmem with hforeign | ⟨j, hown⟩
  · obtain ⟨y, hy, hrequest⟩ := replyTo_ok htext
    exact ⟨y, hy, hrequest, .inr ⟨r, hforeign, hsource, hip, hport⟩⟩
  · rw [hown] at hsource htext
    obtain rfl := Option.some.inj hsource
    rw [ownRequest, replyTo_request (isInt_number _)] at htext
    exact ⟨_, isInt_answer _, (Except.ok.inj htext).symm, .inl rfl⟩

theorem Inv.serve (h : Inv host args s) {r : Request ι} {interface : UInt32} {sent : Bool}
    (hstep : UdpSquareClients.serve host s r interface sent = some t) : Inv host args t := by
  simp only [UdpSquareClients.serve, Option.ite_none_right_eq_some] at hstep
  obtain ⟨⟨hrunning, hmem, hip, hport, hinterface⟩, hstep⟩ := hstep
  have h' : Inv host args { s with requests := s.requests.erase r } :=
    h.setRequests fun r' hr' => h.requests r' (List.mem_of_mem_erase hr')
  cases hreply : replyTo s.inputBuffer r.datagram with
  | error e =>
      rw [hreply] at hstep
      obtain rfl := Option.some.inj hstep
      refine ⟨h'.requests, h'.replies, h'.clients, fun _ => ?_⟩
      rcases h.requests r hmem with hforeign | ⟨i, hown⟩
      · exact ⟨r, hforeign, numberEnds_of_replyTo hreply⟩
      · rw [hown, ownRequest, replyTo_request (isInt_number _)] at hreply
        cases hreply
  | ok text =>
      rw [hreply] at hstep
      cases sent with
      | false =>
          obtain rfl := Option.some.inj hstep
          exact ⟨h'.requests, h'.replies, h'.clients, nofun⟩
      | true =>
          obtain rfl := Option.some.inj hstep
          cases hsource : r.source with
          | none => exact ⟨h'.requests, h'.replies, h'.clients, h'.fault⟩
          | some i =>
              have hserved : Inv host args { s with
                  requests := s.requests.erase r
                  inputBuffer := recvfrom s.inputBuffer r.datagram } :=
                ⟨h'.requests, h'.replies, h'.clients, h'.fault⟩
              refine hserved.setReplies (i := i) ?_
              intro r' hr'
              rcases List.mem_append.mp hr' with hr' | hr'
              · exact h.replies i r' hr'
              · obtain rfl := List.mem_singleton.mp hr'
                exact .inr (h.fromServer hmem hip hport hsource hinterface hreply)

/-! ## All steps -/

omit [DecidableEq ι] in
theorem Inv.injectRequest (h : Inv host args s) (request : Request ι) :
    Inv host args { s with
      requests := s.requests ++ [request]
      foreignRequests := s.foreignRequests ++ [request] } := by
  have hsub : s.foreignRequests ⊆ s.foreignRequests ++ [request] := List.subset_append_left _ _
  have himp (i : ι) : Impersonated host s.foreignRequests i →
      Impersonated host (s.foreignRequests ++ [request]) i := fun h => h.mono hsub
  refine ⟨?_, ?_, fun i => (h.clients i).mono (List.Subset.refl _) (himp i), ?_⟩
  · intro r hr
    rcases List.mem_append.mp hr with hr | hr
    · exact (h.requests r hr).imp_left fun hforeign => hsub hforeign
    · exact .inl (List.mem_append_right _ hr)
  · intro i r hr
    exact (h.replies i r hr).imp_right fun hserver => hserver.mono (himp i)
  · intro hfault
    obtain ⟨r, hr, hends⟩ := h.fault hfault
    exact ⟨r, hsub hr, hends⟩

theorem Inv.injectReply (h : Inv host args s) (i : ι) (reply : Reply) :
    Inv host args { s.setReplies i (s.replies i ++ [reply]) with
      foreignReplies := Function.update s.foreignReplies i (s.foreignReplies i ++ [reply]) } := by
  have hsub (j : ι) : s.foreignReplies j ⊆
      Function.update s.foreignReplies i (s.foreignReplies i ++ [reply]) j := by
    by_cases hij : j = i
    · subst hij
      rw [Function.update_self]
      exact List.subset_append_left _ _
    · rw [Function.update_of_ne hij]
      exact List.Subset.refl _
  refine ⟨h.requests, ?_, fun j => (h.clients j).mono (hsub j) id, h.fault⟩
  intro j r hr
  by_cases hij : j = i
  · subst hij
    simp only [State.setReplies, Function.update_self] at hr ⊢
    rcases List.mem_append.mp hr with hr | hr
    · exact (h.replies j r hr).imp_left fun hforeign => List.mem_append_left _ hforeign
    · exact .inl (List.mem_append_right _ hr)
  · simp only [State.setReplies, Function.update_of_ne hij] at hr ⊢
    exact h.replies j r hr

theorem Inv.act (h : Inv host args s) {action : Action ι} (hstep : step host args s action = some t) :
    Inv host args t := by
  cases action with
  | send i sent => exact h.send hstep
  | receive i reply => exact h.receive hstep
  | recvfromFails i => exact h.recvfromFails hstep
  | serve r interface sent => exact h.serve hstep
  | serverFails =>
      obtain ⟨-, hstep⟩ := Option.ite_none_right_eq_some.mp hstep
      obtain rfl := Option.some.inj hstep
      exact ⟨h.requests, h.replies, h.clients, nofun⟩
  | injectRequest request =>
      obtain rfl := Option.some.inj hstep
      exact h.injectRequest request
  | injectReply i reply =>
      obtain rfl := Option.some.inj hstep
      exact h.injectReply i reply
  | loseRequest r =>
      obtain rfl := Option.some.inj hstep
      exact h.setRequests fun r' hr' => h.requests r' (List.mem_of_mem_erase hr')
  | loseReply i reply =>
      obtain rfl := Option.some.inj hstep
      exact h.setReplies fun r hr => h.replies i r (List.mem_of_mem_erase hr)
  | duplicateRequest r =>
      obtain ⟨hmem, hstep⟩ := Option.ite_none_right_eq_some.mp hstep
      obtain rfl := Option.some.inj hstep
      refine h.setRequests fun r' hr' => ?_
      rcases List.mem_append.mp hr' with hr' | hr'
      · exact h.requests r' hr'
      · exact List.mem_singleton.mp hr' ▸ h.requests r hmem
  | duplicateReply i reply =>
      obtain ⟨hmem, hstep⟩ := Option.ite_none_right_eq_some.mp hstep
      obtain rfl := Option.some.inj hstep
      refine h.setReplies fun r hr => ?_
      rcases List.mem_append.mp hr with hr | hr
      · exact h.replies i r hr
      · exact List.mem_singleton.mp hr ▸ h.replies i reply hmem

/-! ## The result -/

/-- What the clients can rely on, and what the other sockets and the network can do to them. -/
structure Reliable (host : Host) (args : ι → Args) (s : State ι) : Prop where
  /-- Only the square is printed, unless another socket has sent a reply of the right length with
  the address of the server, or a request with the address of the client. -/
  printed : ∀ i x y, s.clients i = .printed x y → x = number (args i) ∧
    (y = int32 (x * x) ∨ Impersonated host s.foreignRequests i ∨ ∃ reply ∈ s.foreignReplies i,
      (args i).serverAddress.ip = reply.source.ip ∧ (reply.datagram.take SQUAREMAX).length = 13)
  inputTooLong : ∀ i, s.clients i ≠ .died .inputTooLong
  length : ∀ i, s.clients i = .died .length →
    ∃ reply ∈ s.foreignReplies i, (reply.datagram.take SQUAREMAX).length ≠ 13
  /-- A client dies of a reply of the server itself only if the server has several addresses. -/
  unknownSource : ∀ i, s.clients i = .died .unknownSource →
    (∃ reply ∈ s.foreignReplies i, (args i).serverAddress.ip ≠ reply.source.ip) ∨
      ∃ ip ∈ host.interfaces, (args i).serverAddress.ip ≠ ip
  usage : ∀ i, s.clients i = .usage → SQUAREMAX < (args i).word.bytes.length
  /-- No request of a client makes the server read behind its buffer. -/
  fault : s.server = .fault → ∃ r ∈ s.foreignRequests,
    numberEnds (r.datagram.take SQUAREMAX) = false
  /-- As long as its request is not lost and the server runs, a client that waits can get its
  square; and as long as a reply of the server from the address that the client knows is not lost,
  if no other socket has used the address of the client. -/
  answered : ∀ i x, s.clients i = .waiting x →
    (s.server = .running ∧ (args i).serverAddress.ip ∈ host.interfaces ∧
        (args i).serverAddress.port = host.serverPort ∧ ownRequest args i ∈ s.requests) ∨
      (¬ Impersonated host s.foreignRequests i ∧ ∃ reply ∈ s.replies i,
        reply ∉ s.foreignReplies i ∧ (args i).serverAddress.ip = reply.source.ip) →
    ∃ t, Reaches (Step host args) s t ∧ t.clients i = .printed x (int32 (x * x))

theorem Inv.receive_answer (h : Inv host args s) {i : ι} {x : ℤ} (hwaiting : s.clients i = .waiting x)
    {reply : Reply} (hmem : reply ∈ s.replies i)
    (hdatagram : reply.datagram = request (answer (args i)))
    (hip : (args i).serverAddress.ip = reply.source.ip) :
    ∃ t, Step host args s t ∧ t.clients i = .printed x (int32 (x * x)) := by
  have hclient := h.clients i
  rw [hwaiting] at hclient
  cases hclient with
  | waiting =>
      have hstep : step host args s (.receive i reply) =
          some ((s.setReplies i ((s.replies i).erase reply)).setClient i
            (receiveReply (args i) (number (args i)) reply)) := by
        simp only [step, UdpSquareClients.receive, hwaiting, if_pos hmem]
      refine ⟨_, ⟨_, hstep⟩, ?_⟩
      simp only [State.setClient, Function.update_self]
      exact receiveReply_server (isInt_number _) (isInt_answer _) hip hdatagram

/-- The server serves the request of a client that waits. -/
theorem serve_ownRequest (hrunning : s.server = .running) {i : ι}
    (hinterface : (args i).serverAddress.ip ∈ host.interfaces)
    (hport : (args i).serverAddress.port = host.serverPort)
    (hmem : ownRequest args i ∈ s.requests) :
    ∃ t, Step host args s t ∧ t.clients = s.clients ∧ ∃ reply ∈ t.replies i,
      reply.datagram = request (answer (args i)) ∧
        (args i).serverAddress.ip = reply.source.ip := by
  let reply : Reply :=
    ⟨⟨(args i).serverAddress.ip, host.serverPort⟩, request (answer (args i))⟩
  have hreply : replyTo s.inputBuffer (ownRequest args i).datagram = .ok reply.datagram :=
    replyTo_request (isInt_number _) _
  have hguard : s.server = .running ∧ ownRequest args i ∈ s.requests ∧
      (ownRequest args i).destination.ip ∈ host.interfaces ∧
      (ownRequest args i).destination.port = host.serverPort ∧
      (args i).serverAddress.ip ∈ host.interfaces :=
    ⟨hrunning, hmem, hinterface, hport, hinterface⟩
  let served : State ι := { s with
    requests := s.requests.erase (ownRequest args i)
    inputBuffer := recvfrom s.inputBuffer (ownRequest args i).datagram }
  have hstep : step host args s (.serve (ownRequest args i) (args i).serverAddress.ip true) =
      some (served.setReplies i (s.replies i ++ [reply])) := by
    simp only [step, UdpSquareClients.serve, if_pos hguard, hreply, if_true, served, reply]
    rfl
  refine ⟨_, ⟨_, hstep⟩, rfl, reply, ?_, rfl, rfl⟩
  simp [State.setReplies]

theorem Inv.answered (h : Inv host args s) {i : ι} {x : ℤ} (hwaiting : s.clients i = .waiting x)
    (hunderway : (s.server = .running ∧ (args i).serverAddress.ip ∈ host.interfaces ∧
        (args i).serverAddress.port = host.serverPort ∧ ownRequest args i ∈ s.requests) ∨
      (¬ Impersonated host s.foreignRequests i ∧ ∃ reply ∈ s.replies i,
        reply ∉ s.foreignReplies i ∧ (args i).serverAddress.ip = reply.source.ip)) :
    ∃ t, Reaches (Step host args) s t ∧ t.clients i = .printed x (int32 (x * x)) := by
  rcases hunderway with ⟨hrunning, hinterface, hport, hmem⟩ | ⟨himp, reply, hmem, hown, hip⟩
  · obtain ⟨t, ⟨action, haction⟩, hclients, reply, hreply, hdatagram, hip⟩ :=
      serve_ownRequest hrunning hinterface hport hmem
    have hwaiting' : t.clients i = .waiting x := by rw [hclients, hwaiting]
    obtain ⟨u, hstep, hprinted⟩ := (h.act haction).receive_answer hwaiting' hreply hdatagram hip
    exact ⟨u, .tail (.single ⟨action, haction⟩) hstep, hprinted⟩
  · have hserver := (h.replies i reply hmem).resolve_left hown
    obtain ⟨y, -, hdatagram, hanswer⟩ := hserver.datagram
    obtain rfl := hanswer.resolve_right himp
    obtain ⟨t, hstep, hprinted⟩ := h.receive_answer hwaiting hmem hdatagram hip
    exact ⟨t, .single hstep, hprinted⟩

omit [DecidableEq ι] in
theorem Inv.printed (h : Inv host args s) {i : ι} {x y : ℤ} (hprinted : s.clients i = .printed x y) :
    x = number (args i) ∧ (y = int32 (x * x) ∨ Impersonated host s.foreignRequests i ∨
      ∃ reply ∈ s.foreignReplies i, (args i).serverAddress.ip = reply.source.ip ∧
        (reply.datagram.take SQUAREMAX).length = 13) := by
  have hclient := h.clients i
  rw [hprinted] at hclient
  cases hclient with
  | printed y hanswer => exact ⟨rfl, hanswer.imp_right .inl⟩
  | deceived y hreply hip hlength => exact ⟨rfl, .inr (.inr ⟨_, hreply, hip, hlength⟩)⟩

omit [DecidableEq ι] in
theorem Inv.unknownSource (h : Inv host args s) {i : ι}
    (hdied : s.clients i = .died .unknownSource) :
    (∃ reply ∈ s.foreignReplies i, (args i).serverAddress.ip ≠ reply.source.ip) ∨
      ∃ ip ∈ host.interfaces, (args i).serverAddress.ip ≠ ip := by
  have hclient := h.clients i
  rw [hdied] at hclient
  cases hclient with
  | unknownSource hreply hip => exact .inl ⟨_, hreply, hip⟩
  | otherInterface hinterface hip => exact .inr ⟨_, hinterface, hip⟩

/-- Whatever the network loses, duplicates or reorders and whatever other sockets send. -/
theorem clients_reliable (host : Host) (args : ι → Args) (inputBuffer : InputBuffer) :
    Always (Step host args) (Reliable host args) (start inputBuffer) := by
  refine Always.of_invariant (inv_start host args inputBuffer) ?_ ?_
  · rintro s t h ⟨action, hstep⟩
    exact h.act hstep
  · intro s h
    refine ⟨fun i x y => h.printed, ?_, ?_, fun i => h.unknownSource, ?_, h.fault,
      fun i x => h.answered⟩
    · intro i hdied
      have hclient := h.clients i
      rw [hdied] at hclient
      cases hclient
    · intro i hdied
      have hclient := h.clients i
      rw [hdied] at hclient
      cases hclient with
      | length hreply hlength => exact ⟨_, hreply, hlength⟩
    · intro i husage
      have hclient := h.clients i
      rw [husage] at hclient
      cases hclient with
      | usage hword => exact hword

end SysProg.UdpSquareClients
