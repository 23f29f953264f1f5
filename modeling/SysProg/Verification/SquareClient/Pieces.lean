import SysProg.Model.SquareClient
import SysProg.Verification.Square.Exact

/-! # A reply that arrives in pieces

The client stores each piece behind the one before it, but puts the NUL byte at the length
of the last piece. Behind the first piece this is inside of what has been received, and
no later piece overwrites it. -/

namespace SysProg.SquareClient

open Transmission ByteStream Square

/-! ## Stores -/

theorem store_eq {buffer : List (Option UInt8)} {ptr : ℕ} {bytes : Bytes}
    (hle : ptr + bytes.length ≤ buffer.length) :
    store buffer ptr bytes =
      .ok (buffer.take ptr ++ bytes.map some ++ buffer.drop (ptr + bytes.length)) := by
  unfold store storeBytes
  by_cases hnil : bytes = []
  · simp [hnil]
  · have hbounds : (0 : ℤ) ≤ ptr ∧ (ptr : ℤ) + bytes.length ≤ buffer.length := by omega
    rw [if_neg hnil, if_pos hbounds, Int.toNat_natCast]

/-- Only the cells of the bytes change. -/
theorem store_cells (buffer : List (Option UInt8)) (ptr : ℕ) (bytes : Bytes)
    (hle : ptr + bytes.length ≤ buffer.length) :
    ∃ stored, store buffer ptr bytes = .ok stored ∧ stored.length = buffer.length ∧
      ∀ i, stored[i]? = if ptr ≤ i ∧ i < ptr + bytes.length then bytes[i - ptr]?.map some
        else buffer[i]? := by
  refine ⟨_, store_eq hle, ?_, ?_⟩
  · simp only [List.length_append, List.length_take, List.length_map, List.length_drop]
    omega
  · intro i
    have hptr : (buffer.take ptr).length = ptr := by
      rw [List.length_take]
      omega
    by_cases hbefore : i < ptr
    · rw [if_neg (by omega), List.append_assoc, List.getElem?_append_left (by omega),
        List.getElem?_take_of_lt hbefore]
    · rw [List.append_assoc, List.getElem?_append_right (by omega), hptr]
      by_cases hinside : i < ptr + bytes.length
      · rw [if_pos ⟨by omega, hinside⟩,
          List.getElem?_append_left (by rw [List.length_map]; omega), List.getElem?_map]
      · rw [if_neg (by omega), List.getElem?_append_right (by rw [List.length_map]; omega),
          List.getElem?_drop, List.length_map]
        congr 1
        omega

/-! ## The turns of the loop -/

/-- The first `t` cells hold bytes of the reply or NUL bytes. -/
structure Filled (reply : Bytes) (t : ℕ) (buffer : List (Option UInt8)) : Prop where
  length_eq : buffer.length = RCVBUFSIZE
  cell : ∀ i < t, buffer[i]? = some (some 0) ∨ buffer[i]? = reply[i]?.map some

/-- There is a NUL byte in the first `t` cells. -/
def Torn (t : ℕ) (buffer : List (Option UInt8)) : Prop :=
  ∃ k < t, buffer[k]? = some (some 0)

theorem Filled.turn {reply front piece rest : Bytes} {buffer : List (Option UInt8)}
    (h : Filled reply front.length buffer) (hreply : reply = front ++ piece ++ rest)
    (hlength : reply.length < RCVBUFSIZE) (hne : piece ≠ []) :
    ∃ buffer', storePiece buffer front.length piece = .ok buffer' ∧
      Filled reply (front ++ piece).length buffer' ∧
      (front ≠ [] → Torn (front ++ piece).length buffer') := by
  have hsize := h.length_eq
  have hsum := congrArg List.length hreply
  simp only [List.length_append] at hsum
  obtain ⟨stored, hstore, hlength', hcells⟩ :=
    store_cells buffer front.length piece (by omega)
  obtain ⟨final, hnul, hlength'', hcells'⟩ :=
    store_cells stored piece.length [0] (by rw [List.length_singleton]; omega)
  have hpiece := List.length_pos_iff.mpr hne
  refine ⟨final, ?_, ⟨by omega, ?_⟩, ?_⟩
  · rw [storePiece, hstore]
    exact hnul
  · intro i hi
    rw [List.length_append] at hi
    by_cases hzero : i = piece.length
    · left
      rw [hcells', hzero]
      simp
    · rw [hcells', if_neg (by rw [List.length_singleton]; omega), hcells]
      by_cases hinside : front.length ≤ i
      · right
        rw [if_pos ⟨hinside, by omega⟩, hreply, List.append_assoc,
          List.getElem?_append_right hinside, List.getElem?_append_left (by omega)]
      · rw [if_neg (by omega)]
        exact h.cell i (by omega)
  · intro hfront
    have hpos := List.length_pos_iff.mpr hfront
    refine ⟨piece.length, by rw [List.length_append]; omega, ?_⟩
    rw [hcells']
    simp

/-! ## The loop -/

/-- Behind the first piece the loop leaves a NUL byte among the bytes of the reply. -/
theorem Filled.run {reply front : Bytes} {pieces : List Bytes} (hne : [] ∉ pieces)
    (hreply : reply = front ++ pieces.flatten) (hlength : reply.length < RCVBUFSIZE)
    (hfront : front ≠ []) {buffer : List (Option UInt8)} (h : Filled reply front.length buffer)
    (htorn : pieces = [] → Torn front.length buffer) :
    ∃ buffer', receiveLoop reply.length pieces buffer front.length front.length = .ok buffer' ∧
      Filled reply reply.length buffer' ∧ Torn reply.length buffer' := by
  induction pieces generalizing front buffer with
  | nil =>
      rw [List.flatten_nil, List.append_nil] at hreply
      subst hreply
      refine ⟨buffer, ?_, h, htorn rfl⟩
      rw [receiveLoop, if_neg (lt_irrefl _)]
  | cons piece pieces ih =>
      have hpiece : piece ≠ [] := fun hnil => hne (by simp [hnil])
      have hpos := List.length_pos_iff.mpr hpiece
      rw [List.flatten_cons, ← List.append_assoc] at hreply
      have hsum := congrArg List.length hreply
      simp only [List.length_append] at hsum
      obtain ⟨buffer', hstore, hfilled, htorn'⟩ := h.turn hreply hlength hpiece
      have hreceive : receive (RCVBUFSIZE - 1 - front.length) (piece :: pieces) =
          (piece, pieces) := by
        rw [receive, if_pos (by omega)]
      have hrest := ih (fun hmem => hne (List.mem_cons_of_mem _ hmem)) hreply (by simp [hfront])
        hfilled (fun _ => htorn' hfront)
      rw [receiveLoop, if_pos (by omega)]
      simp only [hreceive]
      rw [if_neg (by omega), hstore, ← List.length_append]
      exact hrest

/-- The string ends at the first NUL byte. -/
theorem cString_torn {t : ℕ} {buffer : List (Option UInt8)} {reply : Bytes}
    (hcell : ∀ i < t, buffer[i]? = some (some 0) ∨ buffer[i]? = reply[i]?.map some)
    (htorn : Torn t buffer) : ∃ k < t, cString buffer = reply.take k := by
  induction t generalizing buffer reply with
  | zero =>
      obtain ⟨k, hk, -⟩ := htorn
      omega
  | succ t ih =>
      obtain ⟨k, hk, hnul⟩ := htorn
      cases buffer with
      | nil => simp at hnul
      | cons cell buffer =>
          by_cases hzero : cell = some 0
          · refine ⟨0, by omega, ?_⟩
            simp [cString, hzero]
          · have hhead := (hcell 0 (by omega)).resolve_left (by simpa using hzero)
            cases reply with
            | nil => simp at hhead
            | cons b reply =>
                obtain rfl : cell = some b := by simpa using hhead
                have hk0 : k ≠ 0 := by
                  rintro rfl
                  exact hzero (by simpa using hnul)
                obtain ⟨k, rfl⟩ := Nat.exists_eq_succ_of_ne_zero hk0
                have hrest (i : ℕ) (hi : i < t) :
                    buffer[i]? = some (some 0) ∨ buffer[i]? = reply[i]?.map some := by
                  simpa using hcell (i + 1) (by omega)
                obtain ⟨k', hk', hstring⟩ := ih hrest ⟨k, by omega, by simpa using hnul⟩
                refine ⟨k' + 1, by omega, ?_⟩
                rw [List.take_succ_cons, ← hstring]
                simp [cString, hzero, List.reduceOption_cons_of_some]

/-- A message at the beginning of the buffer gets the NUL byte behind it. -/
theorem storePiece_zero (buffer : List (Option UInt8)) {message : Bytes}
    (hlt : message.length < buffer.length) (hnul : 0 ∉ message) :
    ∃ stored, storePiece buffer 0 message = .ok stored ∧ stored.length = buffer.length ∧
      cString stored = message := by
  have hfirst : store buffer 0 message = .ok (message.map some ++ buffer.drop message.length) := by
    rw [store_eq (by omega)]
    simp
  have hsecond : store (message.map some ++ buffer.drop message.length) message.length [0] =
      .ok (message.map some ++ some 0 :: buffer.drop (message.length + 1)) := by
    rw [store_eq (by simp; omega), List.take_left' (by simp), List.drop_append]
    simp
  refine ⟨message.map some ++ some 0 :: buffer.drop (message.length + 1), ?_, ?_,
    cString_append_nul hnul _⟩
  · rw [storePiece, hfirst]
    exact hsecond
  · simp only [List.length_append, List.length_map, List.length_cons, List.length_drop]
    omega

/-- The string behind the loop: the reply if it has come in one piece, else only a part of it. -/
theorem receiveLoop_eq {pieces : List Bytes} (hne : [] ∉ pieces) (hpos : pieces.flatten ≠ [])
    (hlength : pieces.flatten.length < RCVBUFSIZE) (hnul : 0 ∉ pieces.flatten) :
    ∃ buffer, receiveLoop pieces.flatten.length pieces (List.replicate RCVBUFSIZE none) 0 0 =
      .ok buffer ∧
      if pieces.length = 1 then cString buffer = pieces.flatten
      else ∃ k < pieces.flatten.length, cString buffer = pieces.flatten.take k := by
  cases pieces with
  | nil => simp at hpos
  | cons piece pieces =>
      have hpiece : piece ≠ [] := fun hnil => hne (by simp [hnil])
      have hpieces : [] ∉ pieces := fun hmem => hne (List.mem_cons_of_mem _ hmem)
      have hpiecePos := List.length_pos_iff.mpr hpiece
      have hsum : (piece :: pieces).flatten.length = piece.length + pieces.flatten.length := by
        simp
      have hreceive : receive (RCVBUFSIZE - 1 - 0) (piece :: pieces) = (piece, pieces) := by
        rw [receive, if_pos (by omega)]
      rw [receiveLoop, if_pos (by omega)]
      simp only [hreceive]
      rw [if_neg (by omega)]
      by_cases hone : pieces = []
      · subst hone
        rw [List.flatten_cons, List.flatten_nil, List.append_nil] at hlength hnul ⊢
        obtain ⟨stored, hstore, -, hstring⟩ :=
          storePiece_zero (List.replicate RCVBUFSIZE none)
            (by rw [List.length_replicate]; exact hlength) hnul
        refine ⟨stored, ?_, hstring⟩
        rw [hstore, Nat.zero_add]
        change receiveLoop piece.length [] stored piece.length piece.length = .ok stored
        rw [receiveLoop, if_neg (lt_irrefl _)]
      · have hmany : (piece :: pieces).length ≠ 1 := by
          have := List.length_pos_iff.mpr hone
          rw [List.length_cons]
          omega
        have hempty : Filled (piece :: pieces).flatten ([] : Bytes).length
            (List.replicate RCVBUFSIZE none) :=
          ⟨List.length_replicate, fun i hi => absurd hi (Nat.not_lt_zero i)⟩
        obtain ⟨stored, hstore, hfilled, -⟩ := hempty.turn (List.flatten_cons ..) hlength hpiece
        obtain ⟨buffer, hloop, hfilled', htorn⟩ :=
          hfilled.run hpieces (List.flatten_cons ..) hlength hpiece (fun hnil => absurd hnil hone)
        refine ⟨buffer, ?_, ?_⟩
        · rw [Nat.zero_add]
          change (storePiece _ ([] : Bytes).length piece >>= _) = _
          rw [hstore]
          exact hloop
        · rw [if_neg hmany]
          exact cString_torn hfilled'.cell htorn

/-! ## The printed square -/

theorem strlen_inputString {x : ℤ} (hx : IsInt x) : strlen (inputString x ++ [0]) = 12 := by
  rw [inputString, strlen_append_nul (nul_notMem_format12d x) [], length_format12d hx]

/-- What the client prints for a reply of twelve characters. -/
theorem clientMain_eq {x : ℤ} (hx : IsInt x) {pieces : List Bytes} (hne : [] ∉ pieces)
    (hlength : pieces.flatten.length = 12) (hnul : 0 ∉ pieces.flatten) :
    ∃ str, clientMain x pieces = .ok ⟨str, x, atoi str⟩ ∧
      if pieces.length = 1 then str = pieces.flatten
      else ∃ k < 12, str = pieces.flatten.take k := by
  have hpos : pieces.flatten ≠ [] := by
    intro hnil
    rw [hnil] at hlength
    cases hlength
  obtain ⟨buffer, hloop, hstring⟩ :=
    receiveLoop_eq hne hpos (by rw [hlength]; decide) hnul
  rw [hlength] at hloop hstring
  refine ⟨cString buffer, ?_, hstring⟩
  simp only [clientMain, strlen_inputString hx, hloop]
  rfl

theorem isInt_of_abs_le {x : ℤ} (hx : |x| ≤ 46340) : IsInt x := by
  rw [abs_le] at hx
  exact ⟨by omega, by omega⟩

theorem handleTcpClient_nil (buffer : List (Option UInt8)) :
    handleTcpClient buffer [] = ([], .ok ()) := by
  rw [handleTcpClient]
  exact dif_pos rfl

/-- The reply to a request that arrives as a whole. -/
theorem handleTcpClient_request {x : ℤ} (hx : |x| ≤ 46340) {buffer : List (Option UInt8)}
    (hbuffer : buffer.length = RCVBUFSIZE) :
    handleTcpClient buffer [inputString x] = ([format12d (x * x)], .ok ()) := by
  have hint := isInt_of_abs_le hx
  have hlength : (inputString x).length = 12 := length_format12d hint
  have hsize : 13 < RCVBUFSIZE := by decide
  have hreceive : receive (RCVBUFSIZE - 1) [inputString x] = (inputString x, []) := by
    rw [receive, if_pos (by omega)]
  have hne : inputString x ≠ [] := by
    intro hnil
    rw [hnil] at hlength
    cases hlength
  obtain ⟨stored, hstore, hstored, hstring⟩ :=
    storePiece_zero buffer (show (inputString x).length < buffer.length by omega)
      (nul_notMem_format12d x)
  have hread : atoi (cString stored) = x := by
    rw [hstring, inputString, ← List.append_nil (format12d x)]
    exact atoi_format12d hint (by simp)
  have hsquare : square stored = format12d (x * x) := by
    rw [square, hread, int32_mul_self.mpr hx]
  have hreply : (format12d (x * x)).length = 12 := by
    rw [← int32_mul_self.mpr hx]
    exact length_format12d (isInt_int32 _)
  obtain ⟨printed, hprint, -⟩ := store_cells stored 0 (format12d (x * x) ++ [0]) (by
    simp only [List.length_append, List.length_singleton]
    omega)
  rw [handleTcpClient]
  simp only [hreceive]
  rw [dif_neg hne, show (store buffer 0 (inputString x) >>= fun buffer =>
    store buffer (inputString x).length [0]) = .ok stored from hstore]
  simp only [hsquare, hprint, hreply, hlength, handleTcpClient_nil, ne_eq, not_true_eq_false,
    if_false]

/-- The client parses the whole reply and prints the square. -/
def PrintsSquare (client : Client) (x : ℤ) (pieces : List Bytes) : Prop :=
  client x pieces = .ok ⟨pieces.flatten, x, x * x⟩

/-- The reply is parsed as a whole exactly if it has come in one piece. The printed number is
the square also if it is zero, because what is left of the reply is blank then. -/
theorem printsSquare_iff (client : Client)
    (hclient : client = tcpSquareClient ∨ client = tcpSquareClientIpv6) (x : ℤ)
    (hx : |x| ≤ 46340) (buffer : List (Option UInt8)) (hbuffer : buffer.length = RCVBUFSIZE)
    (pieces : List Bytes) (hne : [] ∉ pieces)
    (hreply : (handleTcpClient buffer [inputString x]).1 = [pieces.flatten]) :
    (PrintsSquare client x pieces ↔ pieces.length = 1) ∧
    ((∃ str, client x pieces = .ok ⟨str, x, x * x⟩) ↔ pieces.length = 1 ∨ x = 0) := by
  have hmain : client = clientMain := by
    cases hclient with
    | inl h => exact h
    | inr h => exact h
  rw [handleTcpClient_request hx hbuffer] at hreply
  have hflatten : pieces.flatten = format12d (x * x) := (List.cons.inj hreply).1.symm
  have hint : IsInt (x * x) := int32_mul_self.mpr hx ▸ isInt_int32 (x * x)
  have hlength : pieces.flatten.length = 12 := by rw [hflatten, length_format12d hint]
  have hnul : 0 ∉ pieces.flatten := by
    rw [hflatten]
    exact nul_notMem_format12d _
  obtain ⟨str, hprinted, hstr⟩ := clientMain_eq (isInt_of_abs_le hx) hne hlength hnul
  rw [PrintsSquare, hmain, hprinted]
  by_cases hone : pieces.length = 1
  · rw [if_pos hone, hflatten] at hstr
    have hvalue : atoi str = x * x := by
      rw [hstr, ← List.append_nil (format12d (x * x))]
      exact atoi_format12d hint (by simp)
    rw [hvalue, hstr, hflatten]
    simp [hone]
  · rw [if_neg hone] at hstr
    obtain ⟨k, hk, htake⟩ := hstr
    have hpart : str ≠ pieces.flatten := by
      intro heq
      have := congrArg List.length (htake.symm.trans heq)
      rw [List.length_take] at this
      omega
    have hvalue : atoi str = x * x ↔ x = 0 := by
      obtain ⟨n, hn⟩ := Int.eq_ofNat_of_zero_le (mul_self_nonneg x)
      rw [htake, hflatten, ← mul_self_eq_zero, hn, atoi_take_format12d (hn ▸ hint.upper) hk]
      exact Nat.cast_eq_zero.symm
    simp [hone, hpart, hvalue]

/-- The reply to 12 as it has been cut behind ten characters. -/
def cutReply : List Bytes :=
  [List.replicate 9 32 ++ [49], [52, 52]]

theorem cutReply_eq :
    (handleTcpClient (List.replicate RCVBUFSIZE none) [inputString 12]).1 = [cutReply.flatten] := by
  rw [handleTcpClient_request (by decide) List.length_replicate]
  decide +kernel

/-- Two blanks are left of it, and 0 is printed for the square. -/
theorem cutReply_prints_zero :
    (handleTcpClient (List.replicate RCVBUFSIZE none) [inputString 12]).1 = [cutReply.flatten] ∧
    tcpSquareClient 12 cutReply = .ok ⟨[32, 32], 12, 0⟩ ∧
    ¬ PrintsSquare tcpSquareClient 12 cutReply ∧
    ¬ PrintsSquare tcpSquareClientIpv6 12 cutReply := by
  have hprinted : clientMain 12 cutReply = .ok ⟨[32, 32], 12, 0⟩ := by decide +kernel
  have hnot : ¬ PrintsSquare clientMain 12 cutReply := by
    intro h
    have := hprinted.symm.trans h
    simp at this
  exact ⟨cutReply_eq, hprinted, hnot, hnot⟩

theorem printsSquare_iff_cutReply :
    (PrintsSquare tcpSquareClient 12 cutReply ↔ cutReply.length = 1) ∧
    ((∃ str, tcpSquareClient 12 cutReply = .ok ⟨str, 12, 12 * 12⟩) ↔
      cutReply.length = 1 ∨ (12 : ℤ) = 0) :=
  printsSquare_iff tcpSquareClient (.inl rfl) 12 (by decide) (List.replicate RCVBUFSIZE none)
    List.length_replicate cutReply (by decide) cutReply_eq

end SysProg.SquareClient
