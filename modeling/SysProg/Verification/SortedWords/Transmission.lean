import SysProg.Verification.SortedWords.Lines
import SysProg.Verification.Transmission.Sessions

/-! # The client prints what the server has sent -/

namespace SysProg.SortedWords

open Transmission ByteStream

/-! ## Calls one after the other -/

/-- What the calls are to write: the rest of the first frame and the other frames. -/
def CallsRest : List WriteString → Bytes → Prop
  | [], rest => rest = []
  | call :: calls, rest => ∃ first msgs, call.Rest first ∧ first ≠ [] ∧
      List.Forall₂ (fun call msg => WriteString.Rest call (frame msg)) calls msgs ∧
      rest = first ++ msgs.flatMap frame

theorem callsRest_of_frames {calls : List WriteString} {msgs : List Bytes}
    (h : List.Forall₂ (fun call msg => WriteString.Rest call (frame msg)) calls msgs) :
    CallsRest calls (msgs.flatMap frame) := by
  cases h with
  | nil => rfl
  | @cons call msg calls msgs hcall hcalls =>
      have hne : frame msg ≠ [] := List.ne_nil_of_length_pos (by rw [length_frame]; omega)
      exact ⟨frame msg, msgs, hcall, hne, hcalls, List.flatMap_cons⟩

/-- A call that has not returned, before calls that have not begun. -/
theorem callsRest_cons {call : WriteString} {calls : List WriteString} {first : Bytes}
    {msgs : List Bytes} (hcall : call.Rest first) (hopen : call ≠ .returned)
    (hcalls : List.Forall₂ (fun call msg => WriteString.Rest call (frame msg)) calls msgs) :
    CallsRest (call :: calls) (first ++ msgs.flatMap frame) := by
  refine ⟨first, msgs, hcall, ?_, hcalls, rfl⟩
  intro hnil
  rw [hnil] at hcall
  exact hopen (rest_nil.mp hcall)

theorem callsRest_nil {calls : List WriteString} (h : CallsRest calls []) : calls = [] := by
  cases calls with
  | nil => rfl
  | cons call calls =>
      obtain ⟨first, msgs, -, hne, -, hrest⟩ := h
      exact absurd (List.append_eq_nil_iff.mp hrest.symm).1 hne

theorem callsWriter_offers : callsWriter.Offers CallsRest where
  offered := by
    intro calls rest h hne
    cases calls with
    | nil => exact absurd h hne
    | cons call calls =>
        obtain ⟨first, msgs, hcall, hfirst, -, rfl⟩ := h
        obtain ⟨bs, hoffer, hbs, hprefix⟩ := writer_offers.offered call first hcall hfirst
        exact ⟨bs, hoffer, hbs, hprefix.trans (List.prefix_append _ _)⟩
  finished := by
    intro calls h
    rw [callsRest_nil h]
    rfl
  step := by
    intro calls k bs rest h hoffer hpos hle hwhole
    cases calls with
    | nil => cases hoffer
    | cons call calls =>
        obtain ⟨first, msgs, hcall, hfirst, hcalls, hrest⟩ := h
        obtain ⟨bs', hoffer', -, first', rfl⟩ := writer_offers.offered call first hcall hfirst
        obtain rfl : bs' = bs := Option.some.inj (hoffer'.symm.trans hoffer)
        have hcall' : (call.onWrite k).Rest ((bs' ++ first').drop k) :=
          writer_offers.step call k bs' first' hcall hoffer hpos hle hwhole
        have hdrop : (bs' ++ rest).drop k = (bs' ++ first').drop k ++ msgs.flatMap frame := by
          rw [hrest, List.drop_append_of_le_length]
          rw [List.length_append]
          omega
        rw [hdrop]
        generalize (bs' ++ first').drop k = first at hcall'
        cases hnext : call.onWrite k with
        | returned =>
            have hstep : callsWriter.onWrite (call :: calls) k = calls := by
              simp only [callsWriter, hnext]
            rw [hnext] at hcall'
            rw [hstep, show first = [] from hcall']
            exact callsRest_of_frames hcalls
        | exited =>
            rw [hnext] at hcall'
            exact absurd hcall' not_false
        | header str len =>
            have hstep : callsWriter.onWrite (call :: calls) k = .header str len :: calls := by
              simp only [callsWriter, hnext]
            rw [hnext] at hcall'
            rw [hstep]
            exact callsRest_cons hcall' (by simp) hcalls
        | payload str ptr restLen =>
            have hstep : callsWriter.onWrite (call :: calls) k =
                .payload str ptr restLen :: calls := by
              simp only [callsWriter, hnext]
            rw [hnext] at hcall'
            rw [hstep]
            exact callsRest_cons hcall' (by simp) hcalls

theorem calls_lead {calls : List WriteString} {msgs : List Bytes}
    (h : List.Forall₂ (fun call msg => WriteString.Rest call (frame msg)) calls msgs) :
    Leads (WriteStep callsWriter) (fun s => s.1 = [] ∧ s.2 = msgs.flatMap frame) (calls, []) := by
  refine (callsWriter_offers.leads [] (callsRest_of_frames h)).mono ?_
  intro ⟨calls', stream⟩ ⟨hcalls, hstream⟩
  exact ⟨callsRest_nil hcalls, hstream⟩

/-! ## The loop of the client -/

theorem consumed_pieces {bufferSize : ℕ} {msg : Bytes} {calls : List Consumed}
    (h : PiecesOf bufferSize msg calls) : consumed calls = msg := by
  rw [← h.flatten, consumed, List.flatMap_def]
  congr 1
  apply List.map_congr_left
  intro call hcall
  rw [h.len_eq call hcall, List.take_length]

theorem client_expects (earlier : List Consumed) {msg : Bytes} (hlt : msg.length < 2 ^ 32) :
    clientReader.Expects (fun client rest => ∃ call, Client.afterReceive earlier call = client ∧
      ReadFragmentable.Expects RCVBUFSIZE msg call rest) := by
  have hbuffer : 1 ≤ RCVBUFSIZE := by decide
  apply (fragmentReader_expects hbuffer hlt).embed (Client.afterReceive earlier)
  · intro call hcall
    cases call with
    | returned ulen calls => exact absurd rfl hcall
    | _ => rfl
  · rintro call rfl
    rfl
  · intro call bs hcall
    cases call with
    | header => rfl
    | payload ulen restLen calls => rfl
    | returned ulen calls => exact absurd rfl hcall
    | died => exact absurd rfl hcall

/-- One frame is read. -/
theorem client_receives (earlier : List Consumed) {msg : Bytes} (following : Bytes)
    (hlt : msg.length < 2 ^ 32) :
    Leads (ReadStep clientReader) (fun s => (∃ calls, consumed calls = msg ∧
        s.1 = .afterReceive earlier (.returned msg.length calls)) ∧ s.2 = following)
      (.receive earlier .header, frame msg ++ following) := by
  refine ((client_expects earlier hlt).leads following ⟨.header, rfl, rfl⟩).mono ?_
  rintro ⟨client, stream⟩ ⟨⟨call, rfl, hcall⟩, hstream⟩
  obtain ⟨calls, rfl, hpieces⟩ := fragment_expects_nil hcall
  exact ⟨⟨calls, consumed_pieces hpieces, rfl⟩, hstream⟩

/-- The loop ends with the first frame without bytes, when it has printed all the others. -/
theorem client_leads (earlier : List Consumed) (msgs : List Bytes) (following : Bytes)
    (hne : [] ∉ msgs) (hlt : ∀ msg ∈ msgs, msg.length < 2 ^ 32) :
    Leads (ReadStep clientReader) (fun s => (∃ calls, s.1 = .done calls ∧
        consumed calls = consumed earlier ++ msgs.flatten) ∧ s.2 = following)
      (.receive earlier .header, frames msgs ++ following) := by
  induction msgs generalizing earlier with
  | nil =>
      refine (client_receives earlier following (by norm_num)).mono ?_
      rintro ⟨client, stream⟩ ⟨⟨calls, hcalls, rfl⟩, hstream⟩
      refine ⟨⟨earlier ++ calls, rfl, ?_⟩, hstream⟩
      rw [consumed, List.flatMap_append, ← consumed, ← consumed, hcalls]
      rfl
  | cons msg msgs ih =>
      have hmsg : msg.length ≠ 0 := fun h => hne (by simp [List.eq_nil_of_length_eq_zero h])
      have hsplit : frames (msg :: msgs) ++ following = frame msg ++ (frames msgs ++ following) := by
        simp [frames]
      rw [hsplit]
      refine (client_receives earlier _ (hlt msg (by simp))).trans ?_
      rintro ⟨client, stream⟩ ⟨⟨calls, hcalls, rfl⟩, rfl⟩
      rw [Client.afterReceive, if_neg hmsg]
      refine (ih (earlier ++ calls) (fun h => hne (by simp [h]))
        fun m hm => hlt m (by simp [hm])).mono ?_
      rintro s ⟨⟨calls', hdone, hconsumed⟩, hstream⟩
      refine ⟨⟨calls', hdone, ?_⟩, hstream⟩
      rw [hconsumed, consumed, List.flatMap_append, ← consumed, ← consumed, hcalls,
        List.flatten_cons, List.append_assoc]

/-! ## The session -/

/-- The server sends a header, the words and a footer; of its frames only the last one is
empty. The client prints them all and stops. -/
def Transmitted (idx : ℤ) (block : Bytes) (words : List Bytes) : Prop :=
  ∃ body calls,
    transmitSortedWords GETX idx block (words.map fun word => word ++ [0]) = (calls, some ()) ∧
    [] ∉ headerFrames idx ++ body ++ [footerFrame] ∧
    tokens isSeparator body.flatten = (words.filter fun word => word != []) ∧
    Leads (WriteStep callsWriter) (fun s => s.1 = [] ∧
        s.2 = frames (headerFrames idx ++ body ++ [footerFrame]) ∧
        ∀ following, Leads (ReadStep clientReader) (fun c => (∃ calls, c.1 = .done calls) ∧
            c.1.stdout = (headerFrames idx ++ body ++ [footerFrame]).flatten ∧ c.2 = following)
          (.start, s.2 ++ following))
      (calls, [])

theorem headerFrames_ne_nil (idx : ℤ) : [] ∉ headerFrames idx := by
  simp [headerFrames, rule, threadTitle]

/-- Only messages that fit into a frame are sent. -/
theorem length_lt_of_rest {call : WriteString} {msg : Bytes} (h : call.Rest (frame msg)) :
    msg.length < 2 ^ 32 := by
  cases call with
  | header str len =>
      obtain ⟨msg', -, rfl, hlt, hframe⟩ := h
      have hlength := congrArg List.length hframe
      rw [length_frame, length_frame] at hlength
      omega
  | payload str ptr restLen =>
      obtain ⟨sent, -, -, -, -, hlt⟩ := h
      rw [length_frame] at hlt
      omega
  | returned => exact absurd (congrArg List.length h) (by simp [length_frame])
  | exited => exact absurd h not_false

theorem length_lt_of_sends {calls : List WriteString} {msgs : List Bytes}
    (h : List.Forall₂ (fun call msg => WriteString.Rest call (frame msg)) calls msgs) :
    ∀ msg ∈ msgs, msg.length < 2 ^ 32 := by
  induction h with
  | nil => simp
  | cons hcall _ ih =>
      intro msg hmsg
      rcases List.mem_cons.mp hmsg with rfl | hmsg
      · exact length_lt_of_rest hcall
      · exact ih msg hmsg

/-- The words of the array arrive in its order when none of them is too long for an `int`. -/
theorem sorted_words_transmitted {idx : ℤ} (hidx : IsInt idx) {block : Bytes}
    (hroom : 202 ≤ block.length) (words : List Bytes) (hwords : ∀ word ∈ words, IsWord word) :
    Transmitted idx block words := by
  obtain ⟨body, hne, htokens, calls, htransmit, hcalls⟩ := transmit_sends hidx hroom words hwords
  have hall : [] ∉ headerFrames idx ++ body ++ [footerFrame] := by
    simp [headerFrames_ne_nil, hne, footerFrame]
  have hframes : (headerFrames idx ++ body ++ [footerFrame, []]).flatMap frame =
      frames (headerFrames idx ++ body ++ [footerFrame]) := by
    simp [frames]
  refine ⟨body, calls, htransmit, hall, htokens, (calls_lead hcalls).mono ?_⟩
  rintro ⟨calls', stream⟩ ⟨hdone, hstream⟩
  refine ⟨hdone, hstream.trans hframes, fun following => ?_⟩
  have hlt : ∀ msg ∈ headerFrames idx ++ body ++ [footerFrame], msg.length < 2 ^ 32 := by
    intro msg hmsg
    apply length_lt_of_sends hcalls
    simp only [List.mem_append, List.mem_cons, List.not_mem_nil, or_false] at hmsg ⊢
    tauto
  rw [hstream, hframes]
  refine (client_leads [] _ following hall hlt).mono ?_
  rintro ⟨client, rest⟩ ⟨⟨consumedCalls, rfl, hconsumed⟩, hrest⟩
  exact ⟨⟨consumedCalls, rfl⟩, hconsumed, hrest⟩

theorem sorted_words_transmitted_two :
    Transmitted 0 (List.replicate 202 0) [[98, 101], [], [111, 114]] := by
  apply sorted_words_transmitted ⟨by norm_num, by norm_num⟩
  · rw [List.length_replicate]
  · intro word hword
    have hcases : word = [98, 101] ∨ word = [] ∨ word = [111, 114] := by simpa using hword
    rcases hcases with rfl | rfl | rfl <;> exact ⟨by decide, by simp [isSeparator], by norm_num⟩

/-! ## A word that is too long -/

/-- The computation has a result. -/
def Emits.Returns {α : Type} (m : Emits α) (a : α) : Prop :=
  m.2 = some a

/-- The computation ends with an access outside of `line`. -/
def Emits.Fails {α : Type} (m : Emits α) : Prop :=
  m.2 = none

variable {α β : Type}

theorem fails_bind {m : Emits α} {f : α → Emits β} (h : ∀ a, m.Returns a → (f a).Fails) :
    (m >>= f).Fails := by
  obtain ⟨calls, result⟩ := m
  cases result with
  | none => rfl
  | some a => exact h a rfl

theorem returns_bind {m : Emits α} {f : α → Emits β} {b : β} (h : (m >>= f).Returns b) :
    ∃ a, m.Returns a ∧ (f a).Returns b := by
  obtain ⟨calls, result⟩ := m
  cases result with
  | none => cases h
  | some a => exact ⟨a, rfl, h⟩

theorem returns_pure {a b : α} (h : (pure a : Emits α).Returns b) : b = a :=
  (Option.some.inj h).symm

theorem makeRoom_empty {block : Bytes} {len : ℤ} {line : Line}
    (h : (Line.makeRoom ⟨block, 0, 0⟩ len).Returns line) : line.pos = 0 ∧ line.usedLen = 0 := by
  unfold Line.makeRoom at h
  split at h
  · obtain ⟨flushed, -, hflushed⟩ := returns_bind h
    rw [returns_pure hflushed]
    exact ⟨rfl, rfl⟩
  · rw [returns_pure h]
    exact ⟨rfl, rfl⟩

/-- With a negative length the pointer is moved before the line. -/
theorem append_negative {block str : Bytes} {line : Line}
    (h : (Line.append ⟨block, 0, 0⟩ str (-2 ^ 31)).Returns line) :
    line.pos < 0 ∧ 0 < line.usedLen := by
  unfold Line.append at h
  obtain ⟨line', hroom, happend⟩ := returns_bind h
  obtain ⟨hpos, hused⟩ := makeRoom_empty hroom
  rw [if_neg (by rw [LINE_SIZE]; norm_num)] at happend
  obtain ⟨block', -, hline⟩ := returns_bind happend
  rw [returns_pure hline, hpos, hused]
  refine ⟨by norm_num, ?_⟩
  change 0 < sizeT (0 + -2 ^ 31)
  decide

theorem finish_negative {line : Line} (hpos : line.pos < 0) (hused : 0 < line.usedLen) :
    line.finish.Fails := by
  unfold Line.finish Line.flush
  rw [if_pos hused]
  apply fails_bind
  intro block hblock
  have hnone : (store line.block line.pos [10]).2 = none :=
    if_neg fun h => absurd h.1 (not_le.mpr hpos)
  exact absurd (hnone.symm.trans hblock) (by simp)

/-- A string that moves the pointer before the line leads to an access outside of it. -/
theorem transmit_outside (idx : ℤ) (block : Bytes) {str : Bytes} {len : ℤ}
    (hlen : int32 (strlen str + 1) = len)
    (h : ∀ block line, (Line.append ⟨block, 0, 0⟩ str len).Returns line →
      line.pos < 0 ∧ 0 < line.usedLen) :
    (transmitSortedWords GETX idx block [str]).Fails := by
  unfold transmitSortedWords
  rw [if_pos rfl]
  refine fails_bind fun _ _ => fails_bind fun block' _ => ?_
  refine fails_bind fun _ _ => fails_bind fun _ _ => fails_bind ?_
  intro line hline
  rw [List.foldlM_cons] at hline
  obtain ⟨line', happend, hpure⟩ := returns_bind hline
  rw [Line.addWord, hlen] at happend
  rw [returns_pure hpure]
  obtain ⟨hpos, hused⟩ := h block' line' happend
  apply fails_bind
  intro line'' hfinish
  exact absurd ((finish_negative hpos hused).symm.trans hfinish) (by simp)

/-- There is no room for a line with which a word of 2147483647 characters arrives. -/
theorem long_word_not_transmitted : ¬ ∃ room, ∀ block : Bytes, room ≤ block.length →
    Transmitted 0 block [List.replicate (2 ^ 31 - 1) 97] := by
  intro ⟨room, h⟩
  obtain ⟨body, calls, htransmit, -⟩ := h (List.replicate room 0) List.length_replicate.ge
  have hnul : (0 : UInt8) ∉ List.replicate (2 ^ 31 - 1) 97 := fun h =>
    absurd (List.eq_of_mem_replicate h) (by decide)
  have hlen : int32 (strlen (List.replicate (2 ^ 31 - 1) 97 ++ [0]) + 1) = -2 ^ 31 := by
    rw [strlen_append_nul hnul, List.length_replicate]
    decide
  have hnone := transmit_outside 0 (List.replicate room 0) hlen fun _ _ => append_negative
  rw [List.map_singleton] at htransmit
  rw [Emits.Fails, htransmit] at hnone
  cases hnone

end SysProg.SortedWords
