import SysProg.Verification.Transmission.Frames

/-! # Messages sent one after another

What one call after the other leads to is stated by recursion on the messages: each call
comes to its end, whatever the system accepts or hands over at once, and from the stream
it leaves the next call goes on. -/

namespace SysProg.Transmission

open List ByteStream

/-- A message that fits into a frame and into a block of memory, with the argument `len`
of the call of `write_string`. -/
structure Message where
  bytes : Bytes
  length_pos : 1 ≤ bytes.length
  length_le : bytes.length ≤ 2 ^ 32 - 2
  len : ℕ
  len_eq : len = bytes.length ∨ len = sizeT (-1) ∧ 0 ∉ bytes

/-- The frames of the messages and the one that ends the transmission. -/
def frames (messages : List Bytes) : Bytes :=
  messages.flatMap frame ++ frame []

/-- Calls of `write_string` and of `write_eot` lead to a stream with property `post`. -/
def SendsAll (post : Bytes → Prop) : List Message → Bytes → Prop
  | [], stream =>
      Leads (WriteStep writer) (fun s => s.1 = .returned ∧ post s.2) (writeEot, stream)
  | m :: messages, stream =>
      Leads (WriteStep writer) (fun s => s.1 = .returned ∧ SendsAll post messages s.2)
        (writeString (m.bytes ++ [0]) m.len, stream)

/-- Calls of `read_and_store_string` return the messages, each with a NUL byte behind it,
and then 0; each of them leaves the frames that follow on the stream. -/
def StoresAll (following : Bytes) : List Bytes → Bytes → Prop
  | [], stream =>
      Leads (ReadStep storeReader) (fun s => s.1 = .returned 0 (some [some 0]) ∧ s.2 = following)
        (.header, stream)
  | msg :: messages, stream =>
      Leads (ReadStep storeReader) (fun s =>
        s.1 = .returned msg.length (some ((msg ++ [0]).map some)) ∧
          s.2 = frames messages ++ following ∧ StoresAll following messages s.2)
        (.header, stream)

/-- Calls of `read_string_fragmentable` pass the messages to `consume` in pieces, return
their lengths and then 0; each of them leaves the frames that follow on the stream. -/
def ConsumesAll (bufferSize : ℕ) (following : Bytes) : List Bytes → Bytes → Prop
  | [], stream =>
      Leads (ReadStep (fragmentReader bufferSize)) (fun s =>
        s.1 = .returned 0 [] ∧ s.2 = following) (.header, stream)
  | msg :: messages, stream =>
      Leads (ReadStep (fragmentReader bufferSize)) (fun s =>
        (∃ calls, s.1 = .returned msg.length calls ∧ PiecesOf bufferSize msg calls) ∧
          s.2 = frames messages ++ following ∧ ConsumesAll bufferSize following messages s.2)
        (.header, stream)

/-! ## One call -/

theorem readAndStore_leads {msg : Bytes} (following : Bytes) (hlt : msg.length < 2 ^ 32 - 1) :
    Leads (ReadStep storeReader) (fun s =>
        s.1 = .returned msg.length (some ((msg ++ [0]).map some)) ∧ s.2 = following)
      (.header, frame msg ++ following) := by
  refine ((storeReader_expects hlt).leads following (r := .header) rfl).mono ?_
  intro ⟨r, stream⟩ ⟨hr, hstream⟩
  exact ⟨expects_nil.mp hr, hstream⟩

theorem readFragmentable_leads {bufferSize : ℕ} (hbuffer : 1 ≤ bufferSize) {msg : Bytes}
    (following : Bytes) (hlt : msg.length < 2 ^ 32) :
    Leads (ReadStep (fragmentReader bufferSize)) (fun s =>
        (∃ calls, s.1 = .returned msg.length calls ∧ PiecesOf bufferSize msg calls) ∧
          s.2 = following)
      (.header, frame msg ++ following) := by
  refine ((fragmentReader_expects hbuffer hlt).leads following (r := .header) rfl).mono ?_
  intro ⟨r, stream⟩ ⟨hr, hstream⟩
  exact ⟨fragment_expects_nil hr, hstream⟩

/-! ## All calls -/

theorem sendsAll {post : Bytes → Prop} (messages : List Message) (stream : Bytes)
    (h : post (stream ++ frames (messages.map Message.bytes))) : SendsAll post messages stream := by
  induction messages generalizing stream with
  | nil =>
      refine (writer_offers.leads stream writeEot_rest).mono ?_
      rintro ⟨w, written⟩ ⟨hw, rfl⟩
      exact ⟨rest_nil.mp hw, h⟩
  | cons m messages ih =>
      have hlt : m.bytes.length < 2 ^ 32 := by
        have := m.length_le
        omega
      refine (writeString_leads stream hlt m.len_eq).mono ?_
      rintro ⟨w, written⟩ ⟨hw, rfl⟩
      refine ⟨hw, ih _ ?_⟩
      simpa [frames] using h

theorem storesAll (following : Bytes) (messages : List Bytes)
    (hlt : ∀ msg ∈ messages, msg.length < 2 ^ 32 - 1) :
    StoresAll following messages (frames messages ++ following) := by
  induction messages with
  | nil => exact readAndStore_leads following (by decide : ([] : Bytes).length < 2 ^ 32 - 1)
  | cons msg messages ih =>
      have hsplit : frames (msg :: messages) ++ following =
          frame msg ++ (frames messages ++ following) := by
        simp [frames]
      rw [hsplit]
      refine (readAndStore_leads _ (hlt msg (by simp))).mono ?_
      rintro ⟨r, stream⟩ ⟨hr, rfl⟩
      exact ⟨hr, rfl, ih fun m hm => hlt m (by simp [hm])⟩

theorem consumesAll {bufferSize : ℕ} (hbuffer : 1 ≤ bufferSize) (following : Bytes)
    (messages : List Bytes) (hlt : ∀ msg ∈ messages, msg.length < 2 ^ 32) :
    ConsumesAll bufferSize following messages (frames messages ++ following) := by
  induction messages with
  | nil =>
      refine (readFragmentable_leads hbuffer following
        (by decide : ([] : Bytes).length < 2 ^ 32)).mono ?_
      intro ⟨r, stream⟩ ⟨⟨calls, hr, hcalls⟩, hstream⟩
      rw [hcalls.eq_nil] at hr
      exact ⟨hr, hstream⟩
  | cons msg messages ih =>
      have hsplit : frames (msg :: messages) ++ following =
          frame msg ++ (frames messages ++ following) := by
        simp [frames]
      rw [hsplit]
      refine (readFragmentable_leads hbuffer _ (hlt msg (by simp))).mono ?_
      rintro ⟨r, stream⟩ ⟨hr, rfl⟩
      exact ⟨hr, rfl, ih fun m hm => hlt m (by simp [hm])⟩

/-- Whatever the writes accept and the reads hand over at once, both readers receive
exactly the messages that have been sent, and leave what follows on the stream. -/
theorem transmission_exact (messages : List Message) (bufferSize : ℕ) (hbuffer : 1 ≤ bufferSize) :
    SendsAll (fun stream => ∀ following,
        StoresAll following (messages.map Message.bytes) (stream ++ following) ∧
          ConsumesAll bufferSize following (messages.map Message.bytes) (stream ++ following))
      messages [] := by
  apply sendsAll
  intro following
  have hlength : ∀ msg ∈ messages.map Message.bytes, msg.length ≤ 2 ^ 32 - 2 := by
    intro msg hmsg
    obtain ⟨m, -, rfl⟩ := List.mem_map.mp hmsg
    exact m.length_le
  constructor
  · apply storesAll
    intro msg hmsg
    have := hlength msg hmsg
    omega
  · apply consumesAll hbuffer
    intro msg hmsg
    have := hlength msg hmsg
    omega

theorem transmission_exact_one :
    SendsAll (fun stream => ∀ following, StoresAll following [[72, 105]] (stream ++ following) ∧
        ConsumesAll 1 following [[72, 105]] (stream ++ following))
      [⟨[72, 105], by decide, by decide, 2, .inl rfl⟩] [] :=
  transmission_exact [⟨[72, 105], by decide, by decide, 2, .inl rfl⟩] 1 le_rfl

end SysProg.Transmission
