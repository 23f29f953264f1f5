import SysProg.Model.Transmission

/-! # Frames are written and read exactly -/

namespace SysProg.Transmission

open List ByteStream

/-! ## The header -/

theorem length_htonl (n : ℕ) : (htonl n).length = 4 :=
  rfl

theorem ntohl_htonl {n : ℕ} (h : n < 2 ^ 32) : ntohl (htonl n) = n := by
  simp only [ntohl, htonl, List.foldl_cons, List.foldl_nil, UInt8.toNat_ofNat']
  omega

theorem length_frame (str : Bytes) : (frame str).length = 4 + str.length := by
  simp [frame, length_htonl]

/-! ## Sizes -/

theorem sizeT_natCast {n : ℕ} (h : n < 2 ^ 64) : sizeT n = n := by
  simp only [sizeT]
  omega

theorem sizeT_sub {m n : ℕ} (h : n ≤ m) (hm : m < 2 ^ 64) : sizeT ((m : ℤ) - n) = m - n := by
  simp only [sizeT]
  omega

/-- The length of what is left when the first bytes have been transferred. -/
theorem sizeT_rest {bs rest : Bytes} (hlt : (bs ++ rest).length < 2 ^ 64) :
    sizeT (((bs ++ rest).length : ℤ) - (bs.length : ℤ)) = rest.length := by
  rw [sizeT_sub (by simp) hlt, List.length_append]
  omega

/-! ## Writing a frame -/

/-- What a call of `write_string` is to write from its state on. -/
def WriteString.Rest : WriteString → Bytes → Prop
  | .header str len, rest => ∃ msg, msg <+: str ∧ msg.length = len ∧ len < 2 ^ 32 ∧
      rest = frame msg
  | .payload str ptr restLen, rest => ∃ sent, sent ++ rest <+: str ∧ ptr = sent.length ∧
      restLen = rest.length ∧ rest ≠ [] ∧ rest.length < 2 ^ 32
  | .returned, rest => rest = []
  | .exited, _ => False

theorem rest_loop (sent : Bytes) {str rest : Bytes} (h : sent ++ rest <+: str)
    (hlength : rest.length < 2 ^ 32) :
    (WriteString.loop str sent.length rest.length).Rest rest := by
  unfold WriteString.loop
  by_cases hne : rest = []
  · subst hne
    rfl
  · rw [if_pos (List.length_pos_iff.mpr hne)]
    exact ⟨sent, h, rfl, rfl, hne, hlength⟩

/-- What the next `write` offers. -/
theorem offered_payload {str sent rest : Bytes} (h : sent ++ rest <+: str) :
    WriteString.offered (.payload str sent.length rest.length) = some rest := by
  obtain ⟨tail, rfl⟩ := h
  have hfit : (0 : ℤ) ≤ sent.length ∧
      (sent.length : ℤ) + rest.length ≤ (sent ++ rest ++ tail).length := by
    simp only [List.length_append, Nat.cast_add]
    omega
  simp only [WriteString.offered, if_pos hfit, Int.toNat_natCast]
  rw [List.append_assoc, List.drop_left, List.take_left]

theorem writer_offers : writer.Offers WriteString.Rest where
  offered := by
    intro w rest hw hne
    cases w with
    | header str len =>
        obtain ⟨msg, hmsg, hlen, hlt, rfl⟩ := hw
        refine ⟨htonl (len % 2 ^ 32), rfl, by simp [htonl], ?_⟩
        rw [Nat.mod_eq_of_lt hlt, ← hlen]
        exact List.prefix_append _ _
    | payload str ptr restLen =>
        obtain ⟨sent, hsent, rfl, rfl, -, -⟩ := hw
        exact ⟨rest, offered_payload hsent, hne, List.prefix_rfl⟩
    | returned => exact absurd hw hne
    | exited => exact absurd hw not_false
  finished := by
    intro w hw
    cases w with
    | header str len =>
        obtain ⟨msg, -, -, -, hframe⟩ := hw
        simp [frame, htonl] at hframe
    | payload str ptr restLen =>
        obtain ⟨sent, -, -, -, hne, -⟩ := hw
        exact absurd rfl hne
    | returned => rfl
    | exited => exact absurd hw not_false
  step := by
    intro w k bs rest hw hoffer hpos hle hwhole
    cases w with
    | header str len =>
        obtain ⟨msg, hmsg, hlen, hlt, hrest⟩ := hw
        obtain rfl : htonl (len % 2 ^ 32) = bs := Option.some.inj hoffer
        have hk : k = 4 := hwhole trivial
        rw [hrest, frame, hk, List.drop_left' (length_htonl _), ← hlen]
        exact rest_loop [] hmsg (by omega)
    | payload str ptr restLen =>
        obtain ⟨sent, hsent, rfl, rfl, hne, hlt⟩ := hw
        have hbs : bs ++ rest = bs := by
          have := (offered_payload hsent).symm.trans hoffer
          exact Option.some.inj this
        have hnil : rest = [] := List.append_right_eq_self.mp hbs
        subst hnil
        rw [List.append_nil] at hsent hlt hne ⊢
        have hlast : sizeT (((bs.length : ℕ) : ℤ) - (k : ℤ)) = (bs.drop k).length := by
          rw [sizeT_sub hle (by omega), List.length_drop]
        have hsplit : (sent ++ bs.take k) ++ bs.drop k <+: str := by
          rwa [List.append_assoc, List.take_append_drop]
        have hptr : (sent.length : ℤ) + k = (sent ++ bs.take k).length := by
          rw [List.length_append, List.length_take_of_le hle]
          push_cast
          rfl
        have hloop := rest_loop _ hsplit (by rw [List.length_drop]; omega)
        rw [← hptr, ← hlast] at hloop
        exact hloop
    | returned => exact absurd hoffer (by simp [writer, WriteString.offered])
    | exited => exact absurd hw not_false

/-- A program that makes a call of `write_string`. -/
theorem embed_writeString {W : Type*} {N : Writer W UInt8} (wrap : WriteString → W)
    (hoffered : ∀ call, N.offered (wrap call) = call.offered)
    (hwhole : ∀ str len, N.whole (wrap (.header str len)))
    (hheader : ∀ str len (k : ℕ), N.onWrite (wrap (.header str len)) k =
      wrap ((WriteString.header str len).onWrite k))
    (hpayload : ∀ str ptr restLen (k : ℕ), N.onWrite (wrap (.payload str ptr restLen)) k =
      wrap ((WriteString.payload str ptr restLen).onWrite k)) :
    N.Offers (fun w rest => ∃ call, wrap call = w ∧ call.Rest rest) := by
  apply writer_offers.embed wrap hoffered
  · intro call hcall
    cases call with
    | header str len => exact hwhole str len
    | payload str ptr restLen => exact absurd hcall not_false
    | returned => exact absurd hcall not_false
    | exited => exact absurd hcall not_false
  · intro call k hne
    cases call with
    | header str len => exact hheader str len k
    | payload str ptr restLen => exact hpayload str ptr restLen k
    | returned => exact absurd rfl hne
    | exited => exact absurd rfl hne

theorem strlen_append_nul {str : Bytes} (hnul : 0 ∉ str) (tail : Bytes) :
    strlen (str ++ 0 :: tail) = str.length := by
  rw [strlen, List.takeWhile_append_of_pos]
  · simp
  · intro b hb
    simpa using fun h : b = 0 => hnul (h ▸ hb)

/-- The first bytes in memory are sent. -/
theorem writeString_rest_prefix {str msg : Bytes} (h : msg <+: str) (hlt : msg.length < 2 ^ 32) :
    (writeString str msg.length).Rest (frame msg) := by
  have hmax : sizeT (-1) = 2 ^ 64 - 1 := by decide
  have hlen : (if msg.length = sizeT (-1) then strlen str else msg.length) = msg.length := by
    rw [if_neg (by omega)]
  have hheader : writeString str msg.length = .header str msg.length := by
    simp only [writeString, hlen, Nat.mod_eq_of_lt hlt, ne_eq, not_true_eq_false, if_false]
  rw [hheader]
  exact ⟨msg, h, rfl, hlt, rfl⟩

/-- A string in memory, up to its NUL byte, is sent with its length or with -1. -/
theorem writeString_rest {msg tail : Bytes} {len : ℕ} (hlt : msg.length < 2 ^ 32)
    (hlen : len = msg.length ∨ len = sizeT (-1) ∧ 0 ∉ msg) :
    (writeString (msg ++ 0 :: tail) len).Rest (frame msg) := by
  have hrest := writeString_rest_prefix (List.prefix_append msg (0 :: tail)) hlt
  rcases hlen with rfl | ⟨rfl, hnul⟩
  · exact hrest
  · have hmax : sizeT (-1) = 2 ^ 64 - 1 := by decide
    have heq : writeString (msg ++ 0 :: tail) (sizeT (-1)) =
        writeString (msg ++ 0 :: tail) msg.length := by
      simp only [writeString, if_true, strlen_append_nul hnul, if_neg (show msg.length ≠ sizeT (-1) by omega)]
    rw [heq]
    exact hrest

theorem writeEot_rest : writeEot.Rest (frame []) :=
  writeString_rest (by decide : ([] : Bytes).length < 2 ^ 32) (.inl rfl)

theorem rest_nil {w : WriteString} : w.Rest [] ↔ w = .returned := by
  constructor
  · intro h
    cases w with
    | header str len =>
        obtain ⟨msg, -, -, -, hframe⟩ := h
        simp [frame, htonl] at hframe
    | payload str ptr restLen =>
        obtain ⟨sent, -, -, -, hne, -⟩ := h
        exact absurd rfl hne
    | returned => rfl
    | exited => exact absurd h not_false
  · rintro rfl
    rfl

/-- The writes of a call amount to the frame of its string. -/
theorem writeString_leads {msg tail : Bytes} {len : ℕ} (stream : Bytes)
    (hlt : msg.length < 2 ^ 32) (hlen : len = msg.length ∨ len = sizeT (-1) ∧ 0 ∉ msg) :
    Leads (WriteStep writer) (fun s => s.1 = .returned ∧ s.2 = stream ++ frame msg)
      (writeString (msg ++ 0 :: tail) len, stream) := by
  refine (writer_offers.leads stream (writeString_rest hlt hlen)).mono ?_
  intro ⟨w, written⟩ ⟨hw, hwritten⟩
  exact ⟨rest_nil.mp hw, hwritten⟩

/-! ## Reading a frame into memory -/

/-- The block that a message of this length is read into, with what has been read. -/
def partialBlock (got : Bytes) (missing : ℕ) : List (Option UInt8) :=
  got.map some ++ List.replicate missing none ++ [some 0]

/-- What a call of `read_and_store_string` is to read when the frame of `msg` arrives. -/
def ReadAndStore.Expects (msg : Bytes) : ReadAndStore → Bytes → Prop
  | .header, rest => rest = frame msg
  | .payload ulen buffer ptr restLen, rest => ∃ got, msg = got ++ rest ∧ rest ≠ [] ∧
      ulen = msg.length ∧ ptr = got.length ∧ restLen = rest.length ∧
      buffer = partialBlock got rest.length
  | .returned ulen result, rest => rest = [] ∧ ulen = msg.length ∧
      result = some ((msg ++ [0]).map some)
  | .died, _ => False
  | .fault, _ => False

theorem allocate_expects {msg : Bytes} (hlt : msg.length < 2 ^ 32 - 1) (hne : msg ≠ []) :
    (ReadAndStore.allocate msg.length).Expects msg msg := by
  have hsize : (msg.length + 1) % 2 ^ 32 = msg.length + 1 := Nat.mod_eq_of_lt (by omega)
  unfold ReadAndStore.allocate
  simp only [hsize, List.length_replicate, Nat.lt_succ_self, ite_true]
  refine ⟨[], rfl, hne, rfl, rfl, rfl, ?_⟩
  rw [partialBlock, List.replicate_succ', List.set_append_right _ _ (by simp)]
  simp

theorem storeBytes_partialBlock (got bytes : Bytes) (missing : ℕ) :
    storeBytes (partialBlock got (bytes.length + missing)) got.length bytes =
      some (partialBlock (got ++ bytes) missing) := by
  by_cases hne : bytes = []
  · simp [storeBytes, hne]
  · have hfit : (0 : ℤ) ≤ got.length ∧ (got.length : ℤ) + bytes.length ≤
        (partialBlock got (bytes.length + missing)).length := by
      simp only [partialBlock, List.length_append, List.length_map, List.length_replicate]
      push_cast
      omega
    have hblock : partialBlock got (bytes.length + missing) = got.map some ++
        (List.replicate bytes.length none ++ (List.replicate missing none ++ [some 0])) := by
      simp only [partialBlock, List.replicate_add, List.append_assoc]
    rw [storeBytes, if_neg hne, if_pos hfit, Int.toNat_natCast]
    rw [hblock, List.take_left' (by simp), ← List.drop_drop, List.drop_left' (by simp),
      List.drop_left' (by simp)]
    simp [partialBlock]

theorem onRead_htonl {n : ℕ} (h : n < 2 ^ 32) :
    ReadAndStore.header.onRead (.received (htonl n)) =
      if n = 0 then .returned 0 (some [some 0]) else .allocate n := by
  have hcount : sizeT (ReadResult.received (htonl n)).count = 4 := rfl
  simp only [ReadAndStore.onRead, ReadResult.bytes, ntohl_htonl h]
  rw [if_neg (not_not.mpr hcount)]

/-- The first read of a frame gets its header. -/
theorem header_of_frame {bs rest msg : Bytes} {n : ℕ} (hframe : bs ++ rest = frame msg)
    (hask : some 4 = some n) (hwhole : bs.length = n) : bs = htonl msg.length ∧ msg = rest := by
  have hfour : bs.length = (htonl msg.length).length := by
    rw [length_htonl, hwhole, Option.some.inj hask]
  exact (List.append_inj hframe hfour).imp id Eq.symm

theorem storeReader_expects {msg : Bytes} (hlt : msg.length < 2 ^ 32 - 1) :
    storeReader.Expects (ReadAndStore.Expects msg) where
  asked := by
    intro r rest hr hne
    cases r with
    | header =>
        refine ⟨4, rfl, by decide, ?_⟩
        rw [show rest = frame msg from hr, length_frame]
        omega
    | payload ulen buffer ptr restLen =>
        obtain ⟨got, -, -, -, -, rfl, -⟩ := hr
        exact ⟨rest.length, rfl, List.length_pos_iff.mpr hne, le_rfl⟩
    | returned ulen result => exact absurd hr.1 hne
    | died => exact absurd hr not_false
    | fault => exact absurd hr not_false
  step := by
    intro r n bs rest hr hask hne hle hwhole
    cases r with
    | header =>
        obtain ⟨rfl, rfl⟩ := header_of_frame hr hask (hwhole rfl)
        have hread : storeReader.onRead .header (htonl msg.length) = _ :=
          onRead_htonl (show msg.length < 2 ^ 32 by omega)
        rw [hread]
        by_cases hnil : msg = []
        · subst hnil
          exact ⟨rfl, rfl, rfl⟩
        · rw [if_neg (fun h => hnil (List.eq_nil_of_length_eq_zero h))]
          exact allocate_expects hlt hnil
    | payload ulen buffer ptr restLen =>
        obtain ⟨got, hmsg, -, rfl, rfl, rfl, rfl⟩ := hr
        have hlength : bs.length + rest.length < 2 ^ 32 - 1 := by
          have := congrArg List.length hmsg
          simp only [List.length_append] at this
          omega
        have hcount : sizeT (ReadResult.received bs).count = bs.length :=
          sizeT_natCast (by omega)
        have hpos : 0 < bs.length := List.length_pos_iff.mpr hne
        have hrest := sizeT_rest (show (bs ++ rest).length < 2 ^ 64 by
          rw [List.length_append]
          omega)
        simp only [storeReader, ReadAndStore.onRead, ReadResult.bytes, List.length_append,
          storeBytes_partialBlock, hcount, if_neg hpos.ne'] at hrest ⊢
        rw [hrest]
        by_cases hnil : rest = []
        · subst hnil
          refine ⟨rfl, rfl, ?_⟩
          simp [partialBlock, hmsg]
        · rw [if_pos (List.length_pos_iff.mpr hnil)]
          refine ⟨got ++ bs, by simp [hmsg], hnil, rfl, ?_, rfl, rfl⟩
          simp [ReadResult.count]
    | returned ulen result => simp [storeReader, ReadAndStore.asked] at hask
    | died => exact absurd hr not_false
    | fault => exact absurd hr not_false

theorem expects_nil {msg : Bytes} {call : ReadAndStore} : ReadAndStore.Expects msg call [] ↔
    call = .returned msg.length (some ((msg ++ [0]).map some)) := by
  constructor
  · intro h
    cases call with
    | header => exact absurd (congrArg List.length h) (by simp [length_frame]; omega)
    | payload ulen buffer ptr restLen =>
        obtain ⟨got, -, hne, -⟩ := h
        exact absurd rfl hne
    | returned ulen result =>
        obtain ⟨-, rfl, rfl⟩ := h
        rfl
    | died => exact absurd h not_false
    | fault => exact absurd h not_false
  · rintro rfl
    exact ⟨rfl, rfl, rfl⟩

/-- Only the first read of a call is the one of the header. -/
theorem onRead_ne_header {call : ReadAndStore} (h : call.asked ≠ none) (result : ReadResult) :
    call.onRead result ≠ .header := by
  cases call with
  | header =>
      simp only [ReadAndStore.onRead, ReadAndStore.allocate]
      split
      · simp
      · split
        · simp
        · split <;> simp
  | payload ulen buffer ptr restLen =>
      simp only [ReadAndStore.onRead]
      split
      · simp
      · split
        · simp
        · split <;> simp
  | returned ulen result => exact absurd rfl h
  | died => exact absurd rfl h
  | fault => exact absurd rfl h

/-- A program that makes a call of `read_and_store_string`. -/
theorem embed_readAndStore {R : Type*} {M : Reader R UInt8} (wrap : ReadAndStore → R)
    (hasked : ∀ call, call.asked ≠ none → M.asked (wrap call) = call.asked) (hwhole : M.whole (wrap .header))
    (hheader : ∀ bs, M.onRead (wrap .header) bs =
      wrap (ReadAndStore.header.onRead (.received bs)))
    (hpayload : ∀ ulen buffer ptr restLen bs, M.onRead (wrap (.payload ulen buffer ptr restLen)) bs =
      wrap ((ReadAndStore.payload ulen buffer ptr restLen).onRead (.received bs)))
    {msg : Bytes} (hlt : msg.length < 2 ^ 32 - 1) :
    M.Expects (fun r rest => ∃ call, wrap call = r ∧ ReadAndStore.Expects msg call rest) := by
  apply (storeReader_expects hlt).embed wrap hasked
  · rintro call rfl
    exact hwhole
  · intro call bs hne
    cases call with
    | header => exact hheader bs
    | payload ulen buffer ptr restLen => exact hpayload ulen buffer ptr restLen bs
    | returned ulen result => exact absurd rfl hne
    | died => exact absurd rfl hne
    | fault => exact absurd rfl hne

/-! ## Reading a frame in pieces -/

/-- The calls of `consume` get the pieces of `got`, each with its own length. -/
structure PiecesOf (bufferSize : ℕ) (got : Bytes) (calls : List Consumed) : Prop where
  flatten : (calls.map Consumed.received).flatten = got
  len_eq : ∀ call ∈ calls, call.len = call.received.length
  len_pos : ∀ call ∈ calls, 0 < call.len
  len_le : ∀ call ∈ calls, call.len ≤ bufferSize

theorem PiecesOf.snoc {bufferSize : ℕ} {got : Bytes} {calls : List Consumed}
    (h : PiecesOf bufferSize got calls) {bs : Bytes} (hne : bs ≠ [])
    (hle : bs.length ≤ bufferSize) :
    PiecesOf bufferSize (got ++ bs) (calls ++ [⟨bs.length, bs⟩]) := by
  constructor
  · simp [h.flatten]
  · intro call hcall
    rcases List.mem_append.mp hcall with hcall | hcall
    · exact h.len_eq call hcall
    · rw [List.mem_singleton.mp hcall]
  · intro call hcall
    rcases List.mem_append.mp hcall with hcall | hcall
    · exact h.len_pos call hcall
    · rw [List.mem_singleton.mp hcall]
      exact List.length_pos_iff.mpr hne
  · intro call hcall
    rcases List.mem_append.mp hcall with hcall | hcall
    · exact h.len_le call hcall
    · rw [List.mem_singleton.mp hcall]
      exact hle

theorem piecesOf_nil (bufferSize : ℕ) : PiecesOf bufferSize [] [] := by
  constructor <;> simp

/-- Nothing is passed on of a message without bytes. -/
theorem PiecesOf.eq_nil {bufferSize : ℕ} {calls : List Consumed}
    (h : PiecesOf bufferSize [] calls) : calls = [] := by
  cases calls with
  | nil => rfl
  | cons call calls =>
      have hreceived : call.received = [] := by
        have hflatten := h.flatten
        rw [List.map_cons, List.flatten_cons, List.append_eq_nil_iff] at hflatten
        exact hflatten.1
      have hpos := h.len_pos call (by simp)
      rw [h.len_eq call (by simp), hreceived] at hpos
      exact absurd hpos (lt_irrefl 0)

/-- What a call of `read_string_fragmentable` is to read when the frame of `msg`
arrives. -/
def ReadFragmentable.Expects (bufferSize : ℕ) (msg : Bytes) : ReadFragmentable → Bytes → Prop
  | .header, rest => rest = frame msg
  | .payload ulen restLen calls, rest => ∃ got, msg = got ++ rest ∧ rest ≠ [] ∧
      ulen = msg.length ∧ restLen = rest.length ∧ PiecesOf bufferSize got calls
  | .returned ulen calls, rest => rest = [] ∧ ulen = msg.length ∧ PiecesOf bufferSize msg calls
  | .died, _ => False

theorem fragment_expects_nil {bufferSize : ℕ} {msg : Bytes} {call : ReadFragmentable}
    (h : ReadFragmentable.Expects bufferSize msg call []) :
    ∃ calls, call = .returned msg.length calls ∧ PiecesOf bufferSize msg calls := by
  cases call with
  | header => exact absurd (congrArg List.length h) (by simp [length_frame]; omega)
  | payload ulen restLen calls =>
      obtain ⟨got, -, hne, -⟩ := h
      exact absurd rfl hne
  | returned ulen calls =>
      obtain ⟨-, rfl, hpieces⟩ := h
      exact ⟨calls, rfl, hpieces⟩
  | died => exact absurd h not_false

theorem fragment_onRead_htonl {n : ℕ} (h : n < 2 ^ 32) :
    ReadFragmentable.header.onRead (.received (htonl n)) =
      if n = 0 then .returned 0 [] else .payload n n [] := by
  have hcount : sizeT (ReadResult.received (htonl n)).count = 4 := rfl
  simp only [ReadFragmentable.onRead, ReadResult.bytes, ntohl_htonl h]
  rw [if_neg (not_not.mpr hcount)]

theorem fragmentReader_expects {bufferSize : ℕ} (hbuffer : 1 ≤ bufferSize) {msg : Bytes}
    (hlt : msg.length < 2 ^ 32) :
    (fragmentReader bufferSize).Expects (ReadFragmentable.Expects bufferSize msg) where
  asked := by
    intro r rest hr hne
    cases r with
    | header =>
        refine ⟨4, rfl, by decide, ?_⟩
        rw [show rest = frame msg from hr, length_frame]
        omega
    | payload ulen restLen calls =>
        obtain ⟨got, -, -, -, rfl, -⟩ := hr
        have hpos : 0 < rest.length := List.length_pos_iff.mpr hne
        refine ⟨_, rfl, ?_, ?_⟩ <;> split <;> omega
    | returned ulen calls => exact absurd hr.1 hne
    | died => exact absurd hr not_false
  step := by
    intro r n bs rest hr hask hne hle hwhole
    cases r with
    | header =>
        obtain ⟨rfl, rfl⟩ := header_of_frame hr hask (hwhole rfl)
        have hread : (fragmentReader bufferSize).onRead .header (htonl msg.length) = _ :=
          fragment_onRead_htonl hlt
        rw [hread]
        by_cases hnil : msg = []
        · subst hnil
          exact ⟨rfl, rfl, piecesOf_nil bufferSize⟩
        · rw [if_neg (fun h => hnil (List.eq_nil_of_length_eq_zero h))]
          exact ⟨[], rfl, hnil, rfl, rfl, piecesOf_nil bufferSize⟩
    | payload ulen restLen calls =>
        obtain ⟨got, hmsg, -, rfl, rfl, hpieces⟩ := hr
        have hlength : bs.length + rest.length < 2 ^ 32 := by
          have := congrArg List.length hmsg
          simp only [List.length_append] at this
          omega
        have hbs : bs.length ≤ bufferSize := by
          have hn : (if (bs ++ rest).length > bufferSize then bufferSize
            else (bs ++ rest).length) = n := Option.some.inj hask
          split at hn <;> omega
        have hcount : sizeT (ReadResult.received bs).count = bs.length :=
          sizeT_natCast (by omega)
        have hpos : 0 < bs.length := List.length_pos_iff.mpr hne
        have hrest := sizeT_rest (show (bs ++ rest).length < 2 ^ 64 by
          rw [List.length_append]
          omega)
        simp only [fragmentReader, ReadFragmentable.onRead, ReadResult.bytes, hcount,
          if_neg hpos.ne', hrest]
        by_cases hnil : rest = []
        · subst hnil
          refine ⟨rfl, rfl, ?_⟩
          rw [hmsg, List.append_nil]
          exact hpieces.snoc hne hbs
        · rw [if_pos (List.length_pos_iff.mpr hnil)]
          exact ⟨got ++ bs, by simp [hmsg], hnil, rfl, rfl, hpieces.snoc hne hbs⟩
    | returned ulen calls => simp [fragmentReader, ReadFragmentable.asked] at hask
    | died => exact absurd hr not_false

end SysProg.Transmission
