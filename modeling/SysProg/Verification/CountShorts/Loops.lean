import SysProg.Model.CountShorts

/-! # What the counting loops count

A byte pair is a short, however `read` cuts the stream. The loops differ in the last byte of a
stream of odd length. -/

namespace SysProg.CountShorts

open Transmission ByteStream

/-- The byte pairs of a stream as shorts; a last single byte is dropped. -/
def shortsOf : Bytes → List UInt16
  | low :: high :: stream => UInt16.ofNat (low.toNat + 256 * high.toNat) :: shortsOf stream
  | _ => []

/-- The last byte of a stream of odd length. -/
def unpaired : Bytes → Bytes
  | _ :: _ :: stream => unpaired stream
  | stream => stream

theorem unpaired_eq_drop : ∀ stream : Bytes, unpaired stream = stream.drop (2 * (stream.length / 2))
  | [] => rfl
  | [last] => by simp [unpaired]
  | low :: high :: stream => by
      have hhalf : 2 * ((low :: high :: stream).length / 2) = 2 * (stream.length / 2) + 1 + 1 := by
        simp only [List.length_cons]
        omega
      rw [hhalf, List.drop_succ_cons, List.drop_succ_cons, unpaired, unpaired_eq_drop stream]

theorem length_unpaired (stream : Bytes) : (unpaired stream).length = stream.length % 2 := by
  rw [unpaired_eq_drop, List.length_drop]
  omega

/-- The only byte without a partner is the last one. -/
theorem unpaired_of_odd {stream : Bytes} (hodd : stream.length % 2 = 1) :
    ∃ last, stream[stream.length - 1]? = some last ∧ unpaired stream = [last] := by
  have hlt : stream.length - 1 < stream.length := by omega
  have hhalf : 2 * (stream.length / 2) = stream.length - 1 := by omega
  refine ⟨stream[stream.length - 1], List.getElem?_eq_getElem hlt, ?_⟩
  rw [unpaired_eq_drop, hhalf, List.drop_eq_getElem_cons hlt, Nat.sub_add_cancel (by omega),
    List.drop_length]

theorem unpaired_append : ∀ stream stream' : Bytes,
    unpaired (stream ++ stream') = unpaired (unpaired stream ++ stream')
  | [], _ => rfl
  | [_], _ => rfl
  | _ :: _ :: stream, stream' => unpaired_append stream stream'

/-- What is counted of the beginning of a stream, and of the rest with the byte carried over. -/
theorem shortsOf_append : ∀ stream stream' : Bytes,
    shortsOf (stream ++ stream') = shortsOf stream ++ shortsOf (unpaired stream ++ stream')
  | [], _ => rfl
  | [_], _ => rfl
  | low :: high :: stream, stream' => by
      simp only [List.cons_append, shortsOf, unpaired]
      rw [shortsOf_append stream stream']

theorem shortsOf_unpaired : ∀ stream : Bytes, shortsOf (unpaired stream) = []
  | [] => rfl
  | [_] => rfl
  | _ :: _ :: stream => shortsOf_unpaired stream

theorem shortsOf_take : ∀ stream : Bytes,
    shortsOf (stream.take (2 * (stream.length / 2))) = shortsOf stream
  | [] => rfl
  | [last] => by simp [shortsOf]
  | low :: high :: stream => by
      have hhalf : 2 * ((low :: high :: stream).length / 2) = 2 * (stream.length / 2) + 1 + 1 := by
        simp only [List.length_cons]
        omega
      rw [hhalf, List.take_succ_cons, List.take_succ_cons, shortsOf, shortsOf, shortsOf_take stream]

theorem sarrFrom_eq {buffer : Bytes} (i : ℕ) {n : ℕ} (hle : 2 * i + 2 * n ≤ buffer.length) :
    sarrFrom buffer i n = .ok (shortsOf ((buffer.drop (2 * i)).take (2 * n))) := by
  induction n generalizing i with
  | zero => rfl
  | succ n ih =>
      have hlow : 2 * i < buffer.length := by omega
      have hhigh : 2 * i + 1 < buffer.length := by omega
      have hpair : (buffer.drop (2 * i)).take (2 * (n + 1)) =
          buffer[2 * i] :: buffer[2 * i + 1] :: (buffer.drop (2 * (i + 1))).take (2 * n) := by
        rw [List.drop_eq_getElem_cons hlow, List.drop_eq_getElem_cons hhigh]
        rfl
      have hsarr : sarr buffer i =
          .ok (UInt16.ofNat (buffer[2 * i].toNat + 256 * buffer[2 * i + 1].toNat)) := by
        rw [sarr, load_eq_ok_iff.mpr (List.getElem?_eq_getElem hlow), Run.ok_bind,
          load_eq_ok_iff.mpr (List.getElem?_eq_getElem hhigh), Run.ok_bind]
      rw [sarrFrom, hsarr, Run.ok_bind, ih (i + 1) (by omega), Run.ok_bind, hpair, shortsOf]

/-! ## The turns of the loop -/

/-- The buffer at the beginning of a turn, with the byte carried over. -/
structure Carried (buffer : Bytes) (pos : ℕ) (carry : Bytes) : Prop where
  length_eq : buffer.length = BUF_SIZE
  take_eq : buffer.take pos = carry
  pos_eq : pos = carry.length
  pos_le : pos ≤ 1

theorem Carried.store {buffer carry : Bytes} {pos : ℕ} (h : Carried buffer pos carry)
    {bytes : Bytes} (hle : bytes.length ≤ BUF_SIZE - pos) :
    ∃ rest, storeRange buffer pos bytes = .ok (carry ++ bytes ++ rest) ∧
      (carry ++ bytes ++ rest).length = BUF_SIZE := by
  have hsize : 1 ≤ BUF_SIZE := by decide
  have hpos := h.pos_le
  have hlength := h.length_eq
  refine ⟨buffer.drop (pos + bytes.length), ?_, ?_⟩
  · rw [storeRange, if_pos (by omega), h.take_eq]
  · have hcarry := h.pos_eq
    simp only [List.length_append, List.length_drop]
    omega

theorem Carried.unpaired_eq {buffer carry : Bytes} {pos : ℕ} (h : Carried buffer pos carry) :
    unpaired carry = carry := by
  have hpos := h.pos_eq
  have hle := h.pos_le
  rw [unpaired_eq_drop, show 2 * (carry.length / 2) = 0 by omega, List.drop_zero]

theorem Carried.shortsOf_eq {buffer carry : Bytes} {pos : ℕ} (h : Carried buffer pos carry) :
    shortsOf carry = [] := by
  rw [← h.unpaired_eq]
  exact shortsOf_unpaired carry

/-- The pairs that a turn counts. -/
theorem sarrFrom_stored {text rest : Bytes} :
    sarrFrom (text ++ rest) 0 (text.length / 2) = .ok (shortsOf text) := by
  have hle : 2 * (text.length / 2) ≤ text.length := by omega
  rw [sarrFrom_eq 0 (by rw [List.length_append]; omega), Nat.mul_zero, List.drop_zero,
    List.take_append_of_le_length hle, shortsOf_take]

theorem carryOver_stored {text rest : Bytes} (hlength : (text ++ rest).length = BUF_SIZE) :
    ∃ buffer, carryOver (text ++ rest) text.length = .ok buffer ∧
      Carried buffer (text.length % 2) (unpaired text) := by
  unfold carryOver
  by_cases hodd : 0 < text.length % 2
  · obtain ⟨last, hlast, hunpaired⟩ := unpaired_of_odd (show text.length % 2 = 1 by omega)
    have hpos : text.length % 2 = 1 := by omega
    have hload : load (text ++ rest) (text.length - 1) = .ok last := by
      rw [load_eq_ok_iff, List.getElem?_append_left (by omega)]
      exact hlast
    have hsize : 0 < (text ++ rest).length := by
      rw [List.length_append]
      omega
    refine ⟨[last] ++ (text ++ rest).drop 1, ?_, ?_, ?_, ?_, ?_⟩
    · rw [if_pos hodd, hload, Run.ok_bind, storeRange, if_pos (by rw [List.length_singleton]; omega)]
      simp
    · rw [← hlength, List.length_append, List.length_singleton, List.length_drop]
      omega
    · rw [hpos, hunpaired]
      rfl
    · rw [hpos, hunpaired]
      rfl
    · omega
  · have hnone : unpaired text = [] :=
      List.length_eq_zero_iff.mp (by rw [length_unpaired]; omega)
    rw [if_neg hodd, hnone, show text.length % 2 = 0 by omega]
    exact ⟨_, rfl, hlength, rfl, rfl, Nat.zero_le 1⟩

/-- The loop counts the pairs, and then what the turn at the end counts of the last byte. -/
theorem countingLoop_eq {byteSize : ℕ → ℕ → ℕ → ℕ} {atEnd : Bytes → List UInt16}
    (hatEnd : ∀ {buffer pos carry}, Carried buffer pos carry →
      countingLoop byteSize [] buffer pos = .ok (atEnd carry))
    (hbyteSize : ∀ sizeRead pos, byteSize sizeRead pos pos = sizeRead + pos)
    {pieces : List Bytes} (hne : [] ∉ pieces) {buffer carry : Bytes} {pos : ℕ}
    (h : Carried buffer pos carry) :
    countingLoop byteSize pieces buffer pos =
      .ok (shortsOf (carry ++ pieces.flatten) ++ atEnd (unpaired (carry ++ pieces.flatten))) := by
  induction hn : pieces.flatten.length using Nat.strong_induction_on
    generalizing pieces buffer carry pos with
  | h n ih =>
    cases pieces with
    | nil =>
        rw [hatEnd h, List.flatten_nil, List.append_nil, h.unpaired_eq, h.shortsOf_eq,
          List.nil_append]
    | cons piece pieces =>
        have hsize : 1 < BUF_SIZE := by decide
        have hreceived := receive_ne_nil (n := BUF_SIZE - pos) (by have := h.pos_le; omega) hne
          (List.cons_ne_nil piece pieces)
        have hrest := (receive_leftOf (BUF_SIZE - pos) hne).nonempty
        have hle := receive_length_le (BUF_SIZE - pos) (piece :: pieces)
        have hsplit := receive_append (BUF_SIZE - pos) (piece :: pieces)
        rw [countingLoop]
        generalize receive (BUF_SIZE - pos) (piece :: pieces) = received at *
        obtain ⟨bytes, rest⟩ := received
        simp only at hreceived hrest hle hsplit ⊢
        have hbytes := List.length_pos_iff.mpr hreceived
        obtain ⟨unread, hstore, hlength⟩ := h.store hle
        obtain ⟨carried, hcarry, hcarried⟩ := carryOver_stored hlength
        have hwhole : byteSize bytes.length pos pos = (carry ++ bytes).length := by
          rw [hbyteSize, h.pos_eq, List.length_append, Nat.add_comm]
        have hpad : padAtEnd (carry ++ bytes ++ unread) pos bytes.length =
            .ok (carry ++ bytes ++ unread, pos) := by
          rw [padAtEnd, if_neg (by omega)]
        have hlater := ih rest.flatten.length (by rw [← hn, ← hsplit, List.length_append]; omega)
          hrest hcarried rfl
        rw [hstore, Run.ok_bind, hpad, Run.ok_bind, hwhole, sarrFrom_stored, Run.ok_bind,
          dif_neg hreceived, hcarry, Run.ok_bind, hlater, Run.ok_bind, ← hsplit,
          ← List.append_assoc carry, shortsOf_append (carry ++ bytes),
          unpaired_append (carry ++ bytes), List.append_assoc]

/-- The turn at the end of the stream stores the zero byte if there is a byte without a
partner, and counts the pairs of the first `byte_size` bytes. -/
theorem countingLoop_nil {byteSize : ℕ → ℕ → ℕ → ℕ} {buffer carry : Bytes} {pos : ℕ}
    (h : Carried buffer pos carry) :
    ∃ padded rest, padded = (if pos = 0 then [] else carry ++ [0]) ∧
      countingLoop byteSize [] buffer pos =
        sarrFrom (padded ++ rest) 0 (byteSize 0 pos padded.length / 2) := by
  have hcarry := h.pos_eq
  obtain ⟨unread, hstore, hlength⟩ := h.store (show ([] : Bytes).length ≤ BUF_SIZE - pos from Nat.zero_le _)
  rw [List.append_nil] at hstore hlength
  have hstored : Carried (carry ++ unread) pos carry :=
    ⟨hlength, by rw [hcarry, List.take_left], hcarry, h.pos_le⟩
  rw [countingLoop]
  simp only [receive, hstore, Run.ok_bind, List.length_nil]
  by_cases hpos : pos = 0
  · obtain rfl : carry = [] := List.length_eq_zero_iff.mp (hcarry.symm.trans hpos)
    refine ⟨[], unread, by rw [if_pos hpos], ?_⟩
    rw [padAtEnd, if_neg (by omega), Run.ok_bind, hpos]
    cases sarrFrom ([] ++ unread) 0 (byteSize 0 0 0 / 2) <;> rfl
  · have hle : [(0 : UInt8)].length ≤ BUF_SIZE - pos := by
      have hsize : 2 ≤ BUF_SIZE := by decide
      have hone := h.pos_le
      rw [List.length_singleton]
      omega
    obtain ⟨rest, hzero, -⟩ := hstored.store hle
    refine ⟨carry ++ [0], rest, by rw [if_neg hpos], ?_⟩
    rw [padAtEnd, if_pos ⟨rfl, Nat.pos_of_ne_zero hpos⟩, hzero, Run.ok_bind, Run.ok_bind,
      List.length_append, ← hcarry]
    cases sarrFrom (carry ++ [0] ++ rest) 0 (byteSize 0 pos (pos + 1) / 2) <;> rfl

/-- The programs with shared memory have computed `byte_size` before. -/
theorem sharedMemory_atEnd {buffer carry : Bytes} {pos : ℕ} (h : Carried buffer pos carry) :
    countingLoop (fun sizeRead pos _ => sizeRead + pos) [] buffer pos = .ok [] := by
  obtain ⟨padded, rest, -, hloop⟩ := countingLoop_nil h
  have hpos := h.pos_le
  rw [hloop, show (0 + pos) / 2 = 0 by omega, sarrFrom]

theorem mutex_atEnd {buffer carry : Bytes} {pos : ℕ} (h : Carried buffer pos carry) :
    countingLoop (fun sizeRead _ pos => sizeRead + pos) [] buffer pos =
      .ok (shortsOf (carry ++ [0])) := by
  obtain ⟨padded, rest, hpadded, hloop⟩ := countingLoop_nil h
  rw [hloop, Nat.zero_add, sarrFrom_stored, hpadded]
  by_cases hpos : pos = 0
  · obtain rfl : carry = [] := List.length_eq_zero_iff.mp (h.pos_eq.symm.trans hpos)
    rw [if_pos hpos]
    rfl
  · rw [if_neg hpos]

/-! ## Counting -/

theorem foldl_increment (shorts : List UInt16) (counter : Counter) (s : UInt16) :
    shorts.foldl increment counter s = counter s + shorts.count s := by
  induction shorts generalizing counter with
  | nil => simp
  | cons first shorts ih =>
      rw [List.foldl_cons, ih, List.count_cons]
      by_cases hs : s = first
      · rw [hs, increment, Function.update_self]
        simp
        ring
      · rw [increment, Function.update_of_ne hs, if_neg (by simpa using Ne.symm hs), Nat.add_zero]

/-- A stream as `read` delivers it to a program, and what the program's buffer holds before. -/
structure Reading (stream : Bytes) where
  pieces : List Bytes
  nonempty : [] ∉ pieces
  flatten_eq : pieces.flatten = stream
  buffer : Bytes
  length_eq : buffer.length = BUF_SIZE

theorem Reading.carried {stream : Bytes} (reading : Reading stream) :
    Carried reading.buffer 0 [] :=
  ⟨reading.length_eq, rfl, rfl, Nat.zero_le 1⟩

theorem sharedMemoryLoop_eq {stream : Bytes} (reading : Reading stream) :
    sharedMemoryLoop reading.pieces reading.buffer 0 = .ok (shortsOf stream) := by
  have hloop : sharedMemoryLoop reading.pieces reading.buffer 0 =
      .ok (shortsOf ([] ++ reading.pieces.flatten) ++ []) :=
    countingLoop_eq sharedMemory_atEnd (fun _ _ => rfl) reading.nonempty reading.carried
  rw [hloop, List.nil_append, reading.flatten_eq, List.append_nil]

theorem mutex_eq {stream : Bytes} (reading : Reading stream) :
    mutex reading.pieces reading.buffer = .ok (shortsOf (stream ++ [0])) := by
  rw [mutex, countingLoop_eq mutex_atEnd (fun _ _ => rfl) reading.nonempty reading.carried,
    List.nil_append, reading.flatten_eq, ← shortsOf_append]

end SysProg.CountShorts
