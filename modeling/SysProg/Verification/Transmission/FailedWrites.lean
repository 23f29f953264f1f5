import SysProg.Library.Scripts
import SysProg.Verification.Transmission.Frames

/-! # Writes that fail

A write of the payload accepts a part of what it is offered, or returns -1, which the loop of
`write_string` takes for a large number of bytes. -/

namespace SysProg.Transmission

open List

/-- What `write` returns. -/
inductive WriteResult where
  | accepted (n : ℕ)
  | failed
  deriving DecidableEq, Repr

def WriteResult.count : WriteResult → ℤ
  | .accepted n => n
  | .failed => -1

/-- A call of `write_string` and the bytes on the stream. -/
abbrev Writing :=
  WriteString × Bytes

def Writing.onWrite (s : Writing) (result : WriteResult) : Writing :=
  (s.1.onWrite result.count,
    match result with
    | .accepted n => s.2 ++ (s.1.offered.getD []).take n
    | .failed => s.2)

/-- The header is written as a whole; of the payload, a part of what is offered, or nothing. -/
def Writing.CanGet (s : Writing) (result : WriteResult) : Prop :=
  match s.1, result with
  | .header _ _, .accepted n => n = 4
  | .header _ _, .failed => False
  | call, .accepted n => ∃ bytes, call.offered = some bytes ∧ 0 < n ∧ n ≤ bytes.length
  | call, .failed => call.offered ≠ none

/-- The string that a call is to send: `str` is the memory, and a length of -1 stands for the
string that ends with the first NUL byte. -/
def message (str : Bytes) (len : ℕ) : Bytes :=
  if len = sizeT (-1) then str.takeWhile fun b => b != 0 else str.take len

/-- What a call of `write` with its result should come to. -/
structure Writing.Handles (msg : Bytes) (s : Writing) (result : WriteResult) : Prop where
  stream : (s.onWrite result).2 <+: frame msg
  pointer : ∀ str ptr restLen, (s.onWrite result).1 = .payload str ptr restLen →
    0 ≤ ptr ∧ ptr ≤ msg.length
  restLen_le : ∀ str ptr restLen str' ptr' restLen', s.1 = .payload str ptr restLen →
    (s.onWrite result).1 = .payload str' ptr' restLen' → restLen' ≤ restLen

/-- The stream has the header and the string up to the read pointer. -/
def Writing.Sound (msg : Bytes) : Writing → Prop
  | (.header str len, stream) => msg <+: str ∧ len = msg.length ∧ len < 2 ^ 32 ∧ stream = []
  | (.payload str ptr restLen, stream) => ∃ sent rest, msg = sent ++ rest ∧ msg <+: str ∧
      ptr = sent.length ∧ restLen = rest.length ∧ rest.length < 2 ^ 32 ∧ rest ≠ [] ∧
      stream = htonl msg.length ++ sent
  | (.returned, stream) => stream = frame msg
  | (.exited, stream) => stream = []

theorem Writing.Sound.stream_prefix {msg : Bytes} {s : Writing} (h : s.Sound msg) :
    s.2 <+: frame msg := by
  obtain ⟨call, stream⟩ := s
  cases call with
  | header str len =>
      obtain ⟨-, -, -, rfl⟩ := h
      exact List.nil_prefix
  | payload str ptr restLen =>
      obtain ⟨sent, rest, rfl, -, -, -, -, -, rfl⟩ := h
      rw [frame, ← List.append_assoc]
      exact List.prefix_append _ _
  | returned =>
      cases h
      exact List.prefix_rfl
  | exited =>
      cases h
      exact List.nil_prefix

theorem Writing.Sound.pointer {msg : Bytes} {s : Writing} (h : s.Sound msg) {str : Bytes} {ptr : ℤ}
    {restLen : ℕ} (hs : s.1 = .payload str ptr restLen) : 0 ≤ ptr ∧ ptr ≤ msg.length := by
  obtain ⟨call, stream⟩ := s
  cases hs
  obtain ⟨sent, rest, rfl, -, rfl, -⟩ := h
  rw [List.length_append]
  omega

/-- The test of the loop, when the string has been sent up to `ptr`. -/
theorem sound_loop (sent rest : Bytes) {str : Bytes} (hstr : sent ++ rest <+: str)
    (hlt : rest.length < 2 ^ 32) :
    Writing.Sound (sent ++ rest) (WriteString.loop str sent.length rest.length,
      htonl (sent ++ rest).length ++ sent) := by
  unfold WriteString.loop
  by_cases hnil : rest = []
  · subst hnil
    simp [Writing.Sound, frame]
  · rw [if_pos (List.length_pos_iff.mpr hnil)]
    exact ⟨sent, rest, rfl, hstr, rfl, rfl, hlt, hnil, rfl⟩

/-- A write of the payload that is accepted in part. -/
theorem onWrite_accepted {sent rest str : Bytes} (hstr : sent ++ rest <+: str)
    (hlt : rest.length < 2 ^ 32) {n : ℕ} (hle : n ≤ rest.length) :
    Writing.onWrite (.payload str sent.length rest.length, htonl (sent ++ rest).length ++ sent)
        (.accepted n) =
      (WriteString.loop str (sent ++ rest.take n).length (rest.drop n).length,
        htonl (sent ++ rest).length ++ (sent ++ rest.take n)) := by
  have hrest : sizeT ((rest.length : ℤ) - (n : ℤ)) = (rest.drop n).length := by
    rw [sizeT_sub hle (by omega), List.length_drop]
  have hptr : (sent.length : ℤ) + n = (sent ++ rest.take n).length := by
    rw [List.length_append, List.length_take_of_le hle]
    push_cast
    rfl
  simp only [Writing.onWrite, WriteString.onWrite, WriteResult.count, offered_payload hstr,
    Option.getD_some, hrest, hptr, List.append_assoc]

/-- After a write that failed the loop goes on with one byte more. -/
theorem onWrite_failed {str : Bytes} {ptr : ℤ} {restLen : ℕ} (stream : Bytes)
    (hlt : restLen < 2 ^ 32) :
    Writing.onWrite (.payload str ptr restLen, stream) .failed =
      (.payload str (ptr + -1) (restLen + 1), stream) := by
  have hrest : sizeT ((restLen : ℤ) - -1) = restLen + 1 := by
    simp only [sizeT]
    omega
  simp only [Writing.onWrite, WriteString.onWrite, WriteResult.count, hrest, WriteString.loop]
  rfl

theorem Writing.Sound.onWrite {msg : Bytes} {s : Writing} (h : s.Sound msg) {result : WriteResult}
    (hget : s.CanGet result) (hne : result ≠ .failed) : (s.onWrite result).Sound msg := by
  obtain ⟨call, stream⟩ := s
  cases result with
  | failed => exact absurd rfl hne
  | accepted n =>
      cases call with
      | header str len =>
          obtain ⟨hstr, rfl, hlt, rfl⟩ := h
          cases hget
          have hstart := sound_loop [] msg hstr hlt
          have hheader : Writing.onWrite (.header str msg.length, []) (.accepted 4) =
              (WriteString.loop str 0 msg.length, htonl msg.length) := by
            simp only [Writing.onWrite, WriteString.onWrite, WriteString.offered,
              Nat.mod_eq_of_lt hlt, Option.getD_some, List.nil_append,
              List.take_of_length_le (length_htonl _).le]
          rw [hheader]
          rwa [List.nil_append, List.append_nil] at hstart
      | payload str ptr restLen =>
          obtain ⟨sent, rest, rfl, hstr, rfl, rfl, hlt, -, rfl⟩ := h
          obtain ⟨bytes, hoffered, -, hle⟩ := hget
          rw [offered_payload hstr] at hoffered
          cases hoffered
          rw [onWrite_accepted hstr hlt hle]
          have hsplit : sent ++ rest = (sent ++ rest.take n) ++ rest.drop n := by
            rw [List.append_assoc, List.take_append_drop]
          rw [hsplit] at hstr ⊢
          exact sound_loop _ _ hstr (by rw [List.length_drop]; omega)
      | returned =>
          obtain ⟨bytes, hoffered, -⟩ := hget
          cases hoffered
      | exited =>
          obtain ⟨bytes, hoffered, -⟩ := hget
          cases hoffered

theorem Writing.handles_iff {msg : Bytes} {s : Writing} (h : s.Sound msg) {result : WriteResult}
    (hget : s.CanGet result) : s.Handles msg result ↔ result ≠ .failed := by
  constructor
  · rintro hhandles rfl
    obtain ⟨call, stream⟩ := s
    cases call with
    | header str len => exact hget
    | payload str ptr restLen =>
        obtain ⟨sent, rest, -, -, -, rfl, hlt, -⟩ := h
        have hnext : (Writing.onWrite (.payload str ptr rest.length, stream) .failed).1 =
            .payload str (ptr + -1) (rest.length + 1) :=
          congrArg Prod.fst (onWrite_failed stream hlt)
        have hle := hhandles.restLen_le _ _ _ _ _ _ rfl hnext
        exact absurd hle (Nat.not_succ_le_self rest.length)
    | returned => exact absurd rfl hget
    | exited => exact absurd rfl hget
  · intro hne
    have hsound := h.onWrite hget hne
    refine ⟨hsound.stream_prefix, fun str ptr restLen hs => hsound.pointer hs, ?_⟩
    intro str ptr restLen str' ptr' restLen' hs hs'
    obtain ⟨call, stream⟩ := s
    cases hs
    cases result with
    | failed => exact absurd rfl hne
    | accepted n =>
        obtain ⟨sent, rest, rfl, hstr, rfl, rfl, hlt, -, rfl⟩ := h
        obtain ⟨bytes, hoffered, -, hle⟩ := hget
        rw [offered_payload hstr] at hoffered
        cases hoffered
        rw [onWrite_accepted hstr hlt hle, WriteString.loop] at hs'
        split at hs'
        · cases hs'
          rw [List.length_drop]
          exact Nat.sub_le _ _
        · cases hs'

/-- The memory has the string that a call is to send. -/
def HasString (str : Bytes) (len : ℕ) : Prop :=
  if len = sizeT (-1) then 0 ∈ str else len ≤ str.length

theorem length_message {str : Bytes} {len : ℕ} (h : HasString str len) :
    (message str len).length = if len = sizeT (-1) then strlen str else len := by
  unfold HasString at h
  unfold message
  split at h
  · rename_i hlen
    rw [if_pos hlen, if_pos hlen, strlen]
  · rename_i hlen
    rw [if_neg hlen, if_neg hlen, List.length_take_of_le h]

theorem message_prefix_str (str : Bytes) (len : ℕ) : message str len <+: str := by
  unfold message
  split
  · exact List.takeWhile_prefix _
  · exact List.take_prefix _ _

theorem sound_writeString {str : Bytes} {len : ℕ} (h : HasString str len) :
    Writing.Sound (message str len) (writeString str len, []) := by
  have hlength := length_message h
  simp only [writeString, ← hlength]
  by_cases hlong : (message str len).length % 2 ^ 32 ≠ (message str len).length
  · rw [if_pos hlong]
    rfl
  · rw [if_neg hlong]
    have hlt : (message str len).length < 2 ^ 32 := by omega
    exact ⟨message_prefix_str str len, rfl, hlt, rfl⟩

/-- A call of `write_string` gets along with exactly the scripts in which no write fails. -/
theorem writeString_handled_iff {str : Bytes} {len : ℕ} (h : HasString str len)
    {script : List WriteResult}
    (hscript : Script Writing.CanGet Writing.onWrite (writeString str len, []) script) :
    EachCall (Writing.Handles (message str len)) Writing.onWrite (writeString str len, []) script ↔
      .failed ∉ script := by
  have heach : EachCall (Writing.Handles (message str len)) Writing.onWrite
      (writeString str len, []) script ↔ ∀ result ∈ script, result ≠ .failed :=
    hscript.eachCall_iff (fun _ _ hs hget => Writing.handles_iff hs hget)
      (fun _ _ hs hget => hs.onWrite hget) (sound_writeString h)
  exact heach.trans List.forall_mem_ne'

theorem writeString_handled_two :
    EachCall (Writing.Handles [104, 105]) Writing.onWrite (writeString [104, 105, 0] 2, [])
      [.accepted 4, .accepted 1, .accepted 1] := by
  have hscript : Script Writing.CanGet Writing.onWrite (writeString [104, 105, 0] 2, [])
      [.accepted 4, .accepted 1, .accepted 1] :=
    .cons rfl (.cons ⟨[104, 105], by decide, by decide, by decide⟩
      (.cons ⟨[105], by decide, by decide, by decide⟩ (.nil _)))
  have hstring : HasString [104, 105, 0] 2 := by
    unfold HasString
    decide
  exact (writeString_handled_iff hstring hscript).mpr (by simp)

/-- The first of two bytes is sent twice when the write after it fails. -/
theorem not_writeString_handled_failed :
    Script Writing.CanGet Writing.onWrite (writeString [104, 105, 0] 2, [])
        [.accepted 4, .accepted 1, .failed, .accepted 2] ∧
      [.accepted 4, .accepted 1, .failed, .accepted 2].foldl Writing.onWrite
        (writeString [104, 105, 0] 2, []) = (.returned, [0, 0, 0, 2, 104, 104, 105]) ∧
      ¬ [0, 0, 0, 2, 104, 104, 105] <+: frame [104, 105] := by
  refine ⟨?_, by decide, by decide⟩
  exact .cons rfl (.cons ⟨[104, 105], by decide, by decide, by decide⟩
    (.cons (show WriteString.offered (.payload [104, 105, 0] 1 1) ≠ none by decide)
      (.cons ⟨[104, 105], by decide, by decide, by decide⟩ (.nil _))))

end SysProg.Transmission
