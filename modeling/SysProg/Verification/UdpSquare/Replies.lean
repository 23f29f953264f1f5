import SysProg.Model.UdpSquare
import SysProg.Verification.Text.Decimal

/-! # What the replies depend on

A datagram without a character that ends its number is read on into what an earlier datagram has
left in the buffer. -/

namespace SysProg.UdpSquare

open Transmission

/-- After any two histories there is a reply to the datagram, the same after both. -/
def SameReply (d : Datagram) : Prop :=
  ∀ initial history history' buffer buffer' replies replies',
    serve initial history = .ok (buffer, replies) →
    serve initial history' = .ok (buffer', replies') →
    ∃ reply, replyTo buffer d.bytes = .ok reply ∧ replyTo buffer' d.bytes = .ok reply

/-! ## A number that ends -/

theorem takeWhile_append_of_any {str : Bytes} (h : (str.any fun b => !isdigit b) = true)
    (rest : Bytes) : (str ++ rest).takeWhile isdigit = str.takeWhile isdigit := by
  induction str with
  | nil => simp at h
  | cons b str ih =>
      cases hb : isdigit b with
      | false => simp [hb]
      | true =>
          have htail : (str.any fun b => !isdigit b) = true := by simpa [hb] using h
          simp [hb, ih htail]

theorem dropWhile_append_of_ne_nil {str : Bytes} (h : str.dropWhile isspace ≠ [])
    (rest : Bytes) : (str ++ rest).dropWhile isspace = str.dropWhile isspace ++ rest := by
  induction str with
  | nil => simp at h
  | cons b str ih =>
      cases hb : isspace b with
      | false => simp [hb]
      | true =>
          have htail : str.dropWhile isspace ≠ [] := by simpa [hb] using h
          simp [hb, ih htail]

theorem dropWhile_ne_nil_of_numberEnds {str : Bytes} (h : numberEnds str = true) :
    str.dropWhile isspace ≠ [] := by
  intro hnil
  rw [numberEnds, unsigned, hnil] at h
  simp at h

theorem unsigned_append {str : Bytes} (h : str.dropWhile isspace ≠ []) (rest : Bytes) :
    unsigned (str ++ rest) = unsigned str ++ rest := by
  unfold unsigned
  rw [dropWhile_append_of_ne_nil h]
  obtain ⟨b, tail, hcons⟩ := List.exists_cons_of_ne_nil h
  rw [hcons, List.cons_append]
  by_cases hminus : b = 45
  · subst hminus
    rfl
  · by_cases hplus : b = 43
    · subst hplus
      rfl
    · simp [hminus, hplus]

theorem numberEnds_append {str : Bytes} (h : numberEnds str = true) (rest : Bytes) :
    numberEnds (str ++ rest) = true := by
  rw [numberEnds, unsigned_append (dropWhile_ne_nil_of_numberEnds h), List.any_append]
  rw [numberEnds] at h
  rw [h, Bool.true_or]

/-- The sign and the digits. -/
theorem strtol_eq (str : Bytes) : strtol str =
    if str.dropWhile isspace = 45 :: unsigned str then
      max (-(2 ^ 63)) (-(digitsValue ((unsigned str).takeWhile isdigit) : ℤ))
    else min (2 ^ 63 - 1) (digitsValue ((unsigned str).takeWhile isdigit) : ℤ) := by
  unfold strtol unsigned
  cases hdrop : str.dropWhile isspace with
  | nil => simp
  | cons b tail =>
      by_cases hminus : b = 45
      · subst hminus
        simp
      · by_cases hplus : b = 43
        · subst hplus
          simp
        · simp [hminus, hplus]

theorem strtol_append {str : Bytes} (h : numberEnds str = true) (rest : Bytes) :
    strtol (str ++ rest) = strtol str := by
  have hne := dropWhile_ne_nil_of_numberEnds h
  simp only [strtol_eq, unsigned_append hne, dropWhile_append_of_ne_nil hne,
    takeWhile_append_of_any h, ← List.cons_append, List.append_left_inj]

theorem bytes_recvfrom (buffer : InputBuffer) (d : Datagram) :
    (recvfrom buffer d.bytes).bytes = d.bytes ++ buffer.bytes.drop d.bytes.length := by
  simp only [recvfrom, List.take_of_length_le d.le]

/-- Behind a complete number, the contents of the buffer do not matter. -/
theorem replyTo_of_numberEnds {d : Datagram} (h : numberEnds d.bytes = true)
    (buffer : InputBuffer) :
    replyTo buffer d.bytes = .ok (format12d (int32 (atoi d.bytes * atoi d.bytes)) ++ [0]) := by
  have hatoi : atoiBuffer (recvfrom buffer d.bytes) = .ok (atoi d.bytes) := by
    rw [atoiBuffer, bytes_recvfrom, if_pos (numberEnds_append h _), atoi, strtol_append h, atoi]
  rw [replyTo, hatoi, Run.ok_bind]

/-! ## A number that does not end -/

theorem isdigit_ne {b c : UInt8} (hb : isdigit b = true) (hc : isdigit c = false) : b ≠ c := by
  intro h
  rw [h, hc] at hb
  cases hb

/-- Digits are taken for a continuation of the number. -/
theorem unsigned_append_digits (str : Bytes) {digits : Bytes} (hne : digits ≠ [])
    (hdigits : ∀ b ∈ digits, isdigit b = true) :
    unsigned (str ++ digits) = unsigned str ++ digits := by
  by_cases hstr : str.dropWhile isspace = []
  · have hspace : ∀ c ∈ str, isspace c = true := List.dropWhile_eq_nil_iff.mp hstr
    obtain ⟨b, rest, rfl⟩ := List.exists_cons_of_ne_nil hne
    have hb := hdigits b (by simp)
    rw [unsigned, unsigned, hstr, List.dropWhile_append_of_pos hspace]
    simp [isspace_of_isdigit hb, isdigit_ne hb (c := 45) rfl, isdigit_ne hb (c := 43) rfl]
  · rw [unsigned_append hstr]

theorem numberEnds_append_digits {str : Bytes} (h : numberEnds str = false) {digits : Bytes}
    (hdigits : ∀ b ∈ digits, isdigit b = true) : numberEnds (str ++ digits) = false := by
  by_cases hne : digits = []
  · rwa [hne, List.append_nil]
  · rw [numberEnds, unsigned_append_digits str hne hdigits, List.any_append, Bool.or_eq_false_iff]
    refine ⟨h, ?_⟩
    simpa using hdigits

/-- A buffer in which an unfinished number never ends. -/
def allDigits : InputBuffer where
  bytes := List.replicate (SQUAREMAX + 1) 48
  length_eq := List.length_replicate

theorem replyTo_allDigits {d : Datagram} (h : numberEnds d.bytes = false) :
    replyTo allDigits d.bytes = .error .index := by
  have hatoi : atoiBuffer (recvfrom allDigits d.bytes) = .error .index := by
    have hends : numberEnds (recvfrom allDigits d.bytes).bytes = false := by
      rw [bytes_recvfrom, allDigits, List.drop_replicate]
      refine numberEnds_append_digits h ?_
      intro b hb
      rw [List.eq_of_mem_replicate hb]
      rfl
    rw [atoiBuffer, hends, if_neg (by decide)]
  rw [replyTo, hatoi, Run.error_bind]

/-- The replies are the same after all histories exactly for the datagrams in which the number
ends. -/
theorem sameReply_iff (d : Datagram) : SameReply d ↔ numberEnds d.bytes = true := by
  constructor
  · intro hsame
    by_contra hends
    obtain ⟨reply, hreply, -⟩ := hsame allDigits [] [] allDigits allDigits [] [] rfl rfl
    rw [replyTo_allDigits (by simpa using hends)] at hreply
    cases hreply
  · intro hends initial history history' buffer buffer' replies replies' _ _
    exact ⟨_, replyTo_of_numberEnds hends buffer, replyTo_of_numberEnds hends buffer'⟩

def zeros : InputBuffer where
  bytes := List.replicate (SQUAREMAX + 1) 0
  length_eq := List.length_replicate

/-- The text `5`. -/
def five : Datagram where
  bytes := [53]
  pos := by decide
  le := by decide

/-- The reply to `5` is the square of 5, or the square of 57 after a datagram `77`. -/
theorem not_sameReply_five : ∃ buffer,
    serve zeros [[55, 55]] = .ok (buffer, [format12d 5929 ++ [0]]) ∧
    replyTo zeros five.bytes = .ok (format12d 25 ++ [0]) ∧
    replyTo buffer five.bytes = .ok (format12d 3249 ++ [0]) ∧ ¬ SameReply five := by
  have hserve : serve zeros [[55, 55]] =
      .ok (recvfrom zeros [55, 55], [format12d 5929 ++ [0]]) := by
    rfl
  have hfirst : replyTo zeros five.bytes = .ok (format12d 25 ++ [0]) := by
    rfl
  have hsecond : replyTo (recvfrom zeros [55, 55]) five.bytes = .ok (format12d 3249 ++ [0]) := by
    rfl
  refine ⟨recvfrom zeros [55, 55], hserve, hfirst, hsecond, ?_⟩
  intro hsame
  obtain ⟨reply, hreply, hreply'⟩ := hsame zeros [] [[55, 55]] zeros _ [] _ rfl hserve
  rw [hfirst] at hreply
  rw [hsecond] at hreply'
  have heq := Except.ok.inj (hreply.trans hreply'.symm)
  exact absurd heq (by decide)

end SysProg.UdpSquare
