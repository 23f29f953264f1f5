import SysProg.Verification.Transfer.Laws

/-! # From `writen` to `readn`

A call that is interrupted leaves the state as it was, so only the transfers count. -/

namespace SysProg.Transfer

open Transmission ByteStream

/-! ## The writer -/

/-- What a call of `writen` has still to write. -/
def Writen.Rest (buf : Bytes) (totalSize : ℕ) : Writen → Bytes → Prop
  | .loop bufPtr restSize writtenSize, rest => bufPtr < totalSize ∧
      restSize = totalSize - bufPtr ∧ bufPtr = writtenSize ∧ rest = (buf.drop bufPtr).take restSize
  | .returned size, rest => rest = [] ∧ size = totalSize

theorem Writen.rest_test {buf : Bytes} {totalSize done : ℕ} (hlt : totalSize < 2 ^ 63)
    (hdone : done ≤ totalSize) :
    (Writen.test done (totalSize - done) done).Rest buf totalSize
      ((buf.drop done).take (totalSize - done)) := by
  rw [Writen.test]
  by_cases hend : done = totalSize
  · rw [if_neg (by omega), ssizeT_natCast (by omega)]
    exact ⟨by simp [hend], by exact_mod_cast hend⟩
  · rw [if_pos (by omega)]
    exact ⟨by omega, rfl, rfl, rfl⟩

theorem writer_offers {buf : Bytes} {totalSize : ℕ} (htotal : totalSize ≤ buf.length)
    (hlt : totalSize < 2 ^ 63) : (writer buf).Offers (Writen.Rest buf totalSize) where
  offered := by
    intro w rest hw hne
    cases w with
    | loop bufPtr restSize writtenSize =>
        obtain ⟨hptr, rfl, rfl, rfl⟩ := hw
        have hoffered : (writer buf).offered (.loop bufPtr (totalSize - bufPtr) bufPtr) = _ :=
          Writen.offered_loop bufPtr (by omega)
        exact ⟨_, hoffered, hne, List.prefix_rfl⟩
    | returned size => exact absurd hw.1 hne
  finished := by
    intro w hw
    cases w with
    | loop bufPtr restSize writtenSize =>
        obtain ⟨hptr, rfl, rfl, hnil⟩ := hw
        have hlength := congrArg List.length hnil
        simp only [List.length_nil, List.length_take, List.length_drop] at hlength
        omega
    | returned size => rfl
  step := by
    intro w k bs rest hw hoffer hpos hle hwhole
    cases w with
    | loop bufPtr restSize writtenSize =>
        obtain ⟨hptr, rfl, rfl, hrest⟩ := hw
        have hoffered : (writer buf).offered (.loop bufPtr (totalSize - bufPtr) bufPtr) = _ :=
          Writen.offered_loop bufPtr (by omega)
        rw [hoffered] at hoffer
        cases hoffer
        have hk : k ≤ totalSize - bufPtr := by
          rw [List.length_take] at hle
          omega
        have hwrite : (writer buf).onWrite (.loop bufPtr (totalSize - bufPtr) bufPtr) k =
            .test (bufPtr + k) (totalSize - (bufPtr + k)) (bufPtr + k) := by
          have hk' : transferred id (.ok k) ≤ totalSize - bufPtr := hk
          have hloop : (Writen.loop bufPtr (totalSize - bufPtr) bufPtr).onWrite (.ok k) = _ :=
            Writen.onWrite_loop (by omega) hk'
          simpa [writer, transferred, hpos.ne', Nat.sub_sub] using hloop
        rw [hwrite, hrest, List.drop_take, List.drop_drop, Nat.sub_sub]
        exact Writen.rest_test hlt (by omega)
    | returned size => cases hoffer

theorem Writen.Rest.interrupted {buf rest : Bytes} {totalSize : ℕ} {w : Writen}
    (h : w.Rest buf totalSize rest) : w.onWrite (.error EINTR) = w := by
  cases w with
  | loop bufPtr restSize writtenSize =>
      obtain ⟨hptr, rfl, rfl, -⟩ := h
      simp only [Writen.onWrite, if_true, Writen.test]
      rw [if_pos (by omega)]
  | returned size => rfl

/-! ## The reader -/

/-- What a call of `readn` is to read of a message with `totalSize` bytes. -/
def Readn.Expects (target : List (Option UInt8)) (msg : Bytes) : Readn → Bytes → Prop
  | .loop buf bufPtr restSize readSize, rest => ∃ got, msg = got ++ rest ∧ rest ≠ [] ∧
      buf = filled target got ∧ bufPtr = got.length ∧ restSize = msg.length - got.length ∧
      readSize = got.length
  | .returned buf size, rest => rest = [] ∧ buf = filled target msg ∧ size = msg.length
  | .fault, _ => False

theorem Readn.expects_test (target : List (Option UInt8)) (got rest : Bytes)
    (hlt : (got ++ rest).length < 2 ^ 63) :
    (Readn.test (filled target got) got.length ((got ++ rest).length - got.length)
      got.length).Expects target (got ++ rest) rest := by
  rw [Readn.test]
  by_cases hnil : rest = []
  · subst hnil
    rw [List.append_nil] at hlt ⊢
    rw [if_neg (by omega), ssizeT_natCast hlt]
    exact ⟨rfl, rfl, rfl⟩
  · have hpos := List.length_pos_iff.mpr hnil
    rw [if_pos (by rw [List.length_append]; omega)]
    exact ⟨got, rfl, hnil, rfl, rfl, rfl, rfl⟩

theorem reader_expects {target : List (Option UInt8)} {msg : Bytes}
    (hle : msg.length ≤ target.length) (hlt : msg.length < 2 ^ 63) :
    reader.Expects (Readn.Expects target msg) where
  asked := by
    intro r rest hr hne
    cases r with
    | loop buf bufPtr restSize readSize =>
        obtain ⟨got, rfl, -, -, -, rfl, -⟩ := hr
        have hpos := List.length_pos_iff.mpr hne
        refine ⟨_, rfl, ?_, ?_⟩ <;> rw [List.length_append] <;> omega
    | returned buf size => exact absurd hr.1 hne
    | fault => exact absurd hr not_false
  step := by
    intro r n bs rest hr hask hne hbs hwhole
    cases r with
    | loop buf bufPtr restSize readSize =>
        obtain ⟨got, rfl, -, rfl, rfl, rfl, rfl⟩ := hr
        have hlength : bs.length ≠ 0 := (List.length_pos_iff.mpr hne).ne'
        have hfit : (received (.ok bs)).length ≤ (got ++ (bs ++ rest)).length - got.length := by
          simp only [received, List.length_append]
          omega
        have hread : reader.onRead _ bs = _ :=
          Readn.onRead_loop hle hlt (by simp) hfit
        rw [hread, if_neg (not_fails_ok bs), if_neg (ends_ok.not.mpr hlength)]
        have hsplit : got ++ (bs ++ rest) = (got ++ bs) ++ rest := (List.append_assoc _ _ _).symm
        simp only [received]
        rw [hsplit] at hlt ⊢
        exact Readn.expects_test target _ _ hlt
    | returned buf size => cases hask
    | fault => exact absurd hr not_false

theorem Readn.Expects.interrupted {target : List (Option UInt8)} {msg rest : Bytes} {r : Readn}
    (h : r.Expects target msg rest) : r.onRead (.error EINTR) = r := by
  cases r with
  | loop buf bufPtr restSize readSize =>
      obtain ⟨got, rfl, hne, rfl, rfl, rfl, rfl⟩ := h
      have hpos := List.length_pos_iff.mpr hne
      simp only [Readn.onRead, if_true, Readn.test]
      rw [if_pos (by rw [List.length_append]; omega)]
  | returned buf size => rfl
  | fault => rfl

/-! ## Both ends -/

/-- Whatever has been interrupted, the reader is to read what the writer was to write. -/
theorem FifoStep.connected {capacity totalSize : ℕ} {buf msg : Bytes} {target : List (Option UInt8)}
    {s t : Channel Writen Readn UInt8} {pending : Bytes}
    (hN : (writer buf).Offers (Writen.Rest buf totalSize))
    (hM : reader.Expects (Readn.Expects target msg))
    (h : Connected (Writen.Rest buf totalSize) (Readn.Expects target msg) pending s)
    (hstep : FifoStep capacity buf s t) :
    ∃ pending', Connected (Writen.Rest buf totalSize) (Readn.Expects target msg) pending' t := by
  cases hstep with
  | transfers htransfer =>
      obtain ⟨pending', h', -⟩ := h.step hN hM htransfer
      exact ⟨pending', h'⟩
  | @writeInterrupted w items r hoffer =>
      have hw : w.onWrite (.error EINTR) = w := h.offers.interrupted
      rw [hw]
      exact ⟨pending, h⟩
  | @readInterrupted w items r hask =>
      have hr : r.onRead (.error EINTR) = r := h.expects.interrupted
      rw [hr]
      exact ⟨pending, h⟩

/-- Both calls have returned, and the bytes are where they belong. -/
structure Delivered (msg : Bytes) (target : List (Option UInt8)) (s : Channel Writen Readn UInt8) :
    Prop where
  writer : s.writer = .returned msg.length
  items : s.items = []
  reader : s.reader = .returned (filled target msg) msg.length

theorem delivered_of_connected {buf msg : Bytes} {target : List (Option UInt8)} {totalSize : ℕ}
    {s : Channel Writen Readn UInt8} (hlength : msg.length = totalSize)
    (htotal : totalSize ≤ buf.length)
    (h : Connected (Writen.Rest buf totalSize) (Readn.Expects target msg) [] s)
    (hitems : s.items = []) : Delivered msg target s := by
  obtain ⟨w, items, r⟩ := s
  obtain ⟨hoffers, hexpects⟩ := h
  cases hitems
  refine ⟨?_, rfl, ?_⟩
  · cases w with
    | loop bufPtr restSize writtenSize =>
        obtain ⟨hptr, rfl, -, hnil⟩ := hoffers
        have hzero := congrArg List.length hnil
        simp only [List.length_nil, List.length_take, List.length_drop] at hzero
        omega
    | returned size =>
        obtain ⟨-, rfl⟩ := hoffers
        rw [hlength]
  · cases r with
    | loop buf bufPtr restSize readSize =>
        obtain ⟨got, -, hne, -⟩ := hexpects
        exact absurd rfl hne
    | returned buf size =>
        obtain ⟨-, rfl, rfl⟩ := hexpects
        rfl
    | fault => exact absurd hexpects not_false

theorem Readn.Expects.of_result {target : List (Option UInt8)} {msg rest : Bytes} {r : Readn}
    (h : r.Expects target msg rest) (hresult : r.result ≠ none) :
    r = .returned (filled target msg) msg.length := by
  cases r with
  | loop buf bufPtr restSize readSize => exact absurd rfl hresult
  | returned buf size =>
      obtain ⟨-, rfl, rfl⟩ := h
      rfl
  | fault => exact absurd h not_false

theorem writen_start {fd : ℤ} (hfd : 0 ≤ fd) (totalSize : ℕ) :
    writen fd totalSize = .test 0 (totalSize - 0) 0 :=
  if_neg (not_lt.mpr hfd)

theorem readn_start {fd : ℤ} (hfd : 0 ≤ fd) (target : List (Option UInt8)) (totalSize : ℕ) :
    readn fd target totalSize = .test (filled target []) ([] : Bytes).length
      (totalSize - ([] : Bytes).length) ([] : Bytes).length :=
  if_neg (not_lt.mpr hfd)

/-- Whatever the calls return, `writen` hands over the front of its buffer and `readn` stores what
it has received, and both return what the script comes to; from one to the other everything
arrives. -/
theorem transfer_correct {fd fd' : ℤ} (hfd : 0 ≤ fd) (hfd' : 0 ≤ fd') (buf : CArray UInt8)
    (target : CArray (Option UInt8)) {totalSize : ℕ} (hbuf : totalSize ≤ buf.elems.length)
    (htarget : totalSize ≤ target.elems.length) :
    (∀ script, Script (Writen.CanGet buf.elems) (Writen.handOver buf.elems)
        (writen fd totalSize, []) script →
      (script.foldl (Writen.handOver buf.elems) (writen fd totalSize, [])).2 =
          buf.elems.take (total id script) ∧
        (script.foldl (Writen.handOver buf.elems) (writen fd totalSize, [])).1.result =
          returns id totalSize 0 script) ∧
      (∀ script, Script Readn.CanGet Readn.onRead (readn fd' target.elems totalSize) script →
        (script.foldl Readn.onRead (readn fd' target.elems totalSize)).buffer =
            filled target.elems (script.flatMap received) ∧
          (script.foldl Readn.onRead (readn fd' target.elems totalSize)).result =
            returns List.length totalSize 0 script) ∧
      ∀ capacity, 0 < capacity → ∀ s, Reaches (FifoStep capacity buf.elems)
          ⟨writen fd totalSize, [], readn fd' target.elems totalSize⟩ s →
        Leads (ChannelStep capacity (writer buf.elems) reader)
            (Delivered (buf.elems.take totalSize) target.elems) s ∧
          (s.reader.result ≠ none →
            s.reader = .returned (filled target.elems (buf.elems.take totalSize)) totalSize) := by
  have hlt : totalSize < 2 ^ 63 := hbuf.trans_lt buf.length_lt
  rw [writen_start hfd, readn_start hfd']
  refine ⟨?_, ?_, ?_⟩
  · intro script hscript
    have hlaw := Writen.law_test hbuf hlt (Nat.zero_le totalSize) hscript
    exact ⟨by simpa using hlaw.stream, hlaw.result⟩
  · intro script hscript
    have hlaw := Readn.law_test htarget hlt [] (Nat.zero_le totalSize) hscript
    exact ⟨by simpa using hlaw.buffer, hlaw.result⟩
  · intro capacity hcapacity s hreach
    have hlength : (buf.elems.take totalSize).length = totalSize := List.length_take_of_le hbuf
    have hN := writer_offers hbuf hlt
    have hM : reader.Expects (Readn.Expects target.elems (buf.elems.take totalSize)) :=
      reader_expects (by omega) (by omega)
    have hexpects : (Readn.test (filled target.elems []) ([] : Bytes).length
        (totalSize - ([] : Bytes).length) ([] : Bytes).length).Expects target.elems
          (buf.elems.take totalSize) (buf.elems.take totalSize) := by
      have h := Readn.expects_test target.elems [] (buf.elems.take totalSize)
        (by rwa [List.nil_append, hlength])
      rwa [List.nil_append, hlength] at h
    have hstart : Connected (Writen.Rest buf.elems totalSize)
        (Readn.Expects target.elems (buf.elems.take totalSize)) (buf.elems.take totalSize)
        ⟨.test 0 (totalSize - 0) 0, [], .test (filled target.elems []) ([] : Bytes).length
          (totalSize - ([] : Bytes).length) ([] : Bytes).length⟩ :=
      ⟨Writen.rest_test hlt (Nat.zero_le totalSize), hexpects⟩
    obtain ⟨pending, hconnected⟩ := hreach.invariant
      (I := fun s => ∃ pending, Connected _ _ pending s)
      (fun s t ⟨_, h⟩ hstep => hstep.connected hN hM h) ⟨_, hstart⟩
    constructor
    · refine (hconnected.leads hN hM (fun _ => not_false) (fun _ => not_false) hcapacity).mono ?_
      intro t ⟨h, hitems⟩
      exact delivered_of_connected hlength hbuf h hitems
    · intro hresult
      have hreturned := hconnected.expects.of_result hresult
      rwa [hlength] at hreturned

theorem transfer_correct_two :
    ([.ok 1, .error EINTR, .ok 1].foldl (Writen.handOver [104, 105]) (writen 3 2, [])).2 =
        [104, 105] ∧
      Leads (ChannelStep 1 (writer [104, 105]) reader) (Delivered [104, 105] [none, none])
        ⟨writen 3 2, [], readn 4 [none, none] 2⟩ := by
  have h := transfer_correct (show (0 : ℤ) ≤ 3 by decide) (show (0 : ℤ) ≤ 4 by decide)
    ⟨[104, 105], by decide⟩ ⟨[none, none], by decide⟩ (show 2 ≤ 2 from le_rfl) le_rfl
  have hscript : Script (Writen.CanGet [104, 105]) (Writen.handOver [104, 105]) (writen 3 2, [])
      [.ok 1, .error EINTR, .ok 1] :=
    .cons ⟨[104, 105], by decide, by decide⟩ (.cons ⟨[105], by decide, by decide⟩
      (.cons ⟨[105], by decide, by decide⟩ (.nil _)))
  exact ⟨(h.1 _ hscript).1, (h.2.2 1 Nat.one_pos _ .refl).1⟩

end SysProg.Transfer
