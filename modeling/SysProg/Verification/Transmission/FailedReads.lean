import SysProg.Library.Scripts
import SysProg.Verification.Transmission.Frames

/-! # Reads that fail

A read of the payload returns a part of what it asks for, nothing at the end of the stream, or -1.
In a variable of type `size_t` the -1 is a large number, and the test for `<= 0` does not find
it. -/

namespace SysProg.Transmission

open List

/-- The four bytes that a peer sends as a header. -/
abbrev Header :=
  {bytes : Bytes // bytes.length = 4}

theorem ntohl_lt (header : Header) : ntohl header.1 < 2 ^ 32 := by
  obtain ⟨bytes, hlength⟩ := header
  match bytes, hlength with
  | [a, b, c, d], _ =>
      have ha := a.toNat_lt
      have hb := b.toNat_lt
      have hc := c.toNat_lt
      have hd := d.toNat_lt
      simp only [ntohl, List.foldl_cons, List.foldl_nil]
      omega

/-- A result that a call can have which asks for this number of bytes. -/
def CanGet (asked : Option ℕ) (result : ReadResult) : Prop :=
  ∃ n, asked = some n ∧ result.bytes.length ≤ n

theorem sizeT_count_header (header : Header) : sizeT (ReadResult.received header.1).count = 4 := by
  rw [ReadResult.count, header.2]
  rfl

theorem sizeT_count_received {bytes : Bytes} {restLen : ℕ} (hle : bytes.length ≤ restLen)
    (hlt : restLen < 2 ^ 32) : sizeT (ReadResult.received bytes).count = bytes.length :=
  sizeT_natCast (by omega)

theorem sizeT_count_failed : sizeT (ReadResult.failed).count = 2 ^ 64 - 1 := by
  decide

/-- -1 makes the length that remains greater by one. -/
theorem sizeT_sub_failed {restLen : ℕ} (h : restLen < 2 ^ 32) :
    sizeT (restLen - sizeT (ReadResult.failed).count) = restLen + 1 := by
  rw [sizeT_count_failed]
  simp only [sizeT]
  omega

/-! ## `read_and_store_string` -/

def ReadAndStore.afterHeader (header : Header) : ReadAndStore :=
  ReadAndStore.header.onRead (.received header.1)

theorem store_afterHeader (header : Header) : ReadAndStore.afterHeader header =
    if ntohl header.1 = 0 then .returned 0 (some [some 0]) else .allocate (ntohl header.1) := by
  simp only [ReadAndStore.afterHeader, ReadAndStore.onRead, ReadResult.bytes]
  rw [if_neg (not_not.mpr (sizeT_count_header header))]
  rfl

/-- The rest of the block is what the rest of the payload needs. -/
def ReadAndStore.Sound : ReadAndStore → Prop
  | .header => False
  | .payload ulen buffer ptr restLen => buffer.length = ulen + 1 ∧ 0 ≤ ptr ∧
      ptr + restLen = ulen ∧ ulen < 2 ^ 32
  | .returned _ _ => True
  | .died => True
  | .fault => False

/-- The sum in the argument of `malloc` is 0 for one length only. -/
theorem allocate_fault : ReadAndStore.allocate (2 ^ 32 - 1) = .fault := by
  decide

theorem store_afterHeader_sound {header : Header} (h : ntohl header.1 ≠ 2 ^ 32 - 1) :
    (ReadAndStore.afterHeader header).Sound := by
  have hlt := ntohl_lt header
  have hsize : (ntohl header.1 + 1) % 2 ^ 32 = ntohl header.1 + 1 := Nat.mod_eq_of_lt (by omega)
  rw [store_afterHeader]
  split
  · trivial
  · unfold ReadAndStore.allocate
    simp only [hsize, List.length_replicate, Nat.lt_succ_self, ite_true]
    refine ⟨?_, le_rfl, by omega, hlt⟩
    rw [List.length_set, List.length_replicate]

theorem store_afterHeader_fault {header : Header} (h : ntohl header.1 = 2 ^ 32 - 1) :
    ReadAndStore.afterHeader header = .fault := by
  rw [store_afterHeader, h, allocate_fault]
  rfl

theorem storeBytes_inside (buffer : List (Option UInt8)) {ptr : ℤ} (bytes : Bytes) (hptr : 0 ≤ ptr)
    (hle : ptr + bytes.length ≤ buffer.length) :
    ∃ buffer', storeBytes buffer ptr bytes = some buffer' ∧ buffer'.length = buffer.length := by
  by_cases hne : bytes = []
  · exact ⟨buffer, if_pos hne, rfl⟩
  · refine ⟨_, (if_neg hne).trans (if_pos ⟨hptr, hle⟩), ?_⟩
    simp only [List.length_append, List.length_take, List.length_map, List.length_drop]
    omega

/-- What one read of the payload does when it does not fail. -/
theorem store_onRead_received {ulen : ℕ} {buffer : List (Option UInt8)} {ptr : ℤ} {restLen : ℕ}
    (h : (ReadAndStore.payload ulen buffer ptr restLen).Sound) {bytes : Bytes}
    (hle : bytes.length ≤ restLen) :
    ∃ buffer', buffer'.length = buffer.length ∧
      (ReadAndStore.payload ulen buffer ptr restLen).onRead (.received bytes) =
        if bytes = [] then .died
        else if restLen - bytes.length > 0 then
          .payload ulen buffer' (ptr + bytes.length) (restLen - bytes.length)
        else .returned ulen (some buffer') := by
  obtain ⟨hlength, hptr, hsum, hlt⟩ := h
  obtain ⟨buffer', hstore, hlength'⟩ :=
    storeBytes_inside buffer bytes hptr (by omega)
  have hcount := sizeT_count_received hle (by omega)
  refine ⟨buffer', hlength', ?_⟩
  simp only [ReadAndStore.onRead, ReadResult.bytes, hstore, hcount]
  by_cases hnil : bytes = []
  · simp [hnil]
  · have hpos : bytes.length ≠ 0 := fun hzero => hnil (List.eq_nil_of_length_eq_zero hzero)
    rw [if_neg hpos, if_neg hnil, sizeT_sub hle (by omega)]
    rfl

theorem store_onRead_failed {ulen : ℕ} {buffer : List (Option UInt8)} {ptr : ℤ} {restLen : ℕ}
    (hlt : restLen < 2 ^ 32) :
    (ReadAndStore.payload ulen buffer ptr restLen).onRead .failed =
      .payload ulen buffer (ptr + -1) (restLen + 1) := by
  have hcount : sizeT (ReadResult.failed).count ≠ 0 := by
    rw [sizeT_count_failed]
    decide
  simp only [ReadAndStore.onRead, ReadResult.bytes, storeBytes, if_true, if_neg hcount,
    sizeT_sub_failed hlt]
  rfl

theorem ReadAndStore.Sound.onRead {call : ReadAndStore} (h : call.Sound) {result : ReadResult}
    (hget : CanGet call.asked result) (hne : result ≠ .failed) : (call.onRead result).Sound := by
  obtain ⟨n, hask, hle⟩ := hget
  cases result with
  | failed => exact absurd rfl hne
  | received bytes =>
      cases call with
      | header => exact absurd h not_false
      | payload ulen buffer ptr restLen =>
          cases hask
          obtain ⟨buffer', hlength', hread⟩ :=
            store_onRead_received h (show bytes.length ≤ _ from hle)
          obtain ⟨hlength, hptr, hsum, hlt⟩ := h
          rw [hread]
          split
          · trivial
          · split
            · exact ⟨hlength'.trans hlength, by omega, by omega, hlt⟩
            · trivial
      | returned ulen result => cases hask
      | died => cases hask
      | fault => exact absurd h not_false

/-- Every byte that is stored, as long as no call fails, lies inside the block. -/
def StoresInside (header : Header) : Prop :=
  ∀ script, Script (fun call result => CanGet (ReadAndStore.asked call) result ∧ result.bytes ≠ [])
      ReadAndStore.onRead (.afterHeader header) script →
    script.foldl ReadAndStore.onRead (.afterHeader header) ≠ .fault

/-- Exactly one length is too much for the 32 bits of `ulen + 1`. -/
theorem storesInside_iff (header : Header) : StoresInside header ↔ ntohl header.1 ≠ 2 ^ 32 - 1 := by
  constructor
  · intro h hmax
    exact h [] (.nil _) (store_afterHeader_fault hmax)
  · intro hmax script hscript hfault
    have hsound := hscript.invariant (I := ReadAndStore.Sound) ?_ (store_afterHeader_sound hmax)
    · rw [hfault] at hsound
      exact hsound
    · intro call result hcall ⟨hget, hne⟩
      refine hcall.onRead hget ?_
      rintro rfl
      exact hne rfl

theorem not_storesInside_max : ¬ StoresInside ⟨[255, 255, 255, 255], rfl⟩ := by
  intro h
  exact h [] (.nil _) (store_afterHeader_fault (by decide))

def ReadAndStore.restLen : ReadAndStore → ℕ
  | .payload _ _ _ restLen => restLen
  | _ => 0

/-- The memory that the next read may fill lies inside the block. -/
def ReadAndStore.Inside : ReadAndStore → Prop
  | .payload _ buffer ptr restLen => 0 ≤ ptr ∧ ptr + restLen ≤ buffer.length
  | .fault => False
  | _ => True

/-- What a call of `read` with its result should come to. -/
structure ReadAndStore.Handles (call : ReadAndStore) (result : ReadResult) : Prop where
  inside : (call.onRead result).Inside
  restLen_le : (call.onRead result).restLen ≤ call.restLen
  died : result.bytes = [] → call.onRead result = .died

theorem ReadAndStore.Sound.inside {call : ReadAndStore} (h : call.Sound) : call.Inside := by
  cases call with
  | header => trivial
  | payload ulen buffer ptr restLen =>
      obtain ⟨hlength, hptr, hsum, -⟩ := h
      exact ⟨hptr, by omega⟩
  | returned ulen result => trivial
  | died => trivial
  | fault => exact h

theorem store_handles_iff {call : ReadAndStore} (h : call.Sound) {result : ReadResult}
    (hget : CanGet call.asked result) : call.Handles result ↔ result ≠ .failed := by
  cases call with
  | header => exact absurd h not_false
  | payload ulen buffer ptr restLen =>
      cases result with
      | failed =>
          constructor
          · intro hhandles
            obtain ⟨-, hptr, hsum, hlt⟩ := h
            have hle := hhandles.restLen_le
            rw [store_onRead_failed (by omega)] at hle
            exact absurd hle (Nat.not_succ_le_self restLen)
          · exact fun hne => absurd rfl hne
      | received bytes =>
          have hinside := (h.onRead hget (by simp)).inside
          obtain ⟨n, hask, hle⟩ := hget
          cases hask
          obtain ⟨buffer', -, hread⟩ :=
            store_onRead_received h (show bytes.length ≤ _ from hle)
          refine iff_of_true ⟨hinside, ?_, ?_⟩ (by simp)
          · rw [hread]
            split
            · exact Nat.zero_le _
            · split
              · exact Nat.sub_le _ _
              · exact Nat.zero_le _
          · intro hnil
            rw [hread]
            exact if_pos hnil
  | returned ulen result =>
      obtain ⟨n, hask, -⟩ := hget
      cases hask
  | died =>
      obtain ⟨n, hask, -⟩ := hget
      cases hask
  | fault => exact absurd h not_false

/-! ## `read_string_fragmentable` -/

def ReadFragmentable.afterHeader (header : Header) : ReadFragmentable :=
  ReadFragmentable.header.onRead (.received header.1)

/-- The calls of `consume` so far. -/
def ReadFragmentable.calls : ReadFragmentable → List Consumed
  | .payload _ _ calls => calls
  | .returned _ calls => calls
  | _ => []

def ReadFragmentable.restLen : ReadFragmentable → ℕ
  | .payload _ restLen _ => restLen
  | _ => 0

/-- What a call of `read` with its result should come to. -/
structure ReadFragmentable.Handles (bufferSize : ℕ) (call : ReadFragmentable)
    (result : ReadResult) : Prop where
  inside : ∀ n, call.asked bufferSize = some n → n ≤ bufferSize
  consumed : call.onRead result = .died ∨ ∃ new, (call.onRead result).calls = call.calls ++ new ∧
    ∀ consumed ∈ new, consumed.len = result.bytes.length
  restLen_le : (call.onRead result).restLen ≤ call.restLen
  died : result.bytes = [] → call.onRead result = .died

def ReadFragmentable.Sound : ReadFragmentable → Prop
  | .header => False
  | .payload _ restLen _ => restLen < 2 ^ 32
  | .returned _ _ => True
  | .died => True

theorem fragment_afterHeader_sound (header : Header) :
    (ReadFragmentable.afterHeader header).Sound := by
  have hlt := ntohl_lt header
  simp only [ReadFragmentable.afterHeader, ReadFragmentable.onRead, ReadResult.bytes]
  rw [if_neg (not_not.mpr (sizeT_count_header header))]
  by_cases hzero : ntohl header.1 = 0
  · simp only [hzero, if_true]
    trivial
  · simp only [hzero, if_false]
    exact hlt

theorem fragment_onRead_received (ulen : ℕ) {restLen : ℕ} (calls : List Consumed)
    (hlt : restLen < 2 ^ 32) {bytes : Bytes} (hle : bytes.length ≤ restLen) :
    (ReadFragmentable.payload ulen restLen calls).onRead (.received bytes) =
      if bytes = [] then .died
      else if restLen - bytes.length > 0 then
        .payload ulen (restLen - bytes.length) (calls ++ [⟨bytes.length, bytes⟩])
      else .returned ulen (calls ++ [⟨bytes.length, bytes⟩]) := by
  have hcount := sizeT_count_received hle (by omega)
  simp only [ReadFragmentable.onRead, ReadResult.bytes, hcount]
  by_cases hnil : bytes = []
  · simp [hnil]
  · have hpos : bytes.length ≠ 0 := fun hzero => hnil (List.eq_nil_of_length_eq_zero hzero)
    rw [if_neg hpos, if_neg hnil, sizeT_sub hle (by omega)]

theorem fragment_onRead_failed {ulen restLen : ℕ} {calls : List Consumed} (hlt : restLen < 2 ^ 32) :
    (ReadFragmentable.payload ulen restLen calls).onRead .failed =
      .payload ulen (restLen + 1) (calls ++ [⟨2 ^ 64 - 1, []⟩]) := by
  have hrest := sizeT_sub_failed hlt
  rw [sizeT_count_failed] at hrest
  simp only [ReadFragmentable.onRead, ReadResult.bytes, sizeT_count_failed, hrest]
  rfl

theorem CanGet.length_le {bufferSize ulen restLen : ℕ} {calls : List Consumed} {bytes : Bytes}
    (h : CanGet (ReadFragmentable.asked bufferSize (.payload ulen restLen calls))
      (.received bytes)) :
    bytes.length ≤ restLen := by
  obtain ⟨n, hask, hle⟩ := h
  have hn : (if restLen > bufferSize then bufferSize else restLen) = n := Option.some.inj hask
  have hle' : bytes.length ≤ n := hle
  split at hn <;> omega

theorem ReadFragmentable.Sound.onRead {bufferSize : ℕ} {call : ReadFragmentable} (h : call.Sound)
    {result : ReadResult} (hget : CanGet (call.asked bufferSize) result) (hne : result ≠ .failed) :
    (call.onRead result).Sound := by
  cases result with
  | failed => exact absurd rfl hne
  | received bytes =>
      cases call with
      | header => exact absurd h not_false
      | payload ulen restLen calls =>
          have hlt : restLen < 2 ^ 32 := h
          rw [fragment_onRead_received ulen calls hlt hget.length_le]
          split
          · trivial
          · split
            · exact (Nat.sub_le _ _).trans_lt hlt
            · trivial
      | returned ulen calls => trivial
      | died => trivial

theorem fragment_asked_le (bufferSize : ℕ) {call : ReadFragmentable} (h : call.Sound) (n : ℕ)
    (hask : call.asked bufferSize = some n) : n ≤ bufferSize := by
  cases call with
  | header => exact absurd h not_false
  | payload ulen restLen calls =>
      have hn : (if restLen > bufferSize then bufferSize else restLen) = n := Option.some.inj hask
      split at hn <;> omega
  | returned ulen calls => cases hask
  | died => cases hask

theorem fragment_handles_iff {bufferSize : ℕ} {call : ReadFragmentable} (h : call.Sound)
    {result : ReadResult} (hget : CanGet (call.asked bufferSize) result) :
    call.Handles bufferSize result ↔ result ≠ .failed := by
  cases call with
  | header => exact absurd h not_false
  | payload ulen restLen calls =>
      have hlt : restLen < 2 ^ 32 := h
      cases result with
      | failed =>
          constructor
          · intro hhandles
            have hle := hhandles.restLen_le
            rw [fragment_onRead_failed hlt] at hle
            exact absurd hle (Nat.not_succ_le_self restLen)
          · exact fun hne => absurd rfl hne
      | received bytes =>
          have hread := fragment_onRead_received ulen calls hlt hget.length_le
          refine iff_of_true ⟨fragment_asked_le bufferSize h, ?_, ?_, ?_⟩ (by simp)
          · rw [hread]
            split
            · exact .inl rfl
            · refine .inr ⟨[⟨bytes.length, bytes⟩], ?_, by simp [ReadResult.bytes]⟩
              split <;> rfl
          · rw [hread]
            split
            · exact Nat.zero_le _
            · split
              · exact Nat.sub_le _ _
              · exact Nat.zero_le _
          · intro hnil
            rw [hread]
            exact if_pos hnil
  | returned ulen calls =>
      obtain ⟨n, hask, -⟩ := hget
      cases hask
  | died =>
      obtain ⟨n, hask, -⟩ := hget
      cases hask

/-! ## Both readers -/

/-- Both functions get along with every script of results in which no call fails, one of them if
it can allocate the block, and with no other script. -/
theorem payload_handled_iff (header : Header) (bufferSize : ℕ) {fragments stored : List ReadResult}
    (hfragments : Script (fun call result => CanGet (call.asked bufferSize) result)
      ReadFragmentable.onRead (.afterHeader header) fragments)
    (hstored : Script (fun call result => CanGet (ReadAndStore.asked call) result)
      ReadAndStore.onRead (.afterHeader header) stored) :
    (EachCall (ReadFragmentable.Handles bufferSize) ReadFragmentable.onRead (.afterHeader header)
        fragments ↔ .failed ∉ fragments) ∧
      ((ReadAndStore.afterHeader header).Inside ∧
          EachCall ReadAndStore.Handles ReadAndStore.onRead (.afterHeader header) stored ↔
        ntohl header.1 ≠ 2 ^ 32 - 1 ∧ .failed ∉ stored) := by
  constructor
  · have heach : EachCall (ReadFragmentable.Handles bufferSize) ReadFragmentable.onRead
        (.afterHeader header) fragments ↔ ∀ result ∈ fragments, result ≠ .failed :=
      hfragments.eachCall_iff (fun _ _ hcall hget => fragment_handles_iff hcall hget)
        (fun _ _ hcall hget => hcall.onRead hget) (fragment_afterHeader_sound header)
    exact heach.trans List.forall_mem_ne'
  · by_cases hmax : ntohl header.1 = 2 ^ 32 - 1
    · refine iff_of_false ?_ (fun h => h.1 hmax)
      rintro ⟨hinside, -⟩
      rw [store_afterHeader_fault hmax] at hinside
      exact hinside
    · have hsound := store_afterHeader_sound hmax
      have heach : EachCall ReadAndStore.Handles ReadAndStore.onRead (.afterHeader header)
          stored ↔ ∀ result ∈ stored, result ≠ .failed :=
        hstored.eachCall_iff (fun _ _ hcall hget => store_handles_iff hcall hget)
          (fun _ _ hcall hget => hcall.onRead hget) hsound
      exact and_congr (iff_of_true hsound.inside hmax) (heach.trans List.forall_mem_ne')

theorem payload_handled_two :
    EachCall (ReadFragmentable.Handles 1) ReadFragmentable.onRead
        (.afterHeader ⟨[0, 0, 0, 2], rfl⟩) [.received [72], .received [105]] ∧
      EachCall ReadAndStore.Handles ReadAndStore.onRead (.afterHeader ⟨[0, 0, 0, 2], rfl⟩)
        [.received [72, 105]] := by
  have hfragments : Script (fun call result => CanGet (ReadFragmentable.asked 1 call) result)
      ReadFragmentable.onRead (.afterHeader ⟨[0, 0, 0, 2], rfl⟩)
      [.received [72], .received [105]] :=
    .cons ⟨1, by decide, by decide⟩ (.cons ⟨1, by decide, by decide⟩ (.nil _))
  have hstored : Script (fun call result => CanGet (ReadAndStore.asked call) result)
      ReadAndStore.onRead (.afterHeader ⟨[0, 0, 0, 2], rfl⟩) [.received [72, 105]] :=
    .cons ⟨2, by decide, by decide⟩ (.nil _)
  have h := payload_handled_iff ⟨[0, 0, 0, 2], rfl⟩ 1 hfragments hstored
  exact ⟨h.1.mpr (by simp), (h.2.mpr ⟨by decide, by simp⟩).2⟩

/-- A message of two bytes of which the first read fails: `consume` is called, and one byte more
is to be read. -/
theorem not_payload_handled_failed :
    Script (fun call result => CanGet (call.asked 4) result) ReadFragmentable.onRead
        (.afterHeader ⟨[0, 0, 0, 2], rfl⟩) [.failed] ∧
      (ReadFragmentable.afterHeader ⟨[0, 0, 0, 2], rfl⟩).onRead .failed =
        .payload 2 3 [⟨2 ^ 64 - 1, []⟩] ∧
      ¬ EachCall (ReadFragmentable.Handles 4) ReadFragmentable.onRead
        (.afterHeader ⟨[0, 0, 0, 2], rfl⟩) [.failed] ∧
      Script (fun call result => CanGet (ReadAndStore.asked call) result) ReadAndStore.onRead
        (.afterHeader ⟨[0, 0, 0, 2], rfl⟩) [.failed] ∧
      ¬ EachCall ReadAndStore.Handles ReadAndStore.onRead (.afterHeader ⟨[0, 0, 0, 2], rfl⟩)
        [.failed] := by
  refine ⟨.cons ⟨2, by decide, by decide⟩ (.nil _), by decide, ?_,
    .cons ⟨2, by decide, by decide⟩ (.nil _), ?_⟩
  · intro h
    cases h with
    | cons hhandles _ => exact absurd hhandles.restLen_le (by decide)
  · intro h
    cases h with
    | cons hhandles _ => exact absurd hhandles.restLen_le (by decide)

end SysProg.Transmission
