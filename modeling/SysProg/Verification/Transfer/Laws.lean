import SysProg.Library.Scripts
import SysProg.Model.Transfer
import SysProg.Verification.Transmission.Frames

/-! # What `readn` and `writen` transfer and return

Both functions keep count of the bytes that have been transferred, whatever the calls return. -/

namespace SysProg.Transfer

open List Transmission

/-! ## The result of a script -/

variable {α : Type} {size : α → ℕ}

/-- The number of bytes that a call has transferred. -/
def transferred (size : α → ℕ) : Outcome α → ℕ
  | .ok x => size x
  | .error _ => 0

def Fails : Outcome α → Prop
  | .ok _ => False
  | .error errno => errno ≠ EINTR

/-- Nothing is transferred and no error is reported: the end of the stream. -/
def Ends (size : α → ℕ) : Outcome α → Prop
  | .ok x => size x = 0
  | .error _ => False

instance : DecidablePred (Fails (α := α))
  | .ok _ => inferInstanceAs (Decidable False)
  | .error errno => inferInstanceAs (Decidable (errno ≠ EINTR))

instance : DecidablePred (Ends size)
  | .ok x => inferInstanceAs (Decidable (size x = 0))
  | .error _ => inferInstanceAs (Decidable False)

@[simp] theorem not_fails_ok (x : α) : ¬ Fails (.ok x) :=
  not_false

@[simp] theorem fails_error {errno : ℤ} : Fails (.error errno : Outcome α) ↔ errno ≠ EINTR :=
  Iff.rfl

@[simp] theorem ends_ok {x : α} : Ends size (.ok x) ↔ size x = 0 :=
  Iff.rfl

@[simp] theorem not_ends_error (errno : ℤ) : ¬ Ends size (.error errno) :=
  not_false

/-- The number of bytes that the calls of a script have transferred. -/
def total (size : α → ℕ) (script : List (Outcome α)) : ℕ :=
  (script.map (transferred size)).sum

/-- What a function returns that has transferred `done` bytes before the script: -1 for an error,
the number of all bytes at the end of the stream or when there are enough of them, and nothing
as long as it goes on. -/
def returns (size : α → ℕ) (totalSize done : ℕ) (script : List (Outcome α)) : Option ℤ :=
  if ∃ outcome ∈ script, Fails outcome then some (-1)
  else if (∃ outcome ∈ script, Ends size outcome) ∨ done + total size script = totalSize then
    some (done + total size script : ℕ)
  else none

@[simp] theorem total_nil : total size [] = 0 :=
  rfl

@[simp] theorem total_cons (outcome : Outcome α) (script : List (Outcome α)) :
    total size (outcome :: script) = transferred size outcome + total size script :=
  rfl

theorem returns_nil {totalSize done : ℕ} : returns size totalSize done [] =
    if done = totalSize then some (done : ℤ) else none := by
  simp [returns]

/-- A call that is interrupted or transfers something is followed by the other ones. -/
theorem returns_cons {totalSize done : ℕ} {outcome : Outcome α} (hfails : ¬ Fails outcome)
    (hends : ¬ Ends size outcome) (script : List (Outcome α)) :
    returns size totalSize done (outcome :: script) =
      returns size totalSize (done + transferred size outcome) script := by
  simp [returns, hfails, hends, Nat.add_assoc]

theorem returns_fails {totalSize done : ℕ} {outcome : Outcome α} (h : Fails outcome) :
    returns size totalSize done [outcome] = some (-1) := by
  simp [returns, h]

theorem Ends.not_fails {outcome : Outcome α} (h : Ends size outcome) : ¬ Fails outcome := by
  cases outcome with
  | ok x => exact not_false
  | error errno => exact absurd h not_false

theorem Ends.transferred_eq {outcome : Outcome α} (h : Ends size outcome) :
    transferred size outcome = 0 := by
  cases outcome with
  | ok x => exact h
  | error errno => rfl

theorem Fails.transferred_eq {outcome : Outcome α} (h : Fails outcome) :
    transferred size outcome = 0 := by
  cases outcome with
  | ok x => exact absurd h not_false
  | error errno => rfl

theorem returns_ends {totalSize done : ℕ} {outcome : Outcome α} (h : Ends size outcome) :
    returns size totalSize done [outcome] = some (done : ℤ) := by
  simp [returns, h, h.not_fails, h.transferred_eq]

theorem ssizeT_natCast {n : ℕ} (h : n < 2 ^ 63) : ssizeT n = n := by
  apply Int.bmod_eq_of_le <;> omega

/-! ## `writen` -/

/-- The state of a call of `writen` and the bytes that have been handed over. -/
def Writen.handOver (buf : Bytes) (s : Writen × Bytes) (outcome : Outcome ℕ) : Writen × Bytes :=
  (s.1.onWrite outcome, s.2 ++ ((s.1.offered buf).getD []).take (transferred id outcome))

/-- A write accepts a part of what it is offered, or it fails. -/
def Writen.CanGet (buf : Bytes) (s : Writen × Bytes) (outcome : Outcome ℕ) : Prop :=
  ∃ bytes, s.1.offered buf = some bytes ∧ transferred id outcome ≤ bytes.length

theorem Writen.offered_loop {buf : Bytes} {bufPtr restSize : ℕ} (writtenSize : ℕ)
    (h : bufPtr + restSize ≤ buf.length) :
    Writen.offered buf (.loop bufPtr restSize writtenSize) =
      some ((buf.drop bufPtr).take restSize) :=
  if_pos h

/-- One turn of the loop. -/
theorem Writen.onWrite_loop {bufPtr restSize writtenSize : ℕ}
    (hlt : writtenSize + restSize < 2 ^ 63) {outcome : Outcome ℕ} (hle : transferred id outcome ≤ restSize) :
    (Writen.loop bufPtr restSize writtenSize).onWrite outcome =
      if Fails outcome then .returned (-1)
      else if Ends id outcome then .returned writtenSize
      else .test (bufPtr + transferred id outcome) (restSize - transferred id outcome)
        (writtenSize + transferred id outcome) := by
  cases outcome with
  | error errno =>
      by_cases hintr : errno = EINTR <;> simp [Writen.onWrite, transferred, hintr]
  | ok n =>
      have hn : n ≤ restSize := hle
      have hrest : sizeT ((restSize : ℤ) - (n : ℤ)) = restSize - n := sizeT_sub hn (by omega)
      have hwritten : sizeT ((writtenSize : ℤ) + (n : ℤ)) = writtenSize + n :=
        sizeT_natCast (n := writtenSize + n) (by omega)
      have hsize : ssizeT writtenSize = writtenSize := ssizeT_natCast (by omega)
      simp [Writen.onWrite, transferred, hrest, hwritten, hsize]

theorem Writen.handOver_loop {buf : Bytes} {totalSize done : ℕ} (htotal : totalSize ≤ buf.length)
    (hlt : totalSize < 2 ^ 63) (hdone : done ≤ totalSize) {outcome : Outcome ℕ}
    (hle : transferred id outcome ≤ totalSize - done) (stream : Bytes) :
    Writen.handOver buf (.loop done (totalSize - done) done, stream) outcome =
      (if Fails outcome then .returned (-1)
        else if Ends id outcome then .returned done
        else .test (done + transferred id outcome) (totalSize - (done + transferred id outcome))
          (done + transferred id outcome),
        stream ++ (buf.drop done).take (transferred id outcome)) := by
  have hfit : done + (totalSize - done) ≤ buf.length := by omega
  have hsum : done + (totalSize - done) < 2 ^ 63 := by omega
  simp only [Writen.handOver, Writen.onWrite_loop hsum hle, Writen.offered_loop _ hfit,
    Option.getD_some, List.take_take, Nat.min_eq_left hle, Nat.sub_sub]

/-- No call follows after the function has returned. -/
theorem Writen.script_returned {buf stream : Bytes} {result : ℤ} {script : List (Outcome ℕ)}
    (h : Script (Writen.CanGet buf) (Writen.handOver buf) (.returned result, stream) script) :
    script = [] := by
  cases h with
  | nil => rfl
  | cons hget _ =>
      obtain ⟨bytes, hoffered, -⟩ := hget
      cases hoffered

/-- What is handed over from a position of the buffer on, and the result. -/
structure Writen.Law (buf : Bytes) (totalSize done : ℕ) (stream : Bytes) (script : List (Outcome ℕ))
    (s : Writen × Bytes) : Prop where
  stream : s.2 = stream ++ (buf.drop done).take (total id script)
  total_le : done + total id script ≤ totalSize
  result : s.1.result = returns id totalSize done script
  goesOn : s.1.result = none → s.1.offered buf ≠ none

theorem Writen.law_nil {buf stream : Bytes} {totalSize done : ℕ} (htotal : totalSize ≤ buf.length)
    (hlt : totalSize < 2 ^ 63) (hdone : done ≤ totalSize) :
    Writen.Law buf totalSize done stream [] (.test done (totalSize - done) done, stream) := by
  rw [Writen.test]
  by_cases hend : done = totalSize
  · have hsize : ssizeT done = done := ssizeT_natCast (by omega)
    rw [if_neg (by omega), hsize]
    exact ⟨by simp, by simpa using hdone, by simp [Writen.result, returns_nil, hend],
      by simp [Writen.result]⟩
  · rw [if_pos (by omega)]
    refine ⟨by simp, by simpa using hdone, by simp [Writen.result, returns_nil, hend], ?_⟩
    rw [Writen.offered_loop _ (by omega)]
    simp

/-- The last call transfers nothing. -/
theorem Writen.law_last {buf stream : Bytes} {totalSize done : ℕ} (hdone : done ≤ totalSize)
    {outcome : Outcome ℕ} (hnone : transferred id outcome = 0) {result : ℤ}
    (hresult : returns id totalSize done [outcome] = some result) :
    Writen.Law buf totalSize done stream [outcome]
      (.returned result, stream ++ (buf.drop done).take (transferred id outcome)) :=
  ⟨by simp, by simpa [hnone] using hdone, hresult.symm, by simp [Writen.result]⟩

theorem Writen.law_test {buf : Bytes} {totalSize : ℕ} (htotal : totalSize ≤ buf.length)
    (hlt : totalSize < 2 ^ 63) {script : List (Outcome ℕ)} {done : ℕ} (hdone : done ≤ totalSize)
    {stream : Bytes}
    (h : Script (Writen.CanGet buf) (Writen.handOver buf)
      (.test done (totalSize - done) done, stream) script) :
    Writen.Law buf totalSize done stream script
      (script.foldl (Writen.handOver buf) (.test done (totalSize - done) done, stream)) := by
  induction script generalizing done stream with
  | nil => exact Writen.law_nil htotal hlt hdone
  | cons outcome script ih =>
      by_cases hend : done = totalSize
      · rw [Writen.test, if_neg (by omega)] at h
        cases Writen.script_returned h
      have hpos : 0 < totalSize - done := by omega
      have htest : Writen.test done (totalSize - done) done = .loop done (totalSize - done) done :=
        if_pos hpos
      rw [htest] at h ⊢
      cases h with
      | cons hget hrest =>
          obtain ⟨bytes, hoffered, hle⟩ := hget
          rw [Writen.offered_loop _ (by omega)] at hoffered
          cases hoffered
          rw [List.length_take] at hle
          have hn : transferred id outcome ≤ totalSize - done := by omega
          rw [List.foldl_cons]
          rw [Writen.handOver_loop htotal hlt hdone hn] at hrest ⊢
          by_cases hfails : Fails outcome
          · rw [if_pos hfails] at hrest ⊢
            obtain rfl := Writen.script_returned hrest
            exact Writen.law_last hdone hfails.transferred_eq (returns_fails hfails)
          · by_cases hends : Ends id outcome
            · rw [if_neg hfails, if_pos hends] at hrest ⊢
              obtain rfl := Writen.script_returned hrest
              exact Writen.law_last hdone hends.transferred_eq (returns_ends hends)
            · rw [if_neg hfails, if_neg hends] at hrest ⊢
              obtain ⟨hstream, htotal_le, hresult, hgoesOn⟩ := ih (by omega) hrest
              refine ⟨?_, ?_, hresult.trans (returns_cons hfails hends script).symm, hgoesOn⟩
              · rw [hstream, total_cons, List.append_assoc, ← List.drop_drop, List.take_add]
              · rw [total_cons]
                omega

/-! ## `readn` -/

def received : Outcome Bytes → Bytes
  | .ok bytes => bytes
  | .error _ => []

theorem length_received (outcome : Outcome Bytes) :
    (received outcome).length = transferred List.length outcome := by
  cases outcome <;> rfl

/-- A read stores a part of what it asks for, or it fails. -/
def Readn.CanGet (r : Readn) (outcome : Outcome Bytes) : Prop :=
  ∃ n, r.asked = some n ∧ (received outcome).length ≤ n

/-- The buffer with `got` at its front. -/
def filled (target : List (Option UInt8)) (got : Bytes) : List (Option UInt8) :=
  got.map some ++ target.drop got.length

theorem storeBytes_filled {target : List (Option UInt8)} {got bytes : Bytes}
    (hfit : got.length + bytes.length ≤ target.length) :
    storeBytes (filled target got) got.length bytes = some (filled target (got ++ bytes)) := by
  by_cases hnil : bytes = []
  · rw [storeBytes, if_pos hnil, hnil, List.append_nil]
  · have hlength : (filled target got).length = target.length := by
      simp only [filled, List.length_append, List.length_map, List.length_drop]
      omega
    have hinside : (0 : ℤ) ≤ got.length ∧
        (got.length : ℤ) + bytes.length ≤ (filled target got).length := by omega
    rw [storeBytes, if_neg hnil, if_pos hinside, Int.toNat_natCast, filled, filled,
      List.take_left' (by simp), ← List.drop_drop, List.drop_left' (by simp), List.drop_drop,
      List.map_append, List.length_append]

/-- One turn of the loop. -/
theorem Readn.onRead_loop {target : List (Option UInt8)} {got : Bytes} {totalSize : ℕ}
    (htotal : totalSize ≤ target.length) (hlt : totalSize < 2 ^ 63) (hgot : got.length ≤ totalSize)
    {outcome : Outcome Bytes} (hle : (received outcome).length ≤ totalSize - got.length) :
    (Readn.loop (filled target got) got.length (totalSize - got.length) got.length).onRead outcome =
      if Fails outcome then .returned (filled target got) (-1)
      else if Ends List.length outcome then .returned (filled target got) got.length
      else .test (filled target (got ++ received outcome)) (got ++ received outcome).length
        (totalSize - (got ++ received outcome).length) (got ++ received outcome).length := by
  cases outcome with
  | error errno =>
      by_cases hintr : errno = EINTR <;> simp [Readn.onRead, received, hintr]
  | ok bytes =>
      have hbytes : bytes.length ≤ totalSize - got.length := hle
      have hfit : got.length + bytes.length ≤ target.length := by omega
      have hstore := storeBytes_filled hfit
      have hrest : sizeT (((totalSize - got.length : ℕ) : ℤ) - (bytes.length : ℤ)) =
          totalSize - (got.length + bytes.length) := by
        rw [sizeT_sub hbytes (by omega), Nat.sub_sub]
      have hread : sizeT ((got.length : ℤ) + (bytes.length : ℤ)) = got.length + bytes.length :=
        sizeT_natCast (n := got.length + bytes.length) (by omega)
      have hsize : ssizeT got.length = got.length := ssizeT_natCast (by omega)
      simp only [Readn.onRead, hstore, hrest, hread, hsize, received, not_fails_ok, if_false,
        ends_ok, List.length_append]
      by_cases hnil : bytes = []
      · simp [hnil]
      · have hpos : bytes.length ≠ 0 := fun hzero => hnil (List.eq_nil_of_length_eq_zero hzero)
        rw [if_neg hpos, if_neg hpos]

theorem Readn.script_returned {buf : List (Option UInt8)} {result : ℤ}
    {script : List (Outcome Bytes)} (h : Script Readn.CanGet Readn.onRead (.returned buf result) script) : script = [] := by
  cases h with
  | nil => rfl
  | cons hget _ =>
      obtain ⟨n, hask, -⟩ := hget
      cases hask

/-- What is stored behind `got`, and the result. -/
structure Readn.Law (target : List (Option UInt8)) (totalSize : ℕ) (got : Bytes)
    (script : List (Outcome Bytes)) (r : Readn) : Prop where
  buffer : r.buffer = filled target (got ++ script.flatMap received)
  total_le : got.length + total List.length script ≤ totalSize
  result : r.result = returns List.length totalSize got.length script
  ne_fault : r ≠ .fault

theorem Readn.law_nil {target : List (Option UInt8)} {totalSize : ℕ} {got : Bytes}
    (hgot : got.length ≤ totalSize) (hlt : totalSize < 2 ^ 63) :
    Readn.Law target totalSize got []
      (.test (filled target got) got.length (totalSize - got.length) got.length) := by
  rw [Readn.test]
  by_cases hend : got.length = totalSize
  · have hsize : ssizeT got.length = got.length := ssizeT_natCast (by omega)
    rw [if_neg (by omega), hsize]
    exact ⟨by simp [Readn.buffer], by simpa using hgot,
      by simp [Readn.result, returns_nil, hend], by simp⟩
  · rw [if_pos (by omega)]
    exact ⟨by simp [Readn.buffer], by simpa using hgot,
      by simp [Readn.result, returns_nil, hend], by simp⟩

/-- The last call transfers nothing. -/
theorem Readn.law_last {target : List (Option UInt8)} {totalSize : ℕ} {got : Bytes}
    (hgot : got.length ≤ totalSize) {outcome : Outcome Bytes}
    (hnone : transferred List.length outcome = 0) {result : ℤ}
    (hresult : returns List.length totalSize got.length [outcome] = some result) :
    Readn.Law target totalSize got [outcome] (.returned (filled target got) result) := by
  have hnil : received outcome = [] :=
    List.eq_nil_of_length_eq_zero ((length_received outcome).trans hnone)
  exact ⟨by simp [Readn.buffer, hnil], by simpa [hnone] using hgot, hresult.symm, by simp⟩

theorem Readn.law_test {target : List (Option UInt8)} {totalSize : ℕ}
    (htotal : totalSize ≤ target.length) (hlt : totalSize < 2 ^ 63) {script : List (Outcome Bytes)}
    (got : Bytes) (hgot : got.length ≤ totalSize)
    (h : Script Readn.CanGet Readn.onRead
      (.test (filled target got) got.length (totalSize - got.length) got.length) script) :
    Readn.Law target totalSize got script (script.foldl Readn.onRead
      (.test (filled target got) got.length (totalSize - got.length) got.length)) := by
  induction script generalizing got with
  | nil => exact Readn.law_nil hgot hlt
  | cons outcome script ih =>
      by_cases hend : got.length = totalSize
      · rw [Readn.test, if_neg (by omega)] at h
        cases Readn.script_returned h
      have htest : Readn.test (filled target got) got.length (totalSize - got.length) got.length =
          .loop (filled target got) got.length (totalSize - got.length) got.length :=
        if_pos (by omega)
      rw [htest] at h ⊢
      cases h with
      | cons hget hrest =>
          obtain ⟨n, hask, hle⟩ := hget
          cases hask
          have hlength := length_received outcome
          rw [List.foldl_cons]
          rw [Readn.onRead_loop htotal hlt hgot hle] at hrest ⊢
          by_cases hfails : Fails outcome
          · rw [if_pos hfails] at hrest ⊢
            obtain rfl := Readn.script_returned hrest
            exact Readn.law_last hgot hfails.transferred_eq (returns_fails hfails)
          · by_cases hends : Ends List.length outcome
            · rw [if_neg hfails, if_pos hends] at hrest ⊢
              obtain rfl := Readn.script_returned hrest
              exact Readn.law_last hgot hends.transferred_eq (returns_ends hends)
            · rw [if_neg hfails, if_neg hends] at hrest ⊢
              have hmore : (got ++ received outcome).length =
                  got.length + transferred List.length outcome := by
                rw [List.length_append, hlength]
              obtain ⟨hbuffer, htotal_le, hresult, hfault⟩ := ih _ (by omega) hrest
              refine ⟨?_, ?_, ?_, hfault⟩
              · rw [hbuffer, List.flatMap_cons, List.append_assoc]
              · rw [total_cons]
                omega
              · rw [hresult, hmore, returns_cons hfails hends]

end SysProg.Transfer
