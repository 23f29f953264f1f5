import SysProg.Verification.Square.Session

/-! # When the printed square is the square

The handler multiplies with 32 bits, so the result is exact up to 46340 only. -/

namespace SysProg.Square

open Transmission ByteStream

theorem cString_append_nul {msg : Bytes} (hnul : 0 ∉ msg) (rest : List (Option UInt8)) :
    cString (msg.map some ++ some 0 :: rest) = msg := by
  have hsome : ∀ b ∈ msg.map some, (b != some 0) = true := by
    intro b hb
    obtain ⟨c, hc, rfl⟩ := List.mem_map.mp hb
    have hne : c ≠ 0 := fun h => hnul (h ▸ hc)
    simpa using hne
  rw [cString, List.takeWhile_append_of_pos hsome]
  simp [List.reduceOption]

theorem cString_stored {msg : Bytes} (hnul : 0 ∉ msg) : cString (stored msg) = msg := by
  rw [stored, List.map_append]
  exact cString_append_nul hnul []

/-- The client prints the product that the handler has computed. -/
theorem printedFor_eq {x : ℤ} (hx : IsInt x) : printedFor x = int32 (x * x) := by
  have hread : ∀ {y}, IsInt y → atoi (cString (stored (format12d y))) = y := by
    intro y hy
    rw [cString_stored (nul_notMem_format12d y), ← List.append_nil (format12d y)]
    exact atoi_format12d hy (by simp)
  rw [printedFor, replyTo, square, hread hx, hread (isInt_int32 _)]

theorem int32_mul_self {x : ℤ} : int32 (x * x) = x * x ↔ |x| ≤ 46340 := by
  rw [abs_le]
  constructor
  · intro h
    have hlt := int32_lt (x * x)
    rw [h] at hlt
    constructor <;> nlinarith
  · intro ⟨hlo, hhi⟩
    apply int32_of_mem <;> nlinarith

theorem fgets_line {line : Bytes} (hline : 10 ∉ line) (rest : Bytes) (size : ℕ)
    (hsize : line.length + 2 ≤ size) :
    fgets size (line ++ 10 :: rest) = (line ++ [10], rest) := by
  induction line generalizing size with
  | nil =>
      obtain ⟨size, rfl⟩ := Nat.exists_eq_add_of_le' hsize
      simp [fgets]
  | cons b line ih =>
      obtain ⟨size, rfl⟩ := Nat.exists_eq_add_of_le' hsize
      have hb : b ≠ 10 := fun h => hline (by simp [h])
      have hrec : fgets (size + line.length + 2) (line ++ 10 :: rest) = _ :=
        ih (fun h => hline (by simp [h])) _ (by omega)
      rw [List.length_cons, List.cons_append,
        show size + (line.length + 1 + 2) = size + line.length + 1 + 2 by omega, fgets, if_neg hb,
        hrec]
      rfl

theorem readLine_format12d {x : ℤ} (hx : IsInt x) : readLine (format12d x ++ [10]) = .number x := by
  have hlength := length_format12d hx
  have hnul := nul_notMem_format12d x
  have hstrlen : strlen (format12d x ++ [10] ++ [0]) = 13 := by
    rw [strlen_append_nul (by simp [hnul]) [], List.length_append, hlength]
    rfl
  have hnewline : (format12d x ++ [10] ++ [0]).getD (13 - 1) 0 = 10 := by
    rw [List.getD_eq_getElem?_getD, List.append_assoc,
      List.getElem?_append_right (by omega), hlength]
    rfl
  have hset : (format12d x ++ [10] ++ [0]).set (13 - 1) 0 = format12d x ++ [0] ++ [0] := by
    rw [List.append_assoc, List.set_append_right _ _ (by omega), hlength]
    simp
  have hcut : strlen (format12d x ++ [0] ++ [0]) = 12 := by
    rw [List.append_assoc, List.singleton_append, strlen_append_nul hnul, hlength]
  have hhead : ∀ c < 32, (format12d x ++ [0] ++ [0]).getD 0 0 ≠ c := by
    intro c hc h
    rw [List.append_assoc, List.getD_append _ _ _ _ (by omega), List.getD_eq_getElem _ _ (by omega)] at h
    exact notMem_format12d hc x (h ▸ List.getElem_mem _)
  have hquit : (format12d x ++ [0] ++ [0]).take 12 ≠ [81, 85, 73, 84] := by
    intro h
    have := congrArg List.length h
    simp [hlength] at this
  simp only [readLine, hstrlen, hnewline, hset, hcut, if_true, hhead 3 (by decide),
    hhead 4 (by decide), hquit, or_self, if_false]
  rw [List.append_assoc, atoi_format12d hx (by simp; rfl)]
  rfl

theorem enters_number {x : ℤ} (hx : IsInt x) (after : Bytes) :
    Enters (input [format12d x] after) [x] := by
  have hinput : input [format12d x] after = format12d x ++ 10 :: ([81, 85, 73, 84, 10] ++ after) := by
    simp [input]
  have hline := fgets_line (notMem_format12d (b := 10) (by decide) x)
    ([81, 85, 73, 84, 10] ++ after) 4096 (by rw [length_format12d hx]; norm_num)
  rw [hinput]
  apply Enters.number
  · rw [hline]
    simp
  · rw [hline]
    exact readLine_format12d hx
  · rw [hline]
    exact enters_quit after

theorem printed_iff (server : Server) (hsize : 13 ≤ server.RCVBUFSIZE) {stdin : Bytes}
    {xs : List ℤ} (hxs : Enters stdin xs) :
    Leads server.SessionStep (fun s => s.left.phase = .closed ∧
        s.left.printed = xs.map fun x => (x, x * x)) (.start stdin) ↔ ∀ x ∈ xs, |x| ≤ 46340 := by
  obtain ⟨m, hm⟩ := start_talking server hsize hxs
  have hleads := hm.leads (conversation_ne_nil xs)
  constructor
  · intro h
    obtain ⟨t, hrun, hfinished⟩ := hleads.exists_reaches
    have hclosed : ∀ u v : Session, u.left.phase = .closed ∧
        (u.left.printed = xs.map fun x => (x, x * x)) → server.SessionStep u v →
        v.left.phase = .closed ∧ v.left.printed = xs.map fun x => (x, x * x) := by
      intro u v ⟨hphase, hprinted⟩ hstep
      have heq : v.left = u.left := by
        apply hstep.left_eq
        · simp [clientParty, hphase]
        · simp [clientParty, clientWriter, hphase]
        · simp [clientParty, clientReader, hphase]
      rw [heq]
      exact ⟨hphase, hprinted⟩
    have hprinted := (h.of_stuck hclosed hrun fun _ => hfinished.stuck).2
    obtain ⟨stdin', hleft⟩ := hfinished.left
    intro x hx
    rw [hleft] at hprinted
    have heq := List.map_inj_left.mp hprinted x hx
    rw [printedFor_eq (hxs.isInt x hx)] at heq
    exact int32_mul_self.mp (Prod.mk.inj heq).2
  · intro h
    refine hleads.mono ?_
    rintro s ⟨⟨stdin', hleft⟩, -⟩
    rw [hleft]
    refine ⟨rfl, List.map_congr_left fun x hx => ?_⟩
    rw [printedFor_eq (hxs.isInt x hx), int32_mul_self.mpr (h x hx)]

/-- The client prints the square of the `int` that is entered if and only if it is at most
46340 in absolute value. -/
theorem square_printed_iff (x : ℤ) (hx : IsInt x) (after : Bytes) :
    (Leads squareServer.SessionStep (fun s => s.left.phase = .closed ∧
        s.left.printed = [(x, x * x)]) (.start (input [format12d x] after)) ↔ |x| ≤ 46340) ∧
      (Leads daemon.SessionStep (fun s => s.left.phase = .closed ∧
        s.left.printed = [(x, x * x)]) (.start (input [format12d x] after)) ↔ |x| ≤ 46340) := by
  have hxs := enters_number hx after
  constructor
  · simpa using printed_iff squareServer (by decide) hxs
  · simpa using printed_iff daemon (by decide) hxs

theorem square_printed_iff_twelve :
    (Leads squareServer.SessionStep (fun s => s.left.phase = .closed ∧
        s.left.printed = [(12, 12 * 12)]) (.start (input [format12d 12] [])) ↔
          |(12 : ℤ)| ≤ 46340) ∧
      (Leads daemon.SessionStep (fun s => s.left.phase = .closed ∧
        s.left.printed = [(12, 12 * 12)]) (.start (input [format12d 12] [])) ↔
          |(12 : ℤ)| ≤ 46340) :=
  square_printed_iff 12 ⟨by norm_num, by norm_num⟩ []

/-- The reply to the request for the square of 46341 is negative. -/
theorem square_46341_not_printed :
    atoi (cString (stored (square (stored (format12d 46341))))) ≠ 46341 * 46341 ∧
      ¬ Leads squareServer.SessionStep (fun s => s.left.phase = .closed ∧
        s.left.printed = [(46341, 46341 * 46341)]) (.start (input [format12d 46341] [])) := by
  have hint : IsInt 46341 := ⟨by norm_num, by norm_num⟩
  constructor
  · have hread := printedFor_eq hint
    rw [printedFor, replyTo] at hread
    rw [hread]
    decide
  · intro h
    have hxs := enters_number hint []
    have hle := (printed_iff squareServer (by decide) hxs).mp (by simpa using h) 46341 (by simp)
    norm_num at hle

end SysProg.Square
