import SysProg.Library.ByteStream

/-! # A stream that arrives in pieces

The pieces say how the environment cuts a stream. A read takes what is left of the first
piece, as far as it asks for it. -/

namespace SysProg.ByteStream

variable {β : Type*}

/-- What a read of up to `n` items gets, and the pieces that are left. It gets nothing at
the end of the stream only. -/
def receive (n : ℕ) : List (List β) → List β × List (List β)
  | [] => ([], [])
  | piece :: pieces =>
      if piece.length ≤ n then (piece, pieces) else (piece.take n, piece.drop n :: pieces)

/-- The positions in the stream at which a piece ends. -/
def cuts : List (List β) → List ℕ
  | [] => []
  | piece :: pieces => piece.length :: (cuts pieces).map (piece.length + ·)

/-- The pieces that are left of others after `k` items have been read. -/
structure LeftOf (k : ℕ) (pieces rest : List (List β)) : Prop where
  nonempty : [] ∉ rest
  flatten : ∃ bs, bs.length = k ∧ pieces.flatten = bs ++ rest.flatten
  cuts : ∀ c, c ∈ cuts rest ↔ 0 < c ∧ k + c ∈ cuts pieces

theorem cuts_pos {pieces : List (List β)} (hne : [] ∉ pieces) : ∀ c ∈ cuts pieces, 0 < c := by
  intro c hc
  cases pieces with
  | nil => simp [cuts] at hc
  | cons piece pieces =>
      have hpiece : 0 < piece.length :=
        List.length_pos_iff.mpr fun h => hne (by simp [h])
      rcases List.mem_cons.mp hc with rfl | hc
      · exact hpiece
      · obtain ⟨c', -, rfl⟩ := List.mem_map.mp hc
        omega

theorem leftOf_zero {pieces : List (List β)} (hne : [] ∉ pieces) : LeftOf 0 pieces pieces := by
  refine ⟨hne, ⟨[], rfl, rfl⟩, ?_⟩
  intro c
  rw [Nat.zero_add]
  exact ⟨fun hc => ⟨cuts_pos hne c hc, hc⟩, And.right⟩

theorem LeftOf.trans {j k : ℕ} {pieces rest rest' : List (List β)} (h : LeftOf j pieces rest)
    (h' : LeftOf k rest rest') : LeftOf (j + k) pieces rest' := by
  obtain ⟨bs, hbs, hflatten⟩ := h.flatten
  obtain ⟨bs', hbs', hflatten'⟩ := h'.flatten
  refine ⟨h'.nonempty, ⟨bs ++ bs', by simp [hbs, hbs'], ?_⟩, ?_⟩
  · rw [hflatten, hflatten', List.append_assoc]
  · intro c
    rw [h'.cuts, h.cuts, Nat.add_assoc]
    constructor
    · rintro ⟨hc, -, hcut⟩
      exact ⟨hc, hcut⟩
    · intro ⟨hc, hcut⟩
      exact ⟨hc, by omega, hcut⟩

theorem receive_append (n : ℕ) (pieces : List (List β)) :
    (receive n pieces).1 ++ (receive n pieces).2.flatten = pieces.flatten := by
  cases pieces with
  | nil => rfl
  | cons piece pieces =>
      simp only [receive]
      split
      · rfl
      · rw [List.flatten_cons, List.flatten_cons, ← List.append_assoc, List.take_append_drop]

theorem receive_leftOf (n : ℕ) {pieces : List (List β)} (hne : [] ∉ pieces) :
    LeftOf (receive n pieces).1.length pieces (receive n pieces).2 := by
  have hflatten := receive_append n pieces
  cases pieces with
  | nil => exact leftOf_zero hne
  | cons piece pieces =>
      have hpieces : [] ∉ pieces := fun h => hne (List.mem_cons_of_mem _ h)
      simp only [receive] at hflatten ⊢
      by_cases hle : piece.length ≤ n
      · rw [if_pos hle] at hflatten ⊢
        refine ⟨hpieces, ⟨piece, rfl, hflatten.symm⟩, ?_⟩
        intro c
        constructor
        · intro hc
          exact ⟨cuts_pos hpieces c hc, by simp [cuts, hc]⟩
        · intro ⟨hc, hcut⟩
          rcases List.mem_cons.mp hcut with hcut | hcut
          · exact absurd hcut (by simp [hc.ne'])
          · obtain ⟨c', hc', heq⟩ := List.mem_map.mp hcut
            rwa [← Nat.add_left_cancel heq]
      · rw [if_neg hle] at hflatten ⊢
        have hlength : (piece.take n).length = n := by
          rw [List.length_take]
          omega
        have hdrop : piece.drop n ≠ [] := by
          rw [ne_eq, List.drop_eq_nil_iff]
          exact hle
        refine ⟨?_, ⟨piece.take n, rfl, hflatten.symm⟩, ?_⟩
        · intro h
          rcases List.mem_cons.mp h with h | h
          · exact hdrop h.symm
          · exact hpieces h
        · intro c
          rw [hlength]
          simp only [cuts, List.mem_cons, List.mem_map, List.length_drop]
          constructor
          · rintro (rfl | ⟨c', hc', rfl⟩)
            · exact ⟨by omega, .inl (by omega)⟩
            · exact ⟨by omega, .inr ⟨c', hc', by omega⟩⟩
          · rintro ⟨hc, heq | ⟨c', hc', heq⟩⟩
            · exact .inl (by omega)
            · exact .inr ⟨c', hc', by omega⟩

theorem receive_length_le (n : ℕ) (pieces : List (List β)) : (receive n pieces).1.length ≤ n := by
  cases pieces with
  | nil => exact Nat.zero_le n
  | cons piece pieces =>
      simp only [receive]
      split
      · assumption
      · exact List.length_take_le n piece

theorem receive_ne_nil {n : ℕ} (hn : 0 < n) {pieces : List (List β)} (hne : [] ∉ pieces)
    (h : pieces ≠ []) : (receive n pieces).1 ≠ [] := by
  cases pieces with
  | nil => exact absurd rfl h
  | cons piece pieces =>
      have hpiece : piece ≠ [] := fun h => hne (by simp [h])
      simp only [receive]
      split
      · exact hpiece
      · simpa using ⟨hn.ne', hpiece⟩

/-- A read does not get more than the first piece. -/
theorem receive_le_cut {n : ℕ} {pieces : List (List β)} {c : ℕ} (hc : c ∈ cuts pieces) :
    (receive n pieces).1.length ≤ c := by
  cases pieces with
  | nil => simp [cuts] at hc
  | cons piece pieces =>
      have hle : (receive n (piece :: pieces)).1.length ≤ piece.length := by
        simp only [receive]
        split
        · exact le_rfl
        · exact List.length_take_le' n piece
      rcases List.mem_cons.mp hc with rfl | hc
      · exact hle
      · obtain ⟨c', -, rfl⟩ := List.mem_map.mp hc
        omega

/-- A read gets all that it asks for when no piece ends before. -/
theorem receive_whole {n : ℕ} {pieces : List (List β)} (hle : n ≤ pieces.flatten.length)
    (hcuts : ∀ c ∈ cuts pieces, n ≤ c) : (receive n pieces).1.length = n := by
  cases pieces with
  | nil => exact (Nat.le_zero.mp hle).symm
  | cons piece pieces =>
      have hpiece : n ≤ piece.length := hcuts piece.length (by simp [cuts])
      simp only [receive]
      split
      · exact (le_antisymm hpiece ‹_›).symm
      · exact List.length_take_of_le hpiece

/-- One read of a program from a stream in pieces. -/
inductive PieceStep {R : Type*} (M : Reader R β) :
    R × List (List β) → R × List (List β) → Prop
  | read {r : R} {n : ℕ} {pieces : List (List β)} (hask : M.asked r = some n) :
      PieceStep M (r, pieces) (M.onRead r (receive n pieces).1, (receive n pieces).2)

/-- A program all of whose reads but the first may be answered in part reads what it expects,
unless the first read is cut. -/
theorem Reader.Expects.leads_pieces {R : Type*} {M : Reader R β} {expects : R → List β → Prop}
    (h : M.Expects expects) (honce : ∀ r n bs, M.asked r = some n → ¬ M.whole (M.onRead r bs))
    {r : R} {rest following : List β} {pieces : List (List β)} (hr : expects r rest)
    (hne : [] ∉ pieces) (hflatten : pieces.flatten = rest ++ following)
    (hwhole : M.whole r → ∀ n, M.asked r = some n → ∀ c ∈ cuts pieces, n ≤ c) :
    Leads (PieceStep M) (fun s => expects s.1 [] ∧ s.2.flatten = following ∧
      LeftOf rest.length pieces s.2) (r, pieces) := by
  induction hn : rest.length using Nat.strong_induction_on generalizing r rest pieces with
  | h n ih =>
    by_cases hrest : rest = []
    · subst hrest
      refine .now ⟨hr, hflatten, ?_⟩
      rw [← hn]
      exact leftOf_zero hne
    · obtain ⟨k, hask, hpos, hk⟩ := h.asked r rest hr hrest
      refine .later ⟨_, .read hask⟩ ?_
      intro t hst
      generalize hs : (r, pieces) = s at hst
      cases hst with
      | @read r' k' pieces' hask' =>
          obtain ⟨rfl, rfl⟩ := Prod.mk.inj hs
          obtain rfl : k = k' := Option.some.inj (hask.symm.trans hask')
          have hpieces : pieces ≠ [] := by
            rintro rfl
            exact hrest (List.append_eq_nil_iff.mp hflatten.symm).1
          have hreceived := receive_ne_nil hpos hne hpieces
          have hlt := List.length_pos_iff.mpr hreceived
          have hle := receive_length_le k pieces
          have hsplit := (receive_append k pieces).trans hflatten
          obtain ⟨rest', hrest', hfollowing⟩ := h.read hr hrest hask hsplit hle
          have hlength := congrArg List.length hrest'
          rw [List.length_append, hn] at hlength
          have hr' : expects (M.onRead r (receive k pieces).1) rest' := by
            refine h.step r k _ rest' (hrest' ▸ hr) hask hreceived hle ?_
            intro hw
            apply receive_whole _ (hwhole hw k hask)
            rw [hflatten, List.length_append]
            omega
          have hleft := receive_leftOf k hne
          refine (ih rest'.length (by omega) hr' hleft.nonempty hfollowing ?_ rfl).mono ?_
          · intro hw
            exact absurd hw (honce r k _ hask)
          · intro ⟨r', pieces'⟩ ⟨hr'', hpieces', hleft'⟩
            refine ⟨hr'', hpieces', ?_⟩
            rw [hlength]
            exact hleft.trans hleft'

end SysProg.ByteStream
