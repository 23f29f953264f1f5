import SysProg.Library.Leads

/-! # Streams with partial reads and writes

A program that reads asks for a number of items and gets one or more of them, a program
that writes offers items of which one or more are accepted. An expectation relates the
state of the program to the items that are still to come: it holds after a read or write
of any part of them if it held before. -/

namespace SysProg.ByteStream

variable {R W β : Type*}

/-! ## Reading -/

/-- How much the next read of a program asks for, whether that read is answered as a
whole, and how the program goes on. -/
structure Reader (R β : Type*) where
  asked : R → Option ℕ
  whole : R → Prop
  onRead : R → List β → R

/-- One read takes some items from the front of the stream. -/
inductive ReadStep (M : Reader R β) : R × List β → R × List β → Prop
  | read {r : R} {n : ℕ} {bs rest : List β} (hask : M.asked r = some n) (hne : bs ≠ [])
      (hle : bs.length ≤ n) (hwhole : M.whole r → bs.length = n) :
      ReadStep M (r, bs ++ rest) (M.onRead r bs, rest)

/-- `expects r rest`: the program in state `r` is to read exactly `rest`. -/
structure Reader.Expects (M : Reader R β) (expects : R → List β → Prop) : Prop where
  asked : ∀ r rest, expects r rest → rest ≠ [] →
    ∃ n, M.asked r = some n ∧ 0 < n ∧ n ≤ rest.length
  step : ∀ r n bs rest, expects r (bs ++ rest) → M.asked r = some n → bs ≠ [] →
    bs.length ≤ n → (M.whole r → bs.length = n) → expects (M.onRead r bs) rest

variable {M : Reader R β} {expects : R → List β → Prop}

/-- A read takes a part of what is expected only. -/
theorem Reader.Expects.read (h : M.Expects expects) {r : R} {n : ℕ} {bs rest following : List β}
    {stream : List β} (hr : expects r rest) (hne : rest ≠ []) (hask : M.asked r = some n)
    (hsplit : bs ++ stream = rest ++ following) (hle : bs.length ≤ n) :
    ∃ rest', rest = bs ++ rest' ∧ stream = rest' ++ following := by
  obtain ⟨n', hask', -, hn'⟩ := h.asked r rest hr hne
  have heq : n' = n := by
    rw [hask] at hask'
    exact (Option.some.inj hask').symm
  have hprefix : bs <+: rest :=
    List.prefix_of_prefix_length_le ⟨stream, hsplit⟩ ⟨following, rfl⟩ (by omega)
  obtain ⟨rest', rfl⟩ := hprefix
  refine ⟨rest', rfl, ?_⟩
  rw [List.append_assoc] at hsplit
  exact List.append_cancel_left hsplit

/-- In every fragmentation the program reads exactly what it expects. -/
theorem Reader.Expects.leads (h : M.Expects expects) {r : R} {rest : List β}
    (following : List β) (hr : expects r rest) :
    Leads (ReadStep M) (fun s => expects s.1 [] ∧ s.2 = following) (r, rest ++ following) := by
  induction hn : rest.length using Nat.strong_induction_on generalizing r rest with
  | h n ih =>
    by_cases hne : rest = []
    · subst hne
      exact .now ⟨hr, rfl⟩
    · obtain ⟨k, hask, hpos, hk⟩ := h.asked r rest hr hne
      refine .later ⟨(M.onRead r (rest.take k), rest.drop k ++ following), ?_⟩ ?_
      · have htake : (rest.take k).length = k := List.length_take_of_le hk
        have hstep : ReadStep M (r, rest.take k ++ (rest.drop k ++ following)) _ :=
          .read hask (List.ne_nil_of_length_pos (by omega)) htake.le fun _ => htake
        rwa [← List.append_assoc, List.take_append_drop] at hstep
      · intro t hst
        generalize hs : (r, rest ++ following) = s at hst
        cases hst with
        | @read r' n' bs stream hask' hne' hle hwhole =>
            obtain ⟨rfl, hsplit⟩ := Prod.mk.inj hs
            obtain ⟨rest', rfl, rfl⟩ := h.read hr hne hask' hsplit.symm hle
            have hlt : 0 < bs.length := List.length_pos_iff.mpr hne'
            refine ih rest'.length ?_ (h.step r n' bs rest' hr hask' hne' hle hwhole) rfl
            rw [← hn, List.length_append]
            omega

/-- A program that reads as another one does, whose states it wraps. -/
theorem Reader.Expects.embed {R' : Type*} {M' : Reader R' β} (h : M.Expects expects)
    (wrap : R → R') (hasked : ∀ r, M.asked r ≠ none → M'.asked (wrap r) = M.asked r)
    (hwhole : ∀ r, M.whole r → M'.whole (wrap r))
    (hread : ∀ r bs, M.asked r ≠ none → M'.onRead (wrap r) bs = wrap (M.onRead r bs)) :
    M'.Expects (fun r' rest => ∃ r, wrap r = r' ∧ expects r rest) where
  asked := by
    rintro r' rest ⟨r, rfl, hr⟩ hne
    obtain ⟨n, hask, hn⟩ := h.asked r rest hr hne
    exact ⟨n, (hasked r (by simp [hask])).trans hask, hn⟩
  step := by
    rintro r' n bs rest ⟨r, rfl, hr⟩ hask hne hle hw
    obtain ⟨n', hask', -⟩ := h.asked r (bs ++ rest) hr (by simp [hne])
    rw [hasked r (by simp [hask'])] at hask
    refine ⟨M.onRead r bs, (hread r bs (by simp [hask])).symm, ?_⟩
    exact h.step r n bs rest hr hask hne hle fun hwr => hw (hwhole r hwr)

theorem Reader.Expects.exists {ι : Sort*} {expects : ι → R → List β → Prop}
    (h : ∀ i, M.Expects (expects i)) : M.Expects (fun r rest => ∃ i, expects i r rest) where
  asked := by
    intro r rest ⟨i, hr⟩ hne
    exact (h i).asked r rest hr hne
  step := by
    intro r n bs rest ⟨i, hr⟩ hask hne hle hwhole
    exact ⟨i, (h i).step r n bs rest hr hask hne hle hwhole⟩

theorem Reader.Expects.and (c : Prop) (h : c → M.Expects expects) :
    M.Expects (fun r rest => c ∧ expects r rest) where
  asked := by
    intro r rest ⟨hc, hr⟩ hne
    exact (h hc).asked r rest hr hne
  step := by
    intro r n bs rest ⟨hc, hr⟩ hask hne hle hwhole
    exact ⟨hc, (h hc).step r n bs rest hr hask hne hle hwhole⟩

theorem Reader.Expects.or {expects' : R → List β → Prop} (h : M.Expects expects)
    (h' : M.Expects expects') : M.Expects (fun r rest => expects r rest ∨ expects' r rest) where
  asked := by
    rintro r rest (hr | hr) hne
    · exact h.asked r rest hr hne
    · exact h'.asked r rest hr hne
  step := by
    rintro r n bs rest (hr | hr) hask hne hle hwhole
    · exact .inl (h.step r n bs rest hr hask hne hle hwhole)
    · exact .inr (h'.step r n bs rest hr hask hne hle hwhole)

/-! ## Writing -/

/-- What the next write of a program offers, whether it is accepted as a whole, and how
the program goes on. -/
structure Writer (W β : Type*) where
  offered : W → Option (List β)
  whole : W → Prop
  onWrite : W → ℕ → W

/-- One write appends some items to the stream. -/
inductive WriteStep (M : Writer W β) : W × List β → W × List β → Prop
  | write {w : W} {k : ℕ} {bs stream : List β} (hoffer : M.offered w = some bs) (hpos : 0 < k)
      (hle : k ≤ bs.length) (hwhole : M.whole w → k = bs.length) :
      WriteStep M (w, stream) (M.onWrite w k, stream ++ bs.take k)

/-- `offers w rest`: the program in state `w` is to write exactly `rest`. -/
structure Writer.Offers (M : Writer W β) (offers : W → List β → Prop) : Prop where
  offered : ∀ w rest, offers w rest → rest ≠ [] →
    ∃ bs, M.offered w = some bs ∧ bs ≠ [] ∧ bs <+: rest
  finished : ∀ w, offers w [] → M.offered w = none
  step : ∀ w k bs rest, offers w (bs ++ rest) → M.offered w = some bs → 0 < k →
    k ≤ bs.length → (M.whole w → k = bs.length) → offers (M.onWrite w k) ((bs ++ rest).drop k)

variable {N : Writer W β} {offers : W → List β → Prop}

/-- A write appends a part of what is offered. -/
theorem Writer.Offers.write (h : N.Offers offers) {w : W} {k : ℕ} {bs rest : List β}
    (hw : offers w rest) (hoffer : N.offered w = some bs) (hpos : 0 < k) (hle : k ≤ bs.length)
    (hwhole : N.whole w → k = bs.length) :
    ∃ rest', rest = bs.take k ++ rest' ∧ offers (N.onWrite w k) rest' := by
  by_cases hne : rest = []
  · subst hne
    simp [h.finished w hw] at hoffer
  · obtain ⟨bs', hoffer', -, ⟨rest', rfl⟩⟩ := h.offered w rest hw hne
    obtain rfl : bs = bs' := by simpa [hoffer] using hoffer'
    refine ⟨(bs ++ rest').drop k, ?_, h.step w k bs rest' hw hoffer hpos hle hwhole⟩
    have htake : bs.take k = (bs ++ rest').take k := by
      rw [List.take_append_of_le_length hle]
    rw [htake, List.take_append_drop]

/-- However the writes are accepted, the program writes exactly what it offers. -/
theorem Writer.Offers.leads (h : N.Offers offers) {w : W} {rest : List β} (stream : List β)
    (hw : offers w rest) :
    Leads (WriteStep N) (fun s => offers s.1 [] ∧ s.2 = stream ++ rest) (w, stream) := by
  induction hn : rest.length using Nat.strong_induction_on generalizing w rest stream with
  | h n ih =>
    by_cases hne : rest = []
    · subst hne
      exact .now ⟨hw, (List.append_nil stream).symm⟩
    · obtain ⟨bs, hoffer, hbs, -⟩ := h.offered w rest hw hne
      refine .later ⟨_, .write hoffer (List.length_pos_iff.mpr hbs) le_rfl fun _ => rfl⟩ ?_
      intro t hst
      cases hst with
      | @write _ k bs' _ hoffer' hpos hle hwhole =>
          obtain ⟨rest', hrest, hw'⟩ := h.write hw hoffer' hpos hle hwhole
          have htake : (bs'.take k).length = k := List.length_take_of_le hle
          have hlt : rest'.length < n := by
            rw [← hn, hrest, List.length_append]
            omega
          have hleads := ih rest'.length hlt (stream ++ bs'.take k) hw' rfl
          rwa [List.append_assoc, ← hrest] at hleads

/-- A program that writes as another one does, whose states it wraps. -/
theorem Writer.Offers.embed {W' : Type*} {N' : Writer W' β} (h : N.Offers offers)
    (wrap : W → W') (hoffered : ∀ w, N'.offered (wrap w) = N.offered w)
    (hwhole : ∀ w, N.whole w → N'.whole (wrap w))
    (hwrite : ∀ w k, N.offered w ≠ none → N'.onWrite (wrap w) k = wrap (N.onWrite w k)) :
    N'.Offers (fun w' rest => ∃ w, wrap w = w' ∧ offers w rest) where
  offered := by
    rintro w' rest ⟨w, rfl, hw⟩ hne
    rw [hoffered]
    exact h.offered w rest hw hne
  finished := by
    rintro w' ⟨w, rfl, hw⟩
    rw [hoffered]
    exact h.finished w hw
  step := by
    rintro w' k bs rest ⟨w, rfl, hw⟩ hoffer hpos hle hwh
    rw [hoffered] at hoffer
    refine ⟨N.onWrite w k, (hwrite w k (by simp [hoffer])).symm, ?_⟩
    exact h.step w k bs rest hw hoffer hpos hle fun hww => hwh (hwhole w hww)

theorem Writer.Offers.exists {ι : Sort*} {offers : ι → W → List β → Prop}
    (h : ∀ i, N.Offers (offers i)) : N.Offers (fun w rest => ∃ i, offers i w rest) where
  offered := by
    intro w rest ⟨i, hw⟩ hne
    exact (h i).offered w rest hw hne
  finished := by
    intro w ⟨i, hw⟩
    exact (h i).finished w hw
  step := by
    intro w k bs rest ⟨i, hw⟩ hoffer hpos hle hwhole
    exact ⟨i, (h i).step w k bs rest hw hoffer hpos hle hwhole⟩

theorem Writer.Offers.and (c : Prop) (h : c → N.Offers offers) :
    N.Offers (fun w rest => c ∧ offers w rest) where
  offered := by
    intro w rest ⟨hc, hw⟩ hne
    exact (h hc).offered w rest hw hne
  finished := by
    intro w ⟨hc, hw⟩
    exact (h hc).finished w hw
  step := by
    intro w k bs rest ⟨hc, hw⟩ hoffer hpos hle hwhole
    exact ⟨hc, (h hc).step w k bs rest hw hoffer hpos hle hwhole⟩

theorem Writer.Offers.or {offers' : W → List β → Prop} (h : N.Offers offers)
    (h' : N.Offers offers') : N.Offers (fun w rest => offers w rest ∨ offers' w rest) where
  offered := by
    rintro w rest (hw | hw) hne
    · exact h.offered w rest hw hne
    · exact h'.offered w rest hw hne
  finished := by
    rintro w (hw | hw)
    · exact h.finished w hw
    · exact h'.finished w hw
  step := by
    rintro w k bs rest (hw | hw) hoffer hpos hle hwhole
    · exact .inl (h.step w k bs rest hw hoffer hpos hle hwhole)
    · exact .inr (h'.step w k bs rest hw hoffer hpos hle hwhole)

end SysProg.ByteStream
