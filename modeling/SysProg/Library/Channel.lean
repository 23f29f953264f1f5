import SysProg.Library.ByteStream

/-! # A channel between a writer and a reader

A channel holds what has been written and has not been read, up to its capacity. The writer and the
reader take their steps in any order. -/

namespace SysProg.ByteStream

variable {R W β : Type*}

structure Channel (W R β : Type*) where
  writer : W
  items : List β
  reader : R

inductive ChannelStep (capacity : ℕ) (N : Writer W β) (M : Reader R β) :
    Channel W R β → Channel W R β → Prop
  | writes {w w' : W} {items items' : List β} {r : R}
      (hwrite : WriteStep N (w, items) (w', items')) (hroom : items'.length ≤ capacity) :
      ChannelStep capacity N M ⟨w, items, r⟩ ⟨w', items', r⟩
  | reads {w : W} {items items' : List β} {r r' : R}
      (hread : ReadStep M (r, items) (r', items')) :
      ChannelStep capacity N M ⟨w, items, r⟩ ⟨w, items', r'⟩

/-- The reader is to read what is in the channel and then what is still to be written. -/
structure Connected (offers : W → List β → Prop) (expects : R → List β → Prop)
    (pending : List β) (s : Channel W R β) : Prop where
  offers : offers s.writer pending
  expects : expects s.reader (s.items ++ pending)

variable {capacity : ℕ} {N : Writer W β} {M : Reader R β} {offers : W → List β → Prop}
  {expects : R → List β → Prop} {pending : List β} {s t : Channel W R β}

/-- An item is moved twice, by a write and by a read. -/
theorem Connected.step (h : Connected offers expects pending s) (hN : N.Offers offers)
    (hM : M.Expects expects) (hstep : ChannelStep capacity N M s t) :
    ∃ pending', Connected offers expects pending' t ∧
      2 * pending'.length + t.items.length < 2 * pending.length + s.items.length := by
  obtain ⟨hoffers, hexpects⟩ := h
  cases hstep with
  | @writes w w' items items' r hwrite hroom =>
      cases hwrite with
      | @write _ k bs _ hoffer hpos hle hwhole =>
          obtain ⟨rest, rfl, hrest⟩ := hN.write hoffers hoffer hpos hle hwhole
          have htake : (bs.take k).length = k := List.length_take_of_le hle
          refine ⟨rest, ⟨hrest, ?_⟩, ?_⟩
          · rw [List.append_assoc]
            exact hexpects
          · simp only [List.length_append, htake]
            omega
  | @reads w items items' r r' hread =>
      cases hread with
      | @read _ n bs _ hask hne hle hwhole =>
          have hpos := List.length_pos_iff.mpr hne
          refine ⟨pending, ⟨hoffers, ?_⟩, ?_⟩
          · rw [List.append_assoc] at hexpects
            exact hM.step r n bs _ hexpects hask hne hle hwhole
          · simp only [List.length_append]
            omega

/-- The reader can go on when there are items in the channel, and the writer when there are none. -/
theorem Connected.progress (h : Connected offers expects pending s) (hN : N.Offers offers)
    (hM : M.Expects expects) (hwritten : ∀ w, ¬ N.whole w) (hread : ∀ r, ¬ M.whole r)
    (hcapacity : 0 < capacity) (hne : s.items ++ pending ≠ []) :
    ∃ t, ChannelStep capacity N M s t := by
  obtain ⟨w, items, r⟩ := s
  obtain ⟨hoffers, hexpects⟩ := h
  by_cases hempty : items = []
  · subst hempty
    obtain ⟨bs, hoffer, hbs, -⟩ := hN.offered w pending hoffers hne
    have hpos := List.length_pos_iff.mpr hbs
    refine ⟨_, .writes (.write hoffer Nat.one_pos hpos fun hw => absurd hw (hwritten w)) ?_⟩
    rw [List.nil_append, List.length_take_of_le hpos]
    exact hcapacity
  · obtain ⟨n, hask, hpos, -⟩ := hM.asked r _ hexpects hne
    have htake : items.take n ≠ [] := by
      rw [ne_eq, List.take_eq_nil_iff, not_or]
      exact ⟨hpos.ne', hempty⟩
    have hstep : ReadStep M (r, items.take n ++ items.drop n)
        (M.onRead r (items.take n), items.drop n) :=
      .read hask htake (List.length_take_le n items) fun hw => absurd hw (hread r)
    rw [List.take_append_drop] at hstep
    exact ⟨_, .reads hstep⟩

/-- In every order of the steps all items are written and read. -/
theorem Connected.leads (h : Connected offers expects pending s) (hN : N.Offers offers)
    (hM : M.Expects expects) (hwritten : ∀ w, ¬ N.whole w) (hread : ∀ r, ¬ M.whole r)
    (hcapacity : 0 < capacity) :
    Leads (ChannelStep capacity N M) (fun t => Connected offers expects [] t ∧ t.items = []) s := by
  refine Leads.of_ranking (I := fun s m => ∃ pending, Connected offers expects pending s ∧
    2 * pending.length + s.items.length = m) ?_ ?_ s _ ⟨pending, h, rfl⟩
  · rintro s m ⟨pending, h, -⟩
    by_cases hne : s.items ++ pending = []
    · obtain ⟨hitems, rfl⟩ := List.append_eq_nil_iff.mp hne
      exact .inl ⟨h, hitems⟩
    · exact .inr (h.progress hN hM hwritten hread hcapacity hne)
  · rintro s t m ⟨pending, h, rfl⟩ hstep
    obtain ⟨pending', h', hlt⟩ := h.step hN hM hstep
    exact .inr ⟨_, hlt, pending', h', rfl⟩

end SysProg.ByteStream
