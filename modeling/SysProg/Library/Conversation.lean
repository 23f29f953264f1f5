import SysProg.Library.ByteStream

/-! # Two parties that take turns

Two parties are connected by a channel in each direction. The items of a conversation are
written alternately by one party and read by the other one. A role is what a party has to do
for that: while one party speaks the other one expects what is spoken, so only the item
that is spoken is ever on its way. -/

namespace SysProg.ByteStream

variable {P Q β : Type*}

/-- A program that reads, writes or takes a step by itself, one at a time. -/
structure Party (P β : Type*) where
  reader : Reader P β
  writer : Writer P β
  thinks : P → Option P
  offered_of_asked : ∀ p, reader.asked p ≠ none → writer.offered p = none
  asked_of_thinks : ∀ p, thinks p ≠ none → reader.asked p = none
  offered_of_thinks : ∀ p, thinks p ≠ none → writer.offered p = none

theorem Party.asked_of_offered (A : Party P β) {p : P} (h : A.writer.offered p ≠ none) :
    A.reader.asked p = none := by
  by_contra hask
  exact h (A.offered_of_asked p hask)

theorem Party.thinks_of_offered (A : Party P β) {p : P} (h : A.writer.offered p ≠ none) :
    A.thinks p = none := by
  by_contra hthinks
  exact h (A.offered_of_thinks p hthinks)

theorem Party.thinks_of_asked (A : Party P β) {p : P} (h : A.reader.asked p ≠ none) :
    A.thinks p = none := by
  by_contra hthinks
  exact h (A.asked_of_thinks p hthinks)

/-- `up` carries what the left party writes, `down` what the right party writes. -/
structure Duplex (P Q β : Type*) where
  left : P
  right : Q
  up : List β
  down : List β

def Duplex.swap (s : Duplex P Q β) : Duplex Q P β :=
  ⟨s.right, s.left, s.down, s.up⟩

/-- One step of one of the parties. -/
inductive DuplexStep (A : Party P β) (B : Party Q β) : Duplex P Q β → Duplex P Q β → Prop
  | leftThinks {p p' : P} {q : Q} {up down : List β} (hthinks : A.thinks p = some p') :
      DuplexStep A B ⟨p, q, up, down⟩ ⟨p', q, up, down⟩
  | leftWrites {p p' : P} {q : Q} {up up' down : List β}
      (hwrite : WriteStep A.writer (p, up) (p', up')) :
      DuplexStep A B ⟨p, q, up, down⟩ ⟨p', q, up', down⟩
  | leftReads {p p' : P} {q : Q} {up down down' : List β}
      (hread : ReadStep A.reader (p, down) (p', down')) :
      DuplexStep A B ⟨p, q, up, down⟩ ⟨p', q, up, down'⟩
  | rightThinks {p : P} {q q' : Q} {up down : List β} (hthinks : B.thinks q = some q') :
      DuplexStep A B ⟨p, q, up, down⟩ ⟨p, q', up, down⟩
  | rightWrites {p : P} {q q' : Q} {up down down' : List β}
      (hwrite : WriteStep B.writer (q, down) (q', down')) :
      DuplexStep A B ⟨p, q, up, down⟩ ⟨p, q', up, down'⟩
  | rightReads {p : P} {q q' : Q} {up up' down : List β}
      (hread : ReadStep B.reader (q, up) (q', up')) :
      DuplexStep A B ⟨p, q, up, down⟩ ⟨p, q', up', down⟩

variable {A : Party P β} {B : Party Q β}

theorem DuplexStep.swap {s t : Duplex P Q β} (h : DuplexStep A B s t) :
    DuplexStep B A s.swap t.swap := by
  cases h with
  | leftThinks hthinks => exact .rightThinks hthinks
  | leftWrites hwrite => exact .rightWrites hwrite
  | leftReads hread => exact .rightReads hread
  | rightThinks hthinks => exact .leftThinks hthinks
  | rightWrites hwrite => exact .leftWrites hwrite
  | rightReads hread => exact .leftReads hread

/-- The states of a party in a conversation. `items` are the items that follow: `thinking` is
the state before the first of them is written, `sending` and `receiving` have the rest of the
item that is being written or read. -/
structure Role (A : Party P β) where
  thinking : List (List β) → P → Prop
  sending : List (List β) → P → List β → Prop
  receiving : List (List β) → P → List β → Prop
  finished : P → Prop
  rank : P → ℕ
  offers : ∀ items, A.writer.Offers (sending items)
  expects : ∀ items, A.reader.Expects (receiving items)
  thinking_cases : ∀ items p, thinking items p → A.thinks p ≠ none ∨
    (items = [] ∧ finished p) ∨ ∃ item items', items = item :: items' ∧ sending items' p item
  thinking_step : ∀ items p p', thinking items p → A.thinks p = some p' →
    thinking items p' ∧ rank p' < rank p
  sent : ∀ item items p, sending (item :: items) p [] → receiving items p item
  sent_last : ∀ p, sending [] p [] → finished p
  received : ∀ items p, receiving items p [] → thinking items p
  finished_thinks : ∀ p, finished p → A.thinks p = none
  finished_offered : ∀ p, finished p → A.writer.offered p = none
  finished_asked : ∀ p, finished p → A.reader.asked p = none

/-- The party waits for the first of the items, or it has finished. -/
def Role.awaits (rA : Role A) : List (List β) → P → Prop
  | [], p => rA.finished p
  | item :: items, p => rA.receiving items p item

theorem Role.sending_nil (rA : Role A) {items : List (List β)} {p : P}
    (h : rA.sending items p []) : rA.awaits items p := by
  cases items with
  | nil => exact rA.sent_last p h
  | cons item items => exact rA.sent item items p h

theorem Role.receiving_asked (rA : Role A) {items : List (List β)} {p : P} {rest : List β}
    (h : rA.receiving items p rest) (hne : rest ≠ []) : A.reader.asked p ≠ none := by
  obtain ⟨n, hask, -⟩ := (rA.expects items).asked p rest h hne
  simp [hask]

theorem Role.awaits_thinks (rA : Role A) {items : List (List β)} {p : P} (hne : [] ∉ items)
    (h : rA.awaits items p) : A.thinks p = none := by
  cases items with
  | nil => exact rA.finished_thinks p h
  | cons item items =>
      exact A.thinks_of_asked (rA.receiving_asked h fun hnil => hne (by simp [hnil]))

theorem Role.awaits_offered (rA : Role A) {items : List (List β)} {p : P} (hne : [] ∉ items)
    (h : rA.awaits items p) : A.writer.offered p = none := by
  cases items with
  | nil => exact rA.finished_offered p h
  | cons item items =>
      exact A.offered_of_asked p (rA.receiving_asked h fun hnil => hne (by simp [hnil]))

/-- The left party speaks: it thinks, or it writes an item of the script, of which the right
party is to read what is on the channel and what is still to be written. The numbers are
what is left to do. -/
inductive Speaks (rA : Role A) (rB : Role B) (script : List (List β)) :
    Duplex P Q β → ℕ ×ₗ ℕ → Prop
  | thinks {items : List (List β)} {p : P} {q : Q} (hsuffix : items <:+ script)
      (hleft : rA.thinking items p) (hright : rB.awaits items q) :
      Speaks rA rB script ⟨p, q, [], []⟩ (toLex (2 * items.flatten.length, rA.rank p))
  | sends {item rest : List β} {items : List (List β)} {p : P} {q : Q} {up : List β}
      (hsuffix : item :: items <:+ script) (hitem : up ++ rest <:+ item) (hne : up ++ rest ≠ [])
      (hleft : rA.sending items p rest) (hright : rB.receiving items q (up ++ rest)) :
      Speaks rA rB script ⟨p, q, up, []⟩
        (toLex (rest.length + (up ++ rest).length + 2 * items.flatten.length, 0))

/-- One of the parties speaks. -/
def Talking (rA : Role A) (rB : Role B) (script : List (List β)) (s : Duplex P Q β)
    (m : ℕ ×ₗ ℕ) : Prop :=
  Speaks rA rB script s m ∨ Speaks rB rA script s.swap m

/-- Both parties have finished and nothing is left on the channels. -/
structure Finished (rA : Role A) (rB : Role B) (s : Duplex P Q β) : Prop where
  left : rA.finished s.left
  right : rB.finished s.right
  up : s.up = []
  down : s.down = []

variable {rA : Role A} {rB : Role B} {script : List (List β)}

theorem lex_lt {a b c d : ℕ} (h : a < b) : toLex (a, c) < toLex (b, d) :=
  Prod.Lex.toLex_lt_toLex.mpr (.inl h)

/-- Nothing is read from an empty channel. -/
theorem not_readStep_nil {R : Type*} {M : Reader R β} {r : R} {s : R × List β} :
    ¬ ReadStep M (r, []) s := by
  intro hread
  generalize hs : ((r, []) : R × List β) = s at hread
  cases hread with
  | read hask hbs =>
      obtain ⟨-, hnil⟩ := Prod.mk.inj hs
      exact absurd (List.append_eq_nil_iff.mp hnil.symm).1 hbs

theorem sends_progress (up : List β) {rest : List β} {items : List (List β)} {p : P} {q : Q}
    (hne : up ++ rest ≠ []) (hleft : rA.sending items p rest)
    (hright : rB.receiving items q (up ++ rest)) :
    ∃ t, DuplexStep A B ⟨p, q, up, []⟩ t := by
  by_cases hrest : rest = []
  · rw [hrest, List.append_nil] at hne hright
    obtain ⟨n, hask, hpos, hn⟩ := (rB.expects items).asked q up hright hne
    have htake : (up.take n).length = n := List.length_take_of_le hn
    have hread : ReadStep B.reader (q, up.take n ++ up.drop n) _ :=
      .read hask (List.ne_nil_of_length_pos (by omega)) htake.le fun _ => htake
    rw [List.take_append_drop] at hread
    exact ⟨_, .rightReads hread⟩
  · obtain ⟨bs, hoffer, hbs, -⟩ := (rA.offers items).offered p rest hleft hrest
    exact ⟨_, .leftWrites (.write hoffer (List.length_pos_iff.mpr hbs) le_rfl fun _ => rfl)⟩

theorem Speaks.progress (hitems : [] ∉ script) {s : Duplex P Q β} {m : ℕ ×ₗ ℕ}
    (h : Speaks rA rB script s m) : Finished rA rB s ∨ ∃ t, DuplexStep A B s t := by
  cases h with
  | @thinks items p q hsuffix hleft hright =>
      rcases rA.thinking_cases items p hleft with hthinks | ⟨rfl, hfinished⟩ |
        ⟨item, items', rfl, hsending⟩
      · obtain ⟨p', hp'⟩ := Option.ne_none_iff_exists'.mp hthinks
        exact .inr ⟨_, .leftThinks hp'⟩
      · exact .inl ⟨hfinished, hright, rfl, rfl⟩
      · have hne : item ≠ [] := fun h => hitems (hsuffix.mem (by simp [h]))
        exact .inr (sends_progress [] hne hsending hright)
  | sends hsuffix hitem hne hleft hright => exact .inr (sends_progress _ hne hleft hright)

theorem sends_step (up : List β) (hitems : [] ∉ script) {item rest : List β}
    {items : List (List β)} {p : P} {q : Q} {t : Duplex P Q β} (hsuffix : item :: items <:+ script)
    (hitem : up ++ rest <:+ item) (hne : up ++ rest ≠ []) (hleft : rA.sending items p rest)
    (hright : rB.receiving items q (up ++ rest)) (hstep : DuplexStep A B ⟨p, q, up, []⟩ t) :
    ∃ m < toLex (rest.length + (up ++ rest).length + 2 * items.flatten.length, 0),
      Talking rA rB script t m := by
  have htail : [] ∉ items := fun h => hitems (hsuffix.mem (by simp [h]))
  have hask := rB.receiving_asked hright hne
  cases hstep with
  | leftThinks hthinks =>
      by_cases hrest : rest = []
      · subst hrest
        simp [rA.awaits_thinks htail (rA.sending_nil hleft)] at hthinks
      · obtain ⟨bs, hoffer, -⟩ := (rA.offers items).offered p rest hleft hrest
        simp [A.thinks_of_offered (p := p) (by simp [hoffer])] at hthinks
  | leftWrites hwrite =>
      cases hwrite with
      | @write _ k bs _ hoffer hpos hle hwhole =>
          obtain ⟨rest', rfl, hleft'⟩ := (rA.offers items).write hleft hoffer hpos hle hwhole
          have htake : (bs.take k).length = k := List.length_take_of_le hle
          rw [← List.append_assoc] at hitem hne hright
          refine ⟨_, ?_, .inl (.sends hsuffix hitem hne hleft' hright)⟩
          apply lex_lt
          simp only [List.length_append, htake]
          omega
  | leftReads hread => exact absurd hread not_readStep_nil
  | rightThinks hthinks => simp [B.thinks_of_asked hask] at hthinks
  | rightWrites hwrite =>
      cases hwrite with
      | write hoffer => simp [B.offered_of_asked q hask] at hoffer
  | @rightReads _ _ _ _ up' _ hread =>
      generalize hs : (q, up) = s at hread
      cases hread with
      | @read _ n bs _ hask' hbs hle hwhole =>
          obtain ⟨rfl, rfl⟩ := Prod.mk.inj hs
          have hpos : 0 < bs.length := List.length_pos_iff.mpr hbs
          rw [List.append_assoc] at hitem hright
          have hright' := (rB.expects items).step q n bs (up' ++ rest) hright hask' hbs hle hwhole
          by_cases hlast : up' ++ rest = []
          · obtain ⟨rfl, rfl⟩ := List.append_eq_nil_iff.mp hlast
            have hthinks := rB.received items _ hright'
            have hawaits := rA.sending_nil hleft
            have htail' : items <:+ script := (List.suffix_cons item items).trans hsuffix
            refine ⟨_, ?_, .inr (.thinks htail' hthinks hawaits)⟩
            apply lex_lt
            simp only [List.length_append, List.length_nil]
            omega
          · have hitem' : up' ++ rest <:+ item := (List.suffix_append bs _).trans hitem
            refine ⟨_, ?_, .inl (.sends hsuffix hitem' hlast hleft hright')⟩
            apply lex_lt
            simp only [List.length_append]
            omega

/-- On empty channels only the speaker takes a step. -/
theorem speaker_steps {items : List (List β)} {p : P} {q : Q} {t : Duplex P Q β}
    (hitems : [] ∉ items) (hright : rB.awaits items q) (hstep : DuplexStep A B ⟨p, q, [], []⟩ t) :
    (∃ p', A.thinks p = some p' ∧ t = ⟨p', q, [], []⟩) ∨ A.writer.offered p ≠ none := by
  cases hstep with
  | leftThinks hthinks => exact .inl ⟨_, hthinks, rfl⟩
  | leftWrites hwrite =>
      cases hwrite with
      | write hoffer => exact .inr (by simp [hoffer])
  | leftReads hread => exact absurd hread not_readStep_nil
  | rightThinks hthinks => simp [rB.awaits_thinks hitems hright] at hthinks
  | rightWrites hwrite =>
      cases hwrite with
      | write hoffer => simp [rB.awaits_offered hitems hright] at hoffer
  | rightReads hread => exact absurd hread not_readStep_nil

theorem Speaks.step (hitems : [] ∉ script) {s t : Duplex P Q β} {m : ℕ ×ₗ ℕ}
    (h : Speaks rA rB script s m) (hstep : DuplexStep A B s t) :
    ∃ m' < m, Talking rA rB script t m' := by
  cases h with
  | @thinks items p q hsuffix hleft hright =>
      have htail : [] ∉ items := fun h => hitems (hsuffix.mem h)
      rcases rA.thinking_cases items p hleft with hthinks | ⟨rfl, hfinished⟩ |
        ⟨item, items', rfl, hsending⟩
      · rcases speaker_steps htail hright hstep with ⟨p', hp', rfl⟩ | hoffered
        · obtain ⟨hleft', hrank⟩ := rA.thinking_step items p p' hleft hp'
          refine ⟨_, ?_, .inl (.thinks hsuffix hleft' hright)⟩
          exact Prod.Lex.toLex_lt_toLex.mpr (.inr ⟨rfl, hrank⟩)
        · exact absurd (A.offered_of_thinks p hthinks) hoffered
      · rcases speaker_steps htail hright hstep with ⟨p', hp', rfl⟩ | hoffered
        · simp [rA.finished_thinks p hfinished] at hp'
        · exact absurd (rA.finished_offered p hfinished) hoffered
      · have hne : item ≠ [] := fun h => htail (by simp [h])
        obtain ⟨m', hlt, hm'⟩ := sends_step [] hitems hsuffix (List.suffix_refl item)
          hne hsending hright hstep
        refine ⟨m', hlt.trans_le ?_, hm'⟩
        apply Prod.Lex.toLex_le_toLex.mpr
        simp only [List.nil_append, List.flatten_cons, List.length_append]
        rcases Nat.eq_zero_or_pos (rA.rank p) with hzero | hpos
        · exact .inr ⟨by omega, by omega⟩
        · exact .inr ⟨by omega, hpos.le⟩
  | sends hsuffix hitem hne hleft hright =>
      exact sends_step _ hitems hsuffix hitem hne hleft hright hstep

theorem Talking.progress (hitems : [] ∉ script) {s : Duplex P Q β} {m : ℕ ×ₗ ℕ}
    (h : Talking rA rB script s m) : Finished rA rB s ∨ ∃ t, DuplexStep A B s t := by
  rcases h with h | h
  · exact h.progress hitems
  · refine (h.progress hitems).imp ?_ ?_
    · intro hfinished
      exact ⟨hfinished.right, hfinished.left, hfinished.down, hfinished.up⟩
    · intro ⟨t, ht⟩
      exact ⟨t.swap, ht.swap⟩

theorem Talking.step (hitems : [] ∉ script) {s t : Duplex P Q β} {m : ℕ ×ₗ ℕ}
    (h : Talking rA rB script s m) (hstep : DuplexStep A B s t) :
    ∃ m' < m, Talking rA rB script t m' := by
  rcases h with h | h
  · exact h.step hitems hstep
  · obtain ⟨m', hlt, hm'⟩ := h.step hitems hstep.swap
    exact ⟨m', hlt, hm'.symm⟩

/-- A party that has finished takes no step. -/
theorem DuplexStep.left_eq {s t : Duplex P Q β} (hstep : DuplexStep A B s t)
    (hthinks : A.thinks s.left = none) (hoffered : A.writer.offered s.left = none)
    (hasked : A.reader.asked s.left = none) : t.left = s.left := by
  cases hstep with
  | leftThinks hstep => simp [hthinks] at hstep
  | leftWrites hstep =>
      cases hstep with
      | write hoffer => simp [hoffered] at hoffer
  | leftReads hread =>
      cases hread with
      | read hask => simp [hasked] at hask
  | rightThinks _ => rfl
  | rightWrites _ => rfl
  | rightReads _ => rfl

theorem Finished.stuck {s t : Duplex P Q β} (h : Finished rA rB s) : ¬ DuplexStep A B s t := by
  intro hstep
  cases hstep with
  | leftThinks hstep => simp [rA.finished_thinks _ h.left] at hstep
  | leftWrites hstep =>
      cases hstep with
      | write hoffer => simp [rA.finished_offered _ h.left] at hoffer
  | leftReads hread =>
      cases hread with
      | read hask => simp [rA.finished_asked _ h.left] at hask
  | rightThinks hstep => simp [rB.finished_thinks _ h.right] at hstep
  | rightWrites hstep =>
      cases hstep with
      | write hoffer => simp [rB.finished_offered _ h.right] at hoffer
  | rightReads hread =>
      cases hread with
      | read hask => simp [rB.finished_asked _ h.right] at hask

/-! ## Runs -/

theorem Talking.reaches (hitems : [] ∉ script) {s t : Duplex P Q β} {m : ℕ ×ₗ ℕ}
    (h : Talking rA rB script s m) (hrun : Reaches (DuplexStep A B) s t) :
    ∃ m', Talking rA rB script t m' := by
  refine hrun.invariant (I := fun s => ∃ m, Talking rA rB script s m) ?_ ⟨m, h⟩
  intro s t ⟨m, hm⟩ hstep
  obtain ⟨m', -, hm'⟩ := hm.step hitems hstep
  exact ⟨m', hm'⟩

/-- Every run comes to the end of the conversation. -/
theorem Talking.leads (hitems : [] ∉ script) {s : Duplex P Q β} {m : ℕ ×ₗ ℕ}
    (h : Talking rA rB script s m) : Leads (DuplexStep A B) (Finished rA rB) s := by
  refine Leads.of_ranking (I := Talking rA rB script) ?_ ?_ s m h
  · intro s m hm
    exact hm.progress hitems
  · intro s t m hm hstep
    exact .inr (hm.step hitems hstep)

/-- One channel is empty and the other one has a part of one item. -/
theorem Speaks.inFlight {s : Duplex P Q β} {m : ℕ ×ₗ ℕ} (h : Speaks rA rB script s m) :
    s.down = [] ∧ (s.up = [] ∨ ∃ item ∈ script, s.up <:+: item) := by
  cases h with
  | thinks hsuffix hleft hright => exact ⟨rfl, .inl rfl⟩
  | @sends item rest items p q up hsuffix hitem hne hleft hright =>
      refine ⟨rfl, .inr ⟨item, hsuffix.mem (by simp), ?_⟩⟩
      exact (List.prefix_append up rest).isInfix.trans hitem.isInfix

theorem Talking.inFlight {s : Duplex P Q β} {m : ℕ ×ₗ ℕ} (h : Talking rA rB script s m) :
    (s.up = [] ∨ s.down = []) ∧ (s.up ++ s.down = [] ∨ ∃ item ∈ script, s.up ++ s.down <:+: item) := by
  rcases h with h | h
  · obtain ⟨hdown, hup⟩ := h.inFlight
    rw [hdown, List.append_nil]
    exact ⟨.inr rfl, hup⟩
  · obtain ⟨hup, hdown⟩ := h.inFlight
    change s.up = [] at hup
    rw [hup, List.nil_append]
    exact ⟨.inl rfl, hdown⟩

/-- On empty channels the two parties do not both wait. -/
theorem Speaks.not_both_wait (hitems : [] ∉ script) {s : Duplex P Q β} {m : ℕ ×ₗ ℕ}
    (h : Speaks rA rB script s m) (hempty : s.up = []) (hask : A.reader.asked s.left ≠ none) :
    False := by
  cases h with
  | @thinks items p q hsuffix hleft hright =>
      rcases rA.thinking_cases items p hleft with hthinks | ⟨rfl, hfinished⟩ |
        ⟨item, items', rfl, hsending⟩
      · exact hask (A.asked_of_thinks p hthinks)
      · exact hask (rA.finished_asked p hfinished)
      · have hne : item ≠ [] := fun h => hitems (hsuffix.mem (by simp [h]))
        obtain ⟨bs, hoffer, -⟩ := (rA.offers items').offered p item hsending hne
        exact hask (A.asked_of_offered (by simp [hoffer]))
  | @sends item rest items p q up hsuffix hitem hne hleft hright =>
      obtain rfl : up = [] := hempty
      obtain ⟨bs, hoffer, -⟩ := (rA.offers items).offered p rest hleft hne
      exact hask (A.asked_of_offered (by simp [hoffer]))

/-- The states that belong to a role. -/
def Role.Plays (rA : Role A) (p : P) : Prop :=
  (∃ items, rA.thinking items p) ∨ (∃ items rest, rA.sending items p rest) ∨
    (∃ items rest, rA.receiving items p rest) ∨ rA.finished p

theorem Talking.left_plays {s : Duplex P Q β} {m : ℕ ×ₗ ℕ} (h : Talking rA rB script s m) :
    rA.Plays s.left := by
  obtain ⟨p, q, up, down⟩ := s
  rcases h with h | h
  · cases h with
    | thinks hsuffix hleft hright => exact .inl ⟨_, hleft⟩
    | sends hsuffix hitem hne hleft hright => exact .inr (.inl ⟨_, _, hleft⟩)
  · cases h with
    | @thinks items _ _ hsuffix hleft hright =>
        cases items with
        | nil => exact .inr (.inr (.inr hright))
        | cons item items => exact .inr (.inr (.inl ⟨_, _, hright⟩))
    | sends hsuffix hitem hne hleft hright => exact .inr (.inr (.inl ⟨_, _, hright⟩))

end SysProg.ByteStream
