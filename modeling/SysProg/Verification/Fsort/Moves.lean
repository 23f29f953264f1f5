import SysProg.Library.Interleaving
import SysProg.Verification.Fsort.Correctness

/-! # The permutation step by step

The permutation as a program that makes one test of a loop after the other. During a cycle slot
`j` is a hole: what belongs there is in `flash_ptr`. -/

namespace SysProg.Fsort

variable {α : Type} {cls : α → ℕ} {lsize : ℕ} {input : List α}

/-- One test in the permutation and what follows it up to the next test, or `none` at the end.
Within the inner loop there is an element in `flash_ptr`. -/
def permuteStep (cls : α → ℕ) (nmemb : ℕ) :
    Flash α × Option α → Run (Option (Flash α × Option α))
  | (s, none) =>
    if s.nmove < nmemb - 1 then do
      let lk ← load s.l s.k
      if s.j ≥ lk then do
        let x ← load s.base (s.j + 1)
        .ok (some ({ s with j := s.j + 1, k := cls x }, none))
      else do
        let flash ← load s.base s.j
        .ok (some (s, some flash))
    else .ok none
  | (s, some flash) => do
    let lk ← load s.l s.k
    if s.j ≠ lk then do
      let k := cls flash
      let lk ← load s.l k
      if lk = 0 then .error .overflow
      else do
        let x ← load s.base (lk - 1)
        .ok (some
          ({ s with
            base := s.base.set (lk - 1) flash
            l := s.l.set k (lk - 1)
            k := k
            nmove := s.nmove + 1 }, some x))
    else .ok (some (s, none))

/-- The next test. -/
def Moves (cls : α → ℕ) (nmemb : ℕ) (s t : Flash α × Option α) : Prop :=
  permuteStep cls nmemb s = .ok (some t)

/-- The array with the element that fills the hole. -/
def contents : Flash α × Option α → List α
  | (s, none) => s.base
  | (s, some flash) => if s.l[s.k]? = some s.j then s.base else s.base.set s.j flash

/-! ## The loops make these steps -/

theorem scanLoop_reaches {nmemb fuel : ℕ} {s t : Flash α} (hmore : s.nmove < nmemb - 1)
    (h : scanLoop cls fuel s = .ok t) :
    Reaches (Moves cls nmemb) (s, none) (t, none) ∧ t.nmove = s.nmove ∧
      ∃ lk, load t.l t.k = .ok lk ∧ t.j < lk := by
  induction fuel generalizing s with
  | zero => cases h
  | succ fuel ih =>
      obtain ⟨lk, hlk, h⟩ := Run.bind_eq_ok h
      split at h
      · next hge =>
          obtain ⟨x, hx, h⟩ := Run.bind_eq_ok h
          obtain ⟨hrun, hnmove, hend⟩ := ih (s := { s with j := s.j + 1, k := cls x }) hmore h
          refine ⟨hrun.head ?_, hnmove, hend⟩
          simp [Moves, permuteStep, hmore, hlk, hge, hx]
      · next hlt =>
          obtain rfl := Except.ok.inj h
          exact ⟨.refl, rfl, lk, hlk, not_le.mp hlt⟩

theorem cycleLoop_reaches {nmemb fuel : ℕ} {s t : Flash α} {flash : α}
    (h : cycleLoop cls fuel s flash = .ok t) :
    Reaches (Moves cls nmemb) (s, some flash) (t, none) := by
  induction fuel generalizing s flash with
  | zero => cases h
  | succ fuel ih =>
      obtain ⟨lk, hlk, h⟩ := Run.bind_eq_ok h
      split at h
      · next hne =>
          obtain ⟨lk', hlk', h⟩ := Run.bind_eq_ok h
          split at h
          · cases h
          · next hpos =>
              obtain ⟨x, hx, h⟩ := Run.bind_eq_ok h
              refine (ih h).head ?_
              simp [Moves, permuteStep, hlk, hne, hlk', hpos, hx]
      · next heq =>
          obtain rfl := Except.ok.inj h
          refine .single ?_
          simp [Moves, permuteStep, hlk, not_not.mp heq]

theorem permuteLoop_reaches {nmemb fuel : ℕ} {s t : Flash α}
    (h : permuteLoop cls nmemb fuel s = .ok t) :
    Reaches (Moves cls nmemb) (s, none) (t, none) ∧ permuteStep cls nmemb (t, none) = .ok none := by
  induction fuel generalizing s with
  | zero => cases h
  | succ fuel ih =>
      rw [permuteLoop] at h
      split at h
      · next hmore =>
          obtain ⟨u, hscan, h⟩ := Run.bind_eq_ok h
          obtain ⟨flash, hflash, h⟩ := Run.bind_eq_ok h
          obtain ⟨v, hcycle, h⟩ := Run.bind_eq_ok h
          obtain ⟨hscan', hnmove, lk, hlk, hlt⟩ := scanLoop_reaches hmore hscan
          have hlead : Moves cls nmemb (u, none) (u, some flash) := by
            simp [Moves, permuteStep, hnmove, hmore, hlk, not_le.mpr hlt, hflash]
          obtain ⟨hrest, hdone⟩ := ih h
          exact ⟨(hscan'.tail hlead).trans ((cycleLoop_reaches hcycle).trans hrest), hdone⟩
      · next hdone =>
          obtain rfl := Except.ok.inj h
          exact ⟨.refl, by rw [permuteStep, if_neg hdone]⟩

/-! ## Every step -/

/-- The slots before `j` are filled, and the array with the element in hand keeps the
invariant of the permutation. -/
structure Midway (cls : α → ℕ) (lsize : ℕ) (input : List α) (ends : ℕ → ℕ)
    (s : Flash α × Option α) : Prop where
  filling : Filling cls lsize input (contents s) ends
  l_eq : s.1.l = endsList lsize ends
  scanned : Scanned cls lsize input ends s.1.j s.1.k
  j_lt : s.1.j < input.length
  cycle : s.2.isSome → s.1.j ≤ ends s.1.k
  moved : s.1.nmove + freeSlots cls lsize input ends = input.length

variable {ends : ℕ → ℕ}

theorem getElem?_endsList {l : List ℕ} {k : ℕ} (hl : l = endsList lsize ends) (hk : k < lsize) :
    l[k]? = some (ends k) :=
  load_eq_ok_iff.mp (load_endsList hl hk)

theorem Midway.contents_some {s : Flash α} {flash : α}
    (h : Midway cls lsize input ends (s, some flash)) :
    contents (s, some flash) = if ends s.k = s.j then s.base else s.base.set s.j flash := by
  simp only [contents, getElem?_endsList h.l_eq h.scanned.class_lt, Option.some.injEq]

/-- The scan goes on or finds the next cycle. -/
theorem Midway.step_scan (hcls : ∀ x ∈ input, cls x < lsize) {s : Flash α}
    (h : Midway cls lsize input ends (s, none)) (hmore : s.nmove < input.length - 1) :
    ∃ t, permuteStep cls input.length (s, none) = .ok (some t) ∧
      Midway cls lsize input ends t := by
  have hmoved : s.nmove + freeSlots cls lsize input ends = input.length := h.moved
  have hfilling : Filling cls lsize input s.base ends := h.filling
  rw [permuteStep, if_pos hmore, load_endsList h.l_eq h.scanned.class_lt, Run.ok_bind]
  by_cases hge : s.j ≥ ends s.k
  · have hpos : 0 < freeSlots cls lsize input ends := by omega
    obtain ⟨p, hp⟩ := exists_free hpos
    have hbefore := h.scanned.before_succ hge
    have hlt : s.j + 1 < s.base.length := by
      have hpj : ¬ p < s.j + 1 := fun hlt => hbefore p hlt hp
      have hpl := hfilling.free_lt hp
      rw [hfilling.length_eq]
      omega
    have hx : s.base[s.j + 1]? = some s.base[s.j + 1] := List.getElem?_eq_getElem hlt
    rw [if_pos hge, load_eq_ok hx, Run.ok_bind]
    refine ⟨_, rfl, hfilling, h.l_eq, ⟨hfilling.cls_lt hcls hx, hbefore,
      hfilling.free_iff hcls hbefore hx⟩, ?_, by simp, h.moved⟩
    rwa [← hfilling.length_eq]
  · have hlt : s.j < s.base.length := by
      rw [hfilling.length_eq]
      exact h.j_lt
    rw [if_neg hge, load_of_lt hlt, Run.ok_bind]
    refine ⟨_, rfl, ?_, h.l_eq, h.scanned, h.j_lt, fun _ => (not_le.mp hge).le, h.moved⟩
    have hcontents : contents (s, some s.base[s.j]) = s.base := by
      simp [contents]
    rwa [hcontents]

/-- The element in hand belongs to a class with a free slot. -/
theorem Midway.room (hcls : ∀ x ∈ input, cls x < lsize) {s : Flash α} {flash : α}
    (h : Midway cls lsize input ends (s, some flash)) (hne : s.j ≠ ends s.k) :
    Filling cls lsize input (s.base.set s.j flash) ends ∧ Free cls lsize input ends s.j ∧
      cls flash < lsize ∧ startOf cls input (cls flash) < ends (cls flash) := by
  have hfilling := h.filling
  rw [h.contents_some, if_neg (Ne.symm hne)] at hfilling
  have hcycle : s.j ≤ ends s.k := h.cycle rfl
  have hfree : Free cls lsize input ends s.j := h.scanned.here.mpr (lt_of_le_of_ne hcycle hne)
  obtain ⟨hc, hroom, _⟩ := hfilling.exchange_hole hcls hfree
  exact ⟨hfilling, hfree, hc, hroom⟩

/-- The element in hand goes to its slot, or the cycle is closed. -/
theorem Midway.step_cycle (hcls : ∀ x ∈ input, cls x < lsize) {s : Flash α} {flash : α}
    (h : Midway cls lsize input ends (s, some flash)) :
    ∃ t ends', permuteStep cls input.length (s, some flash) = .ok (some t) ∧
      Midway cls lsize input ends' t := by
  have hmoved : s.nmove + freeSlots cls lsize input ends = input.length := h.moved
  rw [permuteStep, load_endsList h.l_eq h.scanned.class_lt, Run.ok_bind]
  by_cases hne : s.j ≠ ends s.k
  · obtain ⟨hfilling, hj, hc, hroom⟩ := h.room hcls hne
    obtain ⟨_, _, hql, hnew⟩ := hfilling.exchange_hole hcls hj
    have hfree := hfilling.free_exchange hc hroom hj
    have hcount := freeSlots_exchange hc hroom
    have hl : s.l = endsList lsize ends := h.l_eq
    -- no slot before `j` is free, and the slot to be filled is
    have hle : s.j ≤ ends (cls flash) - 1 := by
      by_contra hlt
      exact h.scanned.before _ (not_le.mp hlt) ⟨cls flash, hc, by omega, by omega⟩
    simp only [if_pos hne, load_endsList hl hc, Run.ok_bind, load_of_lt hql]
    rw [if_neg (by omega), hl, endsList_set hc]
    refine ⟨_, Function.update ends (cls flash) (ends (cls flash) - 1), rfl, ?_, rfl,
      ⟨hc, fun p hp hp' => h.scanned.before p hp hp'.of_exchange, ?_⟩, h.j_lt, ?_, ?_⟩
    · simp only [contents, getElem?_endsList rfl hc, Function.update_self, Option.some.injEq]
      simpa only [eq_comm] using hnew
    · rw [hfree, Function.update_self]
      exact ⟨fun hne => lt_of_le_of_ne hle hne, ne_of_lt⟩
    · intro _
      rwa [Function.update_self]
    · simp only
      omega
  · have hend := not_not.mp hne
    rw [if_neg hne]
    refine ⟨_, ends, rfl, ?_, h.l_eq, h.scanned, h.j_lt, by simp, h.moved⟩
    have hfilling := h.filling
    rwa [h.contents_some, if_pos hend.symm] at hfilling

/-- What is asked of every state of the permutation: `j` is a slot of the array, where the next
step takes `l[k] - 1` the class `k` has a free slot, no element is lost or doubled, and the next
step meets no fault. -/
structure Safe (cls : α → ℕ) (input : List α) (s : Flash α × Option α) : Prop where
  j_lt : s.1.j < input.length
  above : ∀ flash, s.2 = some flash → s.1.l[s.1.k]? ≠ some s.1.j →
    ∃ lk, s.1.l[cls flash]? = some lk ∧ startOf cls input (cls flash) < lk
  perm : (contents s).Perm input
  runs : ∃ next, permuteStep cls input.length s = .ok next

theorem Midway.moves (hcls : ∀ x ∈ input, cls x < lsize) {s t : Flash α × Option α}
    (h : Midway cls lsize input ends s) (hstep : Moves cls input.length s t) :
    ∃ ends', Midway cls lsize input ends' t := by
  obtain ⟨s, _ | flash⟩ := s
  · by_cases hmore : s.nmove < input.length - 1
    · obtain ⟨u, hu, hnext⟩ := h.step_scan hcls hmore
      obtain rfl := Option.some.inj (Except.ok.inj (hu.symm.trans hstep))
      exact ⟨ends, hnext⟩
    · rw [Moves, permuteStep, if_neg hmore] at hstep
      cases hstep
  · obtain ⟨u, ends', hu, hnext⟩ := h.step_cycle hcls
    obtain rfl := Option.some.inj (Except.ok.inj (hu.symm.trans hstep))
    exact ⟨ends', hnext⟩

theorem Midway.safe (hcls : ∀ x ∈ input, cls x < lsize) {s : Flash α × Option α}
    (h : Midway cls lsize input ends s) : Safe cls input s := by
  obtain ⟨s, _ | flash⟩ := s
  · refine ⟨h.j_lt, by simp, h.filling.perm, ?_⟩
    by_cases hmore : s.nmove < input.length - 1
    · obtain ⟨t, ht, _⟩ := h.step_scan hcls hmore
      exact ⟨_, ht⟩
    · exact ⟨none, by rw [permuteStep, if_neg hmore]⟩
  · refine ⟨h.j_lt, ?_, h.filling.perm, ?_⟩
    · intro flash' hflash hne
      obtain rfl := Option.some.inj hflash
      rw [getElem?_endsList h.l_eq h.scanned.class_lt] at hne
      obtain ⟨_, _, hc, hroom⟩ := h.room hcls fun heq => hne (congrArg some heq.symm)
      exact ⟨_, getElem?_endsList h.l_eq hc, hroom⟩
    · obtain ⟨t, ends', ht, _⟩ := h.step_cycle hcls
      exact ⟨_, ht⟩

/-! ## The whole permutation -/

/-- The variables before the permutation, with the cumulated numbers of elements in `l`. -/
def permuteStart (cls : α → ℕ) (lsize : ℕ) (base : List α) : Flash α :=
  ⟨base, endsList lsize fun k => startOf cls base (k + 1), 0, lsize - 1, 0⟩

/-- The permutation ends with every element in a slot of its class, and every state on the way
is safe. -/
theorem permuteLoop_correct (cls : α → ℕ) (lsize : ℕ) (base : List α)
    (hlong : 2 ≤ base.length) (hcls : ∀ x ∈ base, cls x < lsize) :
    (∃ s, permuteLoop cls base.length base.length (permuteStart cls lsize base) = .ok s ∧
      Reaches (Moves cls base.length) (permuteStart cls lsize base, none) (s, none) ∧
      permuteStep cls base.length (s, none) = .ok none ∧ s.base.Perm base ∧
      ∀ p x k, s.base[p]? = some x →
        (cls x = k ↔ startOf cls base k ≤ p ∧ p < startOf cls base (k + 1))) ∧
      Always (Moves cls base.length) (Safe cls base) (permuteStart cls lsize base, none) := by
  have hpos : 0 < base.length := by omega
  have hsize : 0 < lsize := Nat.zero_lt_of_lt (hcls _ (List.getElem_mem hpos))
  obtain ⟨hfilling, hfree⟩ := filling_start hcls (List.Perm.refl base)
  have hscanned := scanned_start hcls hsize hpos
  constructor
  · obtain ⟨s, ends, hpermute, hdone, hone⟩ := permuteLoop_spec hcls base.length
      (s := permuteStart cls lsize base) hfilling rfl hscanned (by simpa [permuteStart] using hfree)
      (by simp) hpos hpos
    obtain ⟨hrun, hend⟩ := permuteLoop_reaches hpermute
    refine ⟨s, hpermute, hrun, hend, hdone.perm, fun p x k hx => ?_⟩
    have hslot := hdone.classes hcls hone hx
    constructor
    · intro hk
      rwa [hk] at hslot
    · intro hk
      exact slot_class_unique hslot.1 hslot.2 hk.1 hk.2
  · have hstart : Midway cls lsize base (fun k => startOf cls base (k + 1))
        (permuteStart cls lsize base, none) :=
      ⟨hfilling, rfl, hscanned, hpos, by simp, by simpa [permuteStart] using hfree⟩
    exact Always.of_invariant (I := fun s => ∃ ends, Midway cls lsize base ends s)
      ⟨_, hstart⟩ (fun _ _ ⟨_, h⟩ hstep => h.moves hcls hstep) fun _ ⟨_, h⟩ => h.safe hcls

/-- Remainders as classes, which do not follow the order of the elements. -/
theorem permuteLoop_correct_remainders :
    Always (Moves (· % 3) 4) (Safe (· % 3) [5, 7, 3, 1]) (permuteStart (· % 3) 3 [5, 7, 3, 1], none) :=
  (permuteLoop_correct (· % 3) 3 [5, 7, 3, 1] (by decide)
    fun x _ => Nat.mod_lt x (by decide)).2

end SysProg.Fsort
