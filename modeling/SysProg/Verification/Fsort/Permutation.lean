import SysProg.Library.DaryHeap
import SysProg.Model.Fsort

/-! # The permutation of flash sort

Class `k` owns the slots from `startOf k` to `startOf (k + 1)`. During the permutation
`ends k` is the number that the array `l` holds for it: its slots from `ends k` on are
filled, those before `ends k` are free. -/

namespace SysProg.Fsort

open List

variable {α : Type} {cls : α → ℕ} {lsize : ℕ} {input : List α}

/-! ## The slots of the classes -/

/-- The number of elements of classes below `k`. -/
def startOf (cls : α → ℕ) (input : List α) (k : ℕ) : ℕ :=
  input.countP (fun x => decide (cls x < k))

@[simp] theorem startOf_zero : startOf cls input 0 = 0 := by
  simp [startOf]

theorem startOf_succ (k : ℕ) :
    startOf cls input (k + 1) =
      startOf cls input k + input.countP (fun x => decide (cls x = k)) := by
  simp only [startOf]
  induction input with
  | nil => rfl
  | cons x input ih =>
      simp only [List.countP_cons, ih]
      rcases lt_trichotomy (cls x) k with h | h | h <;> simp <;> grind

theorem startOf_mono (cls : α → ℕ) (input : List α) {j k : ℕ} (h : j ≤ k) :
    startOf cls input j ≤ startOf cls input k :=
  List.countP_mono_left (by
    intro x _ hx
    simp only [decide_eq_true_eq] at hx ⊢
    omega)

theorem startOf_le_length (cls : α → ℕ) (input : List α) (k : ℕ) : startOf cls input k ≤ input.length :=
  List.countP_le_length

theorem startOf_eq_length (hcls : ∀ x ∈ input, cls x < lsize) :
    startOf cls input lsize = input.length :=
  List.countP_eq_length.mpr (by simpa using hcls)

/-- Every slot below the start of class `k` belongs to a class below `k`. -/
theorem exists_slot_class {p k : ℕ} (hp : p < startOf cls input k) :
    ∃ i < k, startOf cls input i ≤ p ∧ p < startOf cls input (i + 1) := by
  induction k with
  | zero => simp at hp
  | succ k ih =>
      by_cases hlt : p < startOf cls input k
      · obtain ⟨i, hi, hslot⟩ := ih hlt
        exact ⟨i, by omega, hslot⟩
      · exact ⟨k, by omega, by omega, hp⟩

/-- The class that owns a slot is determined. -/
theorem slot_class_unique {p i k : ℕ} (hi : startOf cls input i ≤ p)
    (hi' : p < startOf cls input (i + 1)) (hk : startOf cls input k ≤ p)
    (hk' : p < startOf cls input (k + 1)) : i = k := by
  rcases lt_trichotomy i k with h | h | h
  · have := startOf_mono cls input (show i + 1 ≤ k by omega)
    omega
  · exact h
  · have := startOf_mono cls input (show k + 1 ≤ i by omega)
    omega

/-! ## The invariant -/

/-- The elements `v` are those of the input, and every slot counted as filled holds an
element of the class that owns it. -/
structure Filling (cls : α → ℕ) (lsize : ℕ) (input v : List α) (ends : ℕ → ℕ) : Prop where
  perm : v ~ input
  start_le : ∀ k < lsize, startOf cls input k ≤ ends k
  le_next : ∀ k < lsize, ends k ≤ startOf cls input (k + 1)
  filled : ∀ k < lsize, ∀ p x, ends k ≤ p → p < startOf cls input (k + 1) →
    v[p]? = some x → cls x = k

/-- The slot is still to be filled. -/
def Free (cls : α → ℕ) (lsize : ℕ) (input : List α) (ends : ℕ → ℕ) (p : ℕ) : Prop :=
  ∃ k < lsize, startOf cls input k ≤ p ∧ p < ends k

/-- The number of free slots. -/
def freeSlots (cls : α → ℕ) (lsize : ℕ) (input : List α) (ends : ℕ → ℕ) : ℕ :=
  ∑ k ∈ Finset.range lsize, (ends k - startOf cls input k)

variable {v : List α} {ends : ℕ → ℕ}

theorem Filling.length_eq (h : Filling cls lsize input v ends) :
    v.length = input.length :=
  h.perm.length_eq

theorem Filling.cls_lt (h : Filling cls lsize input v ends)
    (hcls : ∀ x ∈ input, cls x < lsize) {p : ℕ} {x : α} (hx : v[p]? = some x) :
    cls x < lsize :=
  hcls x (h.perm.mem_iff.mp (List.mem_of_getElem? hx))

theorem Filling.free_lt (h : Filling cls lsize input v ends) {p : ℕ}
    (hp : Free cls lsize input ends p) : p < input.length := by
  obtain ⟨k, hk, _, hlt⟩ := hp
  have := h.le_next k hk
  have := startOf_le_length cls input (k + 1)
  omega

/-- A slot that is not free holds an element of the class that owns it. -/
theorem Filling.of_not_free (h : Filling cls lsize input v ends)
    (hcls : ∀ x ∈ input, cls x < lsize) {p : ℕ} {x : α}
    (hp : ¬ Free cls lsize input ends p) (hx : v[p]? = some x) :
    ends (cls x) ≤ p ∧ startOf cls input (cls x) ≤ p ∧
      p < startOf cls input (cls x + 1) := by
  have hlt : p < startOf cls input lsize := by
    rw [startOf_eq_length hcls, ← h.length_eq]
    exact (List.getElem?_eq_some_iff.mp hx).1
  obtain ⟨k, hk, hlow, hhigh⟩ := exists_slot_class hlt
  have hends : ends k ≤ p := by
    by_contra hn
    exact hp ⟨k, hk, hlow, by omega⟩
  obtain rfl : cls x = k := h.filled k hk p x hends hhigh hx
  exact ⟨hends, hlow, hhigh⟩

/-- A list of which a middle part lies in a class and has all its elements does not
have one elsewhere. -/
theorem not_mem_outside {k s e p : ℕ} {x : α} (hse : s ≤ e) (he : e ≤ v.length)
    (hcount : v.countP (fun y => decide (cls y = k)) = e - s)
    (hmiddle : ∀ i y, s ≤ i → i < e → v[i]? = some y → cls y = k)
    (hx : v[p]? = some x) (hk : cls x = k) : s ≤ p ∧ p < e := by
  have hsplit : v = v.take s ++ ((v.drop s).take (e - s) ++ v.drop e) := by
    calc v = v.take s ++ v.drop s := (List.take_append_drop s v).symm
      _ = v.take s ++ ((v.drop s).take (e - s) ++ (v.drop s).drop (e - s)) :=
          congrArg _ (List.take_append_drop (e - s) (v.drop s)).symm
      _ = v.take s ++ ((v.drop s).take (e - s) ++ v.drop e) := by
          rw [List.drop_drop, show s + (e - s) = e by omega]
  have hall : ((v.drop s).take (e - s)).countP (fun y => decide (cls y = k)) = e - s := by
    have hlength : ((v.drop s).take (e - s)).length = e - s := by
      simp only [List.length_take, List.length_drop]
      omega
    rw [← hlength, hlength, List.countP_eq_length.mpr, hlength]
    intro y hy
    obtain ⟨i, hi, rfl⟩ := List.getElem_of_mem hy
    have hlt : i < e - s := by omega
    simp only [decide_eq_true_eq]
    exact hmiddle (s + i) _ (by omega) (by omega)
      (by rw [List.getElem_take, List.getElem_drop, List.getElem?_eq_getElem])
  rw [hsplit, List.countP_append, List.countP_append, hall] at hcount
  by_contra hout
  rcases Nat.lt_or_ge p s with hp | hp
  · have hmem : x ∈ v.take s := by
      refine List.mem_of_getElem? (i := p) ?_
      rwa [List.getElem?_take_of_lt hp]
    have : 0 < (v.take s).countP (fun y => decide (cls y = k)) :=
      List.countP_pos_iff.mpr ⟨x, hmem, by simpa using hk⟩
    omega
  · have hmem : x ∈ v.drop e := by
      refine List.mem_of_getElem? (i := p - e) ?_
      rwa [List.getElem?_drop, show e + (p - e) = p by omega]
    have : 0 < (v.drop e).countP (fun y => decide (cls y = k)) :=
      List.countP_pos_iff.mpr ⟨x, hmem, by simpa using hk⟩
    omega

/-- There is room for the element that stands in a free slot: if its class were full,
one element more than the class has would belong to it. -/
theorem Filling.room (h : Filling cls lsize input v ends)
    (hcls : ∀ x ∈ input, cls x < lsize) {p : ℕ} {x : α}
    (hp : Free cls lsize input ends p) (hx : v[p]? = some x) :
    startOf cls input (cls x) < ends (cls x) := by
  have hc := h.cls_lt hcls hx
  by_contra hfull
  have hcount : v.countP (fun y => decide (cls y = cls x)) =
      startOf cls input (cls x + 1) - startOf cls input (cls x) := by
    rw [h.perm.countP_eq, startOf_succ]
    omega
  obtain ⟨hlow, hhigh⟩ := not_mem_outside (startOf_mono cls input (by omega))
    (h.length_eq ▸ startOf_le_length cls input _) hcount
    (fun i y hi hi' hy => h.filled _ hc i y (by omega) hi' hy) hx rfl
  obtain ⟨k, hk, hlow', hhigh'⟩ := hp
  have hnext := h.le_next k hk
  obtain rfl := slot_class_unique hlow hhigh hlow' (by omega)
  omega

/-- Only slots before the scanned one are free in classes that the scan has passed. -/
theorem Filling.free_iff (h : Filling cls lsize input v ends)
    (hcls : ∀ x ∈ input, cls x < lsize) {j : ℕ} {x : α}
    (hbefore : ∀ p < j, ¬ Free cls lsize input ends p) (hx : v[j]? = some x) :
    Free cls lsize input ends j ↔ j < ends (cls x) := by
  have hc := h.cls_lt hcls hx
  constructor
  · intro hfree
    have hroom := h.room hcls hfree hx
    by_contra hn
    exact hbefore (startOf cls input (cls x)) (by omega) ⟨_, hc, le_rfl, hroom⟩
  · intro hlt
    by_contra hfree
    have := (h.of_not_free hcls hfree hx).1
    omega

/-! ## One exchange -/

/-- The element of the free slot `j` is put into the last free slot of its class. -/
theorem Filling.exchange (h : Filling cls lsize input v ends)
    (hcls : ∀ x ∈ input, cls x < lsize) {j : ℕ} {x : α}
    (hj : Free cls lsize input ends j) (hx : v[j]? = some x) :
    Filling cls lsize input (v.swap j (ends (cls x) - 1))
      (Function.update ends (cls x) (ends (cls x) - 1)) := by
  have hc := h.cls_lt hcls hx
  have hroom := h.room hcls hj hx
  have hnext := h.le_next _ hc
  have hlast := startOf_le_length cls input (cls x + 1)
  have hjl : j < v.length := (List.getElem?_eq_some_iff.mp hx).1
  have hql : ends (cls x) - 1 < v.length := by
    rw [h.length_eq]
    omega
  constructor
  · exact (List.swap_perm v j _).trans h.perm
  · intro k hk
    by_cases hkc : k = cls x
    · subst hkc
      simp only [Function.update_self]
      omega
    · simpa [hkc] using h.start_le k hk
  · intro k hk
    by_cases hkc : k = cls x
    · subst hkc
      simp only [Function.update_self]
      omega
    · simpa [hkc] using h.le_next k hk
  · intro k hk p y hp hp' hy
    rw [getElem?_swap v hjl hql] at hy
    by_cases hpq : p = ends (cls x) - 1
    · have hyx : y = x := by
        by_cases hpj : p = j
        · rw [if_pos hpj, ← hpq, hpj, hx] at hy
          exact (Option.some.inj hy).symm
        · rw [if_neg hpj, if_pos hpq, hx] at hy
          exact (Option.some.inj hy).symm
      have hstart : startOf cls input k ≤ p := by
        by_cases hkc : k = cls x
        · subst hkc
          omega
        · rw [Function.update_of_ne hkc] at hp
          exact (h.start_le k hk).trans hp
      rw [hyx]
      exact slot_class_unique (by omega) (by omega) hstart hp'
    · have hends : ends k ≤ p := by
        by_cases hkc : k = cls x
        · subst hkc
          rw [Function.update_self] at hp
          omega
        · rwa [Function.update_of_ne hkc] at hp
      have hpj : p ≠ j := by
        rintro rfl
        obtain ⟨i, hi, hlow, hhigh⟩ := hj
        have := h.start_le k hk
        have := h.le_next i hi
        obtain rfl := slot_class_unique hlow (by omega) (by omega) hp'
        omega
      rw [if_neg hpj, if_neg hpq] at hy
      exact h.filled k hk p y hends hp' hy

/-- One turn of the inner loop: the element in hand goes to its slot, and the element of that
slot is what fills the hole now, unless the hole itself has been filled. -/
theorem Filling.exchange_hole {base : List α} {j : ℕ} {flash : α}
    (h : Filling cls lsize input (base.set j flash) ends) (hcls : ∀ x ∈ input, cls x < lsize)
    (hj : Free cls lsize input ends j) :
    cls flash < lsize ∧ startOf cls input (cls flash) < ends (cls flash) ∧
      ∃ hlt : ends (cls flash) - 1 < base.length,
        Filling cls lsize input
          (if j = ends (cls flash) - 1 then base.set (ends (cls flash) - 1) flash
            else (base.set (ends (cls flash) - 1) flash).set j base[ends (cls flash) - 1])
          (Function.update ends (cls flash) (ends (cls flash) - 1)) := by
  have hjl : j < base.length := by
    have := h.free_lt hj
    have := h.length_eq
    simp only [List.length_set] at this
    omega
  have hx : (base.set j flash)[j]? = some flash := by simp [hjl]
  have hc := h.cls_lt hcls hx
  have hroom := h.room hcls hj hx
  have hlt : ends (cls flash) - 1 < base.length := by
    have hnext := h.le_next _ hc
    have hlast := startOf_le_length cls input (cls flash + 1)
    have hlength := h.length_eq
    simp only [List.length_set] at hlength
    omega
  have hnew := h.exchange hcls hj hx
  refine ⟨hc, hroom, hlt, ?_⟩
  by_cases hlast : j = ends (cls flash) - 1
  · rw [if_pos hlast]
    rwa [← hlast, List.swap_self, hlast] at hnew
  · rw [if_neg hlast]
    have hbase : (base.set j flash).swap j (ends (cls flash) - 1) =
        (base.set (ends (cls flash) - 1) flash).set j base[ends (cls flash) - 1] := by
      rw [List.swap_eq_of_lt (by simpa using hjl) (by simpa using hlt)]
      simp only [List.getElem_set_self, List.getElem_set_ne hlast, List.set_set]
      exact List.set_comm _ _ hlast
    rwa [hbase] at hnew

theorem Free.of_exchange {c p : ℕ} (hp : Free cls lsize input
    (Function.update ends c (ends c - 1)) p) : Free cls lsize input ends p := by
  obtain ⟨k, hk, hlow, hhigh⟩ := hp
  refine ⟨k, hk, hlow, ?_⟩
  by_cases hkc : k = c
  · subst hkc
    rw [Function.update_self] at hhigh
    omega
  · rwa [Function.update_of_ne hkc] at hhigh

/-- Only the slot that was filled is no longer free. -/
theorem Filling.free_exchange (h : Filling cls lsize input v ends) {c p : ℕ}
    (hc : c < lsize) (hroom : startOf cls input c < ends c)
    (hp : Free cls lsize input ends p) :
    Free cls lsize input (Function.update ends c (ends c - 1)) p ↔ p ≠ ends c - 1 := by
  obtain ⟨k, hk, hlow, hhigh⟩ := hp
  have hnext := h.le_next k hk
  have hnext' := h.le_next c hc
  constructor
  · rintro ⟨i, hi, hlow', hhigh'⟩ rfl
    obtain rfl := slot_class_unique hlow (by omega) (by omega : startOf cls input c ≤ _)
      (by omega)
    by_cases hik : i = k
    · subst hik
      rw [Function.update_self] at hhigh'
      omega
    · rw [Function.update_of_ne hik] at hhigh'
      have := h.le_next i hi
      exact hik (slot_class_unique hlow' (by omega) hlow (by omega))
  · intro hne
    refine ⟨k, hk, hlow, ?_⟩
    by_cases hkc : k = c
    · subst hkc
      rw [Function.update_self]
      omega
    · rwa [Function.update_of_ne hkc]

theorem freeSlots_exchange {c : ℕ} (hc : c < lsize)
    (hroom : startOf cls input c < ends c) :
    freeSlots cls lsize input (Function.update ends c (ends c - 1)) + 1 =
      freeSlots cls lsize input ends := by
  have hmem : c ∈ Finset.range lsize := Finset.mem_range.mpr hc
  simp only [freeSlots]
  rw [← Finset.add_sum_erase _ _ hmem, ← Finset.add_sum_erase (Finset.range lsize)
    (fun k => ends k - startOf cls input k) hmem, Function.update_self]
  have hrest : ∀ k ∈ (Finset.range lsize).erase c,
      Function.update ends c (ends c - 1) k - startOf cls input k =
        ends k - startOf cls input k := by
    intro k hk
    rw [Function.update_of_ne (Finset.ne_of_mem_erase hk)]
  rw [Finset.sum_congr rfl hrest]
  omega

/-! ## The loops -/

/-- The array `l`. -/
def endsList (lsize : ℕ) (ends : ℕ → ℕ) : List ℕ :=
  (List.range lsize).map ends

theorem load_endsList {l : List ℕ} {k : ℕ} (hl : l = endsList lsize ends) (hk : k < lsize) :
    load l k = .ok (ends k) :=
  load_eq_ok (by simp [hl, endsList, hk])

theorem endsList_set {k n : ℕ} (hk : k < lsize) :
    (endsList lsize ends).set k n = endsList lsize (Function.update ends k n) := by
  refine List.ext_getElem? fun i => ?_
  rw [List.getElem?_set]
  by_cases hik : i = k
  · subst hik
    simp [endsList, hk]
  · rw [if_neg (Ne.symm hik)]
    by_cases hi : i < lsize <;> simp [endsList, hi, hik]

/-- What the tests of the two inner loops compare: the slots before `j` are filled, and
`k` tells whether slot `j` is. -/
structure Scanned (cls : α → ℕ) (lsize : ℕ) (input : List α) (ends : ℕ → ℕ) (j k : ℕ) :
    Prop where
  class_lt : k < lsize
  before : ∀ p < j, ¬ Free cls lsize input ends p
  here : Free cls lsize input ends j ↔ j < ends k

theorem Scanned.before_succ {j k : ℕ} (h : Scanned cls lsize input ends j k) (hge : ends k ≤ j) :
    ∀ p < j + 1, ¬ Free cls lsize input ends p := by
  intro p hp
  rcases Nat.lt_succ_iff_lt_or_eq.mp hp with hp | rfl
  · exact h.before p hp
  · rw [h.here]
    exact not_lt.mpr hge

theorem scanLoop_spec (hcls : ∀ x ∈ input, cls x < lsize) (fuel : ℕ) {s : Flash α}
    (h : Filling cls lsize input s.base ends) (hl : s.l = endsList lsize ends)
    (hscan : Scanned cls lsize input ends s.j s.k)
    (hfree : ∃ p, Free cls lsize input ends p) (hfuel : input.length < fuel + s.j) :
    ∃ j k, scanLoop cls fuel s = .ok { s with j := j, k := k } ∧
      Scanned cls lsize input ends j k ∧ j < ends k := by
  induction fuel generalizing s with
  | zero =>
      obtain ⟨p, hp⟩ := hfree
      have := h.free_lt hp
      exact absurd hp (hscan.before p (by omega))
  | succ fuel ih =>
      rw [scanLoop, load_endsList hl hscan.class_lt]
      simp only [Run.ok_bind]
      by_cases hge : s.j ≥ ends s.k
      · have hbefore := hscan.before_succ hge
        obtain ⟨p, hp⟩ := hfree
        have hpj : s.j + 1 ≤ p := by
          by_contra hn
          exact hbefore p (by omega) hp
        have hlt : s.j + 1 < s.base.length := by
          have := h.free_lt hp
          rw [h.length_eq]
          omega
        have hx : s.base[s.j + 1]? = some s.base[s.j + 1] := List.getElem?_eq_getElem hlt
        rw [if_pos hge, load_eq_ok hx]
        simp only [Run.ok_bind]
        exact ih (s := { s with j := s.j + 1, k := cls s.base[s.j + 1] }) h hl
          ⟨h.cls_lt hcls hx, hbefore, h.free_iff hcls hbefore hx⟩ (by simp only; omega)
      · rw [if_neg hge]
        exact ⟨s.j, s.k, rfl, hscan, by omega⟩

/-- With the element that `flash_ptr` holds in slot `j`, the array keeps the invariant
until slot `j` is filled. -/
theorem cycleLoop_spec (hcls : ∀ x ∈ input, cls x < lsize) (fuel : ℕ) {s : Flash α}
    (flash : α) (h : Filling cls lsize input (s.base.set s.j flash) ends)
    (hl : s.l = endsList lsize ends) (hk : s.k < lsize) (hne : s.j ≠ ends s.k)
    (hj : Free cls lsize input ends s.j) (hfuel : freeSlots cls lsize input ends < fuel) :
    ∃ base k nmove ends',
      cycleLoop cls fuel s flash =
        .ok ⟨base, endsList lsize ends', s.j, k, nmove⟩ ∧
      Filling cls lsize input base ends' ∧
      nmove + freeSlots cls lsize input ends' = s.nmove + freeSlots cls lsize input ends ∧
      s.nmove < nmove ∧ (∀ p, Free cls lsize input ends' p → Free cls lsize input ends p) ∧
      ¬ Free cls lsize input ends' s.j ∧ k < lsize ∧ s.j = ends' k := by
  induction fuel generalizing s flash ends with
  | zero => omega
  | succ fuel ih =>
      obtain ⟨hc, hroom, hql, hnew⟩ := h.exchange_hole hcls hj
      have hfree := h.free_exchange hc hroom hj
      have hcount := freeSlots_exchange hc hroom
      rw [cycleLoop, load_endsList hl hk]
      simp only [Run.ok_bind]
      rw [if_pos hne, load_endsList hl hc]
      simp only [Run.ok_bind]
      rw [if_neg (by omega), load_of_lt hql, hl, endsList_set hc]
      simp only [Run.ok_bind]
      by_cases hlast : s.j = ends (cls flash) - 1
      · -- the element in hand belongs where the cycle began
        obtain ⟨fuel, rfl⟩ : ∃ n, fuel = n + 1 := ⟨fuel - 1, by omega⟩
        rw [if_pos hlast] at hnew
        rw [cycleLoop, load_endsList rfl hc, Function.update_self]
        simp only [Run.ok_bind]
        rw [if_neg (by simpa using hlast)]
        refine ⟨_, _, _, _, rfl, hnew, by omega, by omega, fun p => Free.of_exchange, ?_, hc, ?_⟩
        · rw [hfree]
          simpa using hlast
        · rw [Function.update_self, hlast]
      · rw [if_neg hlast] at hnew
        obtain ⟨base, k, nmove, ends', heq, hfill, hsum, hmore, hsub, hdone, hk', hend⟩ :=
          ih (s := ⟨s.base.set (ends (cls flash) - 1) flash,
              endsList lsize (Function.update ends (cls flash) (ends (cls flash) - 1)), s.j,
              cls flash, s.nmove + 1⟩) _ hnew rfl hc (by simpa using hlast)
            (hfree.mpr hlast) (by omega)
        simp only at heq hsum hmore hdone hend
        exact ⟨base, k, nmove, ends', heq, hfill, by omega, by omega,
          fun p hp => (hsub p hp).of_exchange, hdone, hk', hend⟩

theorem exists_free (h : 0 < freeSlots cls lsize input ends) :
    ∃ p, Free cls lsize input ends p := by
  by_contra hn
  have hzero : freeSlots cls lsize input ends = 0 := by
    refine Finset.sum_eq_zero fun k hk => ?_
    by_contra hpos
    exact hn ⟨_, k, Finset.mem_range.mp hk, le_rfl, by omega⟩
  omega

/-- The permutation ends with at most one slot left to fill. -/
theorem permuteLoop_spec (hcls : ∀ x ∈ input, cls x < lsize) (fuel : ℕ) {s : Flash α}
    (h : Filling cls lsize input s.base ends) (hl : s.l = endsList lsize ends)
    (hscan : Scanned cls lsize input ends s.j s.k)
    (hsum : s.nmove + freeSlots cls lsize input ends = input.length)
    (hfuel : input.length ≤ fuel + s.nmove) (hpos : 0 < input.length) (hfuel₀ : 0 < fuel) :
    ∃ s' ends', permuteLoop cls input.length fuel s = .ok s' ∧
      Filling cls lsize input s'.base ends' ∧ freeSlots cls lsize input ends' ≤ 1 := by
  induction fuel generalizing s ends with
  | zero => omega
  | succ fuel ih =>
      rw [permuteLoop]
      by_cases hmore : s.nmove < input.length - 1
      · obtain ⟨j, k, hscanned, hscan', hjk⟩ := scanLoop_spec hcls (input.length + 1) h hl
          hscan (exists_free (by omega)) (by omega)
        have hj : Free cls lsize input ends j := hscan'.here.mpr hjk
        have hjl : j < s.base.length := by
          rw [h.length_eq]
          exact h.free_lt hj
        have hset : s.base.set j s.base[j] = s.base := by simp
        obtain ⟨base, k', nmove, ends', hcycle, hfill, hsum', hlt, hsub, hdone, hk', hend⟩ :=
          cycleLoop_spec hcls (input.length + 1) (s := { s with j := j, k := k })
            s.base[j] (by simpa only [hset] using h) hl hscan'.class_lt (by
              simp only
              omega) hj (by omega)
        simp only at hcycle hsum' hlt hdone hend
        rw [if_pos hmore, hscanned]
        simp only [Run.ok_bind, load_of_lt hjl, hcycle]
        refine ih (s := ⟨base, _, j, k', nmove⟩) hfill rfl ⟨hk', ?_, ?_⟩ (by simp only; omega)
          (by simp only; omega) ?_
        · exact fun p hp hp' => hscan'.before p hp (hsub p hp')
        · simp only
          constructor
          · exact fun hfree => absurd hfree hdone
          · omega
        · omega
      · rw [if_neg hmore]
        exact ⟨s, ends, rfl, h, by omega⟩

/-- When at most one slot is left, the element in it belongs there as well. -/
theorem Filling.classes (h : Filling cls lsize input v ends)
    (hcls : ∀ x ∈ input, cls x < lsize) (hone : freeSlots cls lsize input ends ≤ 1)
    {p : ℕ} {x : α} (hx : v[p]? = some x) :
    startOf cls input (cls x) ≤ p ∧ p < startOf cls input (cls x + 1) := by
  by_cases hp : Free cls lsize input ends p
  · have hroom := h.room hcls hp hx
    have hc := h.cls_lt hcls hx
    have hnext := h.le_next _ hc
    obtain ⟨k, hk, hlow, hhigh⟩ := hp
    by_cases hkc : k = cls x
    · subst hkc
      omega
    · have hpair : ∑ i ∈ {k, cls x}, (ends i - startOf cls input i) ≤
          freeSlots cls lsize input ends := by
        refine Finset.sum_le_sum_of_subset fun i hi => ?_
        simp only [Finset.mem_insert, Finset.mem_singleton] at hi
        rcases hi with rfl | rfl <;> exact Finset.mem_range.mpr (by assumption)
      rw [Finset.sum_pair hkc] at hpair
      omega
  · exact (h.of_not_free hcls hp hx).2

end SysProg.Fsort
