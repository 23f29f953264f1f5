import SysProg.Library.Leads

/-! # Processes that share a state

A step of the system is a step of one process on its own state and the shared one. What the
processes hold of a resource, together with what is left of it, is the same in every state if
every single step keeps it. -/

namespace SysProg

/-- What holds in every state that a run reaches. -/
def Always {σ : Type*} (step : σ → σ → Prop) (P : σ → Prop) (s : σ) : Prop :=
  ∀ t, Reaches step s t → P t

theorem Always.of_invariant {σ : Type*} {step : σ → σ → Prop} {I P : σ → Prop} {s : σ}
    (hstart : I s) (hstep : ∀ s t, I s → step s t → I t) (hP : ∀ s, I s → P s) :
    Always step P s :=
  fun _ hrun => hP _ (hrun.invariant hstep hstart)

variable {ι σ π : Type*}

section Total

variable [Fintype ι]

/-- What the processes hold together. -/
def total {M : Type*} [AddCommMonoid M] (held : π → M) (procs : ι → π) : M :=
  ∑ i, held (procs i)

theorem total_apply {κ M : Type*} [AddCommMonoid M] (held : π → κ → M) (procs : ι → π) (k : κ) :
    total held procs k = total (fun proc => held proc k) procs :=
  Finset.sum_apply k Finset.univ fun i => held (procs i)

variable {M : Type*} [AddCommMonoid M] [PartialOrder M] [IsOrderedAddMonoid M]

theorem held_le_total {held : π → M} (hnonneg : ∀ proc, 0 ≤ held proc) (procs : ι → π) (i : ι) :
    held (procs i) ≤ total held procs :=
  Finset.single_le_sum (f := fun j => held (procs j)) (fun j _ => hnonneg (procs j))
    (Finset.mem_univ i)

theorem held_add_le_total {held : π → M} (hnonneg : ∀ proc, 0 ≤ held proc) (procs : ι → π)
    {i j : ι} (hij : i ≠ j) : held (procs i) + held (procs j) ≤ total held procs :=
  Finset.add_le_sum (f := fun k => held (procs k)) (fun k _ => hnonneg (procs k))
    (Finset.mem_univ i) (Finset.mem_univ j) hij

end Total

variable [DecidableEq ι]

/-- One of the processes makes a step. -/
inductive Interleaved (step : σ × π → σ × π → Prop) : σ × (ι → π) → σ × (ι → π) → Prop
  | step {shared shared' : σ} {procs : ι → π} {proc' : π} (i : ι)
      (h : step (shared, procs i) (shared', proc')) :
      Interleaved step (shared, procs) (shared', Function.update procs i proc')

/-- Some process has not finished, and none of these can go on. -/
def Deadlocked (step : σ × π → σ × π → Prop) (finished : π → Prop) (state : σ × (ι → π)) : Prop :=
  (∃ i, ¬ finished (state.2 i)) ∧
    ∀ i, ¬ finished (state.2 i) → ¬ ∃ t, step (state.1, state.2 i) t

variable {step : σ × π → σ × π → Prop}

/-- The steps of a process alone are steps of the system. -/
theorem Interleaved.alone {i : ι} {procs : ι → π} {shared shared' : σ} {proc proc' : π}
    (hproc : procs i = proc) (hrun : Reaches step (shared, proc) (shared', proc')) :
    Reaches (Interleaved step) (shared, procs) (shared', Function.update procs i proc') := by
  generalize hs : (shared', proc') = s at hrun
  induction hrun generalizing shared' proc' with
  | refl =>
      obtain ⟨rfl, rfl⟩ := Prod.mk.inj hs
      rw [← hproc, Function.update_eq_self]
  | @tail t u _ hstep ih =>
      subst hs
      obtain ⟨shared'', proc''⟩ := t
      refine (ih rfl).tail ?_
      have hnext : step (shared'', Function.update procs i proc'' i) (shared', proc') := by
        rwa [Function.update_self]
      have hdone := Interleaved.step i hnext
      rwa [Function.update_idem] at hdone

/-- Processes that can each go to their targets alone can do so one after the other. `P S` is
what the shared state is like after the processes in `S`. -/
theorem Interleaved.reaches_piecewise (P : Finset ι → σ → Prop) (procs target : ι → π) {T : Finset ι}
    (h : ∀ S, ∀ i ∈ T, i ∉ S → S ⊆ T → ∀ shared, P S shared →
      ∃ shared', P (insert i S) shared' ∧ Reaches step (shared, procs i) (shared', target i))
    {shared : σ} (hP : P ∅ shared) :
    ∃ shared', P T shared' ∧
      Reaches (Interleaved step) (shared, procs) (shared', T.piecewise target procs) := by
  suffices hsub : ∀ S ⊆ T, ∃ shared', P S shared' ∧
      Reaches (Interleaved step) (shared, procs) (shared', S.piecewise target procs) from
    hsub T Finset.Subset.rfl
  intro S
  induction S using Finset.induction_on with
  | empty =>
      intro _
      refine ⟨shared, hP, ?_⟩
      rw [Finset.piecewise_empty]
  | insert i S hi ih =>
      intro hsub
      obtain ⟨hiT, hST⟩ := Finset.insert_subset_iff.mp hsub
      obtain ⟨shared', hshared', hrun⟩ := ih hST
      obtain ⟨shared'', hshared'', halone⟩ := h S i hiT hi hST shared' hshared'
      refine ⟨shared'', hshared'', hrun.trans ?_⟩
      rw [Finset.piecewise_insert]
      exact Interleaved.alone (Finset.piecewise_eq_of_notMem S target procs hi) halone

section Conserved

variable [Fintype ι] {M : Type*} [AddCancelCommMonoid M]

theorem total_update (held : π → M) (procs : ι → π) (i : ι) (proc : π) :
    total held (Function.update procs i proc) + held (procs i) = total held procs + held proc := by
  have hcomp : (fun j => held (Function.update procs i proc j)) =
      Function.update (fun j => held (procs j)) i (held proc) := by
    funext j
    exact Function.apply_update (fun _ => held) procs i proc j
  rw [total, total, hcomp, Finset.sum_update_of_mem (Finset.mem_univ i),
    ← Finset.add_sum_erase Finset.univ _ (Finset.mem_univ i), Finset.sdiff_singleton_eq_erase]
  abel

/-- A step that gives to the process what it takes from the resource, or the other way round. -/
theorem conserved_step (resource : σ → M) (held : π → M) {shared shared' : σ} {procs : ι → π}
    {i : ι} {proc' : π} (h : resource shared' + held proc' = resource shared + held (procs i)) :
    resource shared' + total held (Function.update procs i proc') =
      resource shared + total held procs := by
  apply add_right_cancel (b := held (procs i))
  rw [add_assoc, total_update, add_left_comm, h]
  abel

end Conserved

/-- A step that lowers the rank of its process lowers the rank of the system. -/
theorem total_update_lt [Fintype ι] (rank : π → ℕ) {procs : ι → π} {i : ι} {proc' : π}
    (h : rank proc' < rank (procs i)) :
    total rank (Function.update procs i proc') < total rank procs := by
  have hupdate := total_update rank procs i proc'
  omega

/-- A rank that gets lower for all processes gets lower for the others of a process, too. -/
theorem total_add_le [Fintype ι] {rank rank' : π → ℕ} (hle : ∀ proc, rank' proc ≤ rank proc)
    (procs : ι → π) (i : ι) :
    total rank' procs + rank (procs i) ≤ total rank procs + rank' (procs i) := by
  rw [total, total, ← Finset.add_sum_erase Finset.univ _ (Finset.mem_univ i),
    ← Finset.add_sum_erase Finset.univ (fun j => rank (procs j)) (Finset.mem_univ i)]
  have hothers : ∑ j ∈ Finset.univ.erase i, rank' (procs j) ≤
      ∑ j ∈ Finset.univ.erase i, rank (procs j) :=
    Finset.sum_le_sum fun j _ => hle (procs j)
  omega

end SysProg
