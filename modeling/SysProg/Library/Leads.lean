import Mathlib

/-! # Total correctness of nondeterministic step relations

A program with several threads, or with an environment that decides how much a
system call transfers, is a step relation. `Leads step Q s` says that every run
from `s` reaches a state in `Q` and that no run gets stuck before. -/

namespace SysProg

variable {σ : Type*} {step : σ → σ → Prop}

/-- The reflexive and transitive closure of the steps of a program. -/
abbrev Reaches (step : σ → σ → Prop) : σ → σ → Prop :=
  Relation.ReflTransGen step

/-- Every run from the state reaches `Q`: it is there already, or the program can
go on and every way to go on leads there. -/
inductive Leads (step : σ → σ → Prop) (Q : σ → Prop) : σ → Prop where
  | now {s} : Q s → Leads step Q s
  | later {s} : (∃ t, step s t) → (∀ t, step s t → Leads step Q t) → Leads step Q s

/-- What every step preserves holds in every state a run reaches. -/
theorem Reaches.invariant {I : σ → Prop} (hstep : ∀ s t, I s → step s t → I t)
    {s t : σ} (hrun : Reaches step s t) (h : I s) : I t := by
  induction hrun with
  | refl => exact h
  | tail _ hst ih => exact hstep _ _ ih hst

theorem Leads.mono {Q R : σ → Prop} (hQR : ∀ s, Q s → R s) {s : σ}
    (h : Leads step Q s) : Leads step R s := by
  induction h with
  | now hq => exact .now (hQR _ hq)
  | later hex _ ih => exact .later hex ih

/-- Some run reaches what every run reaches. -/
theorem Leads.exists_reaches {Q : σ → Prop} {s : σ} (h : Leads step Q s) :
    ∃ t, Reaches step s t ∧ Q t := by
  induction h with
  | @now s hq => exact ⟨s, .refl, hq⟩
  | later hex _ ih =>
      obtain ⟨u, hsu⟩ := hex
      obtain ⟨t, hut, hq⟩ := ih u hsu
      exact ⟨t, .head hsu hut, hq⟩

/-- Sequential composition: a run that reaches `Q` goes on to `R`. -/
theorem Leads.trans {Q R : σ → Prop} {s : σ} (h : Leads step Q s)
    (hQR : ∀ t, Q t → Leads step R t) : Leads step R s := by
  induction h with
  | now hq => exact hQR _ hq
  | later hex _ ih => exact .later hex ih

/-- The rule for loops: an invariant that is preserved until `Q` holds, that lets
the program go on until then, and a variant that each step decreases. -/
theorem Leads.of_variant {I Q : σ → Prop} (variant : σ → ℕ)
    (hprogress : ∀ s, I s → Q s ∨ ∃ t, step s t)
    (hstep : ∀ s t, I s → step s t → Q s ∨ (I t ∧ variant t < variant s))
    (s : σ) (h : I s) : Leads step Q s := by
  generalize hn : variant s = n
  induction n using Nat.strong_induction_on generalizing s with
  | h n ih =>
    by_cases hq : Q s
    · exact .now hq
    · refine .later ((hprogress s h).resolve_left hq) ?_
      intro t hst
      obtain ⟨hI, hlt⟩ := (hstep s t h hst).resolve_left hq
      exact ih (variant t) (hn ▸ hlt) t hI rfl

/-- The rule for loops with a variant that is no function of the state. -/
theorem Leads.of_ranking {μ : Type*} [LT μ] [WellFoundedLT μ] {I : σ → μ → Prop} {Q : σ → Prop}
    (hprogress : ∀ s m, I s m → Q s ∨ ∃ t, step s t)
    (hstep : ∀ s t m, I s m → step s t → Q s ∨ ∃ m' < m, I t m')
    (s : σ) (m : μ) (h : I s m) : Leads step Q s := by
  induction m using WellFoundedLT.induction generalizing s with
  | ind m ih =>
    by_cases hq : Q s
    · exact .now hq
    · refine .later ((hprogress s m h).resolve_left hq) ?_
      intro t hst
      obtain ⟨m', hlt, hI⟩ := (hstep s t m h hst).resolve_left hq
      exact ih m' hlt t hI

/-- A system that steps only as another one does, and does so whenever the other one goes on,
reaches what the other one reaches. -/
theorem Leads.simulated {τ : Type*} {step' : τ → τ → Prop} {R : σ → τ → Prop} {Q : σ → Prop}
    (hprogress : ∀ s t, R s t → (∃ s', step s s') → ∃ t', step' t t')
    (hstep : ∀ s t t', R s t → (∃ s', step s s') → step' t t' → ∃ s', step s s' ∧ R s' t')
    {s : σ} {t : τ} (h : Leads step Q s) (hrel : R s t) :
    Leads step' (fun t => ∃ s, Q s ∧ R s t) t := by
  induction h generalizing t with
  | @now s hq => exact .now ⟨s, hq, hrel⟩
  | @later s hex _ ih =>
      refine .later (hprogress s t hrel hex) ?_
      intro t' hst
      obtain ⟨s', hst', hrel'⟩ := hstep s t t' hrel hex hst
      exact ih s' hst' hrel'

/-- A state on a run that reaches `Q` comes before `Q` or after it. -/
theorem Leads.before_or_after {Q : σ → Prop} {s t : σ} (h : Leads step Q s)
    (hrun : Reaches step s t) : ∃ u, Q u ∧ (Reaches step t u ∨ Reaches step u t) := by
  induction h with
  | @now s hq => exact ⟨s, hq, .inr hrun⟩
  | @later s hex hleads ih =>
      rcases hrun.cases_head with rfl | ⟨u, hsu, hut⟩
      · obtain ⟨u, hsu⟩ := hex
        obtain ⟨v, huv, hq⟩ := (hleads u hsu).exists_reaches
        exact ⟨v, hq, .inl (.head hsu huv)⟩
      · exact ih u hsu hut

/-- No step leaves `Q`, so a run that has been in `Q` is there at its end. -/
theorem Leads.of_stuck {Q : σ → Prop} {s t : σ} (h : Leads step Q s)
    (hclosed : ∀ u v, Q u → step u v → Q v) (hrun : Reaches step s t)
    (hstuck : ∀ u, ¬ step t u) : Q t := by
  induction h with
  | now hq => exact hrun.invariant hclosed hq
  | later hex _ ih =>
      rcases hrun.cases_head with rfl | ⟨u, hsu, hut⟩
      · obtain ⟨u, hu⟩ := hex
        exact absurd hu (hstuck u)
      · exact ih u hsu hut

end SysProg
