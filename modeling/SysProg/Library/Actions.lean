import SysProg.Library.Interleaving

/-! # Systems with named actions

An action that is possible in a state leads to one other state. A run that takes only allowed
actions keeps what each of these keeps. -/

namespace SysProg

variable {σ α : Type*}

/-- The system takes an action. -/
def Acts (next : σ → α → Option σ) (s t : σ) : Prop :=
  ∃ action, next s action = some t

/-- The system takes an action that is allowed in the state. -/
def ActsWithin (allowed : σ → α → Prop) (next : σ → α → Option σ) (s t : σ) : Prop :=
  ∃ action, allowed s action ∧ next s action = some t

/-- The state after some actions. -/
def runActions (next : σ → α → Option σ) (s : σ) : List α → Option σ
  | [] => some s
  | action :: actions => do
      let t ← next s action
      runActions next t actions

variable {next : σ → α → Option σ} {allowed : σ → α → Prop}

theorem reaches_of_runActions {s t : σ} {actions : List α}
    (h : runActions next s actions = some t) : Reaches (Acts next) s t := by
  induction actions generalizing s with
  | nil =>
      obtain rfl := Option.some.inj h
      exact .refl
  | cons action actions ih =>
      obtain ⟨u, hu, hrun⟩ := Option.bind_eq_some_iff.mp h
      exact (ih hrun).head ⟨action, hu⟩

/-- What holds at the start and is kept by the allowed actions always holds. -/
theorem Always.of_actions {I P : σ → Prop} {s : σ} (hstart : I s)
    (hstep : ∀ s t action, I s → allowed s action → next s action = some t → I t)
    (hP : ∀ s, I s → P s) : Always (ActsWithin allowed next) P s := by
  refine Always.of_invariant hstart ?_ hP
  intro t u ht ⟨action, hallowed, hnext⟩
  exact hstep t u action ht hallowed hnext

end SysProg
