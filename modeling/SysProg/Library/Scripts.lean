import Mathlib

/-! # Programs and the answers of their environment

A program makes one call after the other; a script is the list of the answers that it gets.
Which answers a call can get depends on the state. -/

namespace SysProg

variable {σ α : Type*} {answers : σ → α → Prop} {next : σ → α → σ}

/-- Each answer of the script is one that the call can get. -/
inductive Script (answers : σ → α → Prop) (next : σ → α → σ) : σ → List α → Prop
  | nil (s : σ) : Script answers next s []
  | cons {s : σ} {a : α} {script : List α} (hanswer : answers s a)
      (hrest : Script answers next (next s a) script) : Script answers next s (a :: script)

/-- Every call of the script with its answer is as it should be. -/
inductive EachCall (ok : σ → α → Prop) (next : σ → α → σ) : σ → List α → Prop
  | nil (s : σ) : EachCall ok next s []
  | cons {s : σ} {a : α} {script : List α} (hok : ok s a)
      (hrest : EachCall ok next (next s a) script) : EachCall ok next s (a :: script)

/-- What every answer preserves holds after the script. -/
theorem Script.invariant {I : σ → Prop} {s : σ} {script : List α}
    (h : Script answers next s script) (hstep : ∀ s a, I s → answers s a → I (next s a))
    (hs : I s) : I (script.foldl next s) := by
  induction h with
  | nil s => exact hs
  | @cons s a script hanswer hrest ih => exact ih (hstep s a hs hanswer)

/-- If in the states of an invariant a call is as it should be for the good answers only, and
these keep the invariant, then all calls are so for the scripts of good answers only. -/
theorem Script.eachCall_iff {I : σ → Prop} {ok : σ → α → Prop} {good : α → Prop} {s : σ}
    {script : List α} (h : Script answers next s script)
    (hok : ∀ s a, I s → answers s a → (ok s a ↔ good a))
    (hstep : ∀ s a, I s → answers s a → good a → I (next s a)) (hs : I s) :
    EachCall ok next s script ↔ ∀ a ∈ script, good a := by
  induction h with
  | nil s => exact ⟨fun _ => by simp, fun _ => .nil s⟩
  | @cons s a script hanswer hrest ih =>
      constructor
      · intro heach
        cases heach with
        | cons hcall hcalls =>
            have hgood := (hok s a hs hanswer).mp hcall
            rw [List.forall_mem_cons]
            exact ⟨hgood, (ih (hstep s a hs hanswer hgood)).mp hcalls⟩
      · intro hall
        rw [List.forall_mem_cons] at hall
        have hcalls := (ih (hstep s a hs hanswer hall.1)).mpr hall.2
        exact .cons ((hok s a hs hanswer).mpr hall.1) hcalls

end SysProg
