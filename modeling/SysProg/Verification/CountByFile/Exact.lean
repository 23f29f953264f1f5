import SysProg.Verification.CountByFile.Totals

/-! # When the common counters are the counts of the files -/

namespace SysProg.CountByFile

open Transmission

variable {n : ℕ}

/-- Every run ends, with the counts of the files and the contents that the local arrays had. -/
theorem threads_lead (files : Fin n → Bytes) (stack : Fin n → UInt8 → Long) :
    Leads (Interleaved Step) (fun state => (∀ i, (state.2 i).Finished) ∧
      ∀ c, state.1.counter c = ∑ i, stack i c + ((∑ i, (files i).count c : ℕ) : Long))
      (start files stack) := by
  have hend : ∀ state, Invariant files stack state → (∀ i, (state.2 i).Finished) →
      ∀ c, state.1.counter c = ∑ i, stack i c + ((∑ i, (files i).count c : ℕ) : Long) := by
    intro state h hfinished c
    have hpending : ∀ i, (state.2 i).pending c = 0 := by
      intro i
      have hi := hfinished i
      generalize state.2 i = thread at hi ⊢
      cases thread <;> first | rfl | exact absurd hi id
    have hcounted := congrFun h.counted c
    rw [Pi.add_apply, total_apply, total, Finset.sum_eq_zero fun i _ => hpending i, add_zero,
      Finset.sum_add_distrib] at hcounted
    rw [hcounted, Nat.cast_sum]
  apply Leads.of_variant (I := Invariant files stack) (fun state => total Thread.rank state.2)
  · intro state h
    rcases h.progress with hfinished | hstep
    · exact .inl ⟨hfinished, hend state h hfinished⟩
    · exact .inr hstep
  · intro state state' h hstep
    exact .inr (h.step hstep)
  · exact invariant_start files stack

/-- The counters hold the number of occurrences of each byte in all the files together. -/
def CountsFiles (files : Fin n → Bytes) (data : Data) : Prop :=
  ∀ c, data.counter c = ((∑ i, (files i).count c : ℕ) : Long)

/-- Every run ends, and the counters are then right if and only if the contents that the local
arrays had at the beginning add up to zero. -/
theorem counts_files_iff (files : Fin n → Bytes) (stack : Fin n → UInt8 → Long) :
    Leads (Interleaved Step) (fun state => (∀ i, (state.2 i).Finished) ∧
      (CountsFiles files state.1 ↔ ∀ c, ∑ i, stack i c = 0)) (start files stack) := by
  apply (threads_lead files stack).mono
  intro ⟨data, threads⟩ ⟨hfinished, hcounter⟩
  refine ⟨hfinished, forall_congr' ?_⟩
  intro c
  rw [hcounter c]
  exact add_eq_right

/-- A thread whose array holds a one and that reads an empty file counts one byte. -/
theorem emptyFile_counted :
    Leads (Interleaved Step) (fun state => (∀ i, (state.2 i).Finished) ∧ state.1.counter 65 = 1)
      (start (fun _ : Fin 1 => []) fun _ _ => 1) := by
  apply (threads_lead (fun _ : Fin 1 => []) fun _ _ => 1).mono
  intro ⟨data, threads⟩ ⟨hfinished, hcounter⟩
  refine ⟨hfinished, ?_⟩
  rw [hcounter 65]
  simp

end SysProg.CountByFile
