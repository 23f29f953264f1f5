import SysProg.Verification.LineReaders.Steps

/-! # No line is lost

Whatever the threads do while the mutex is locked, each string of the input is printed once and in
order. A thread gives up only while another one holds the mutex, so there is always a thread left
that reads on. -/

namespace SysProg.LineReaders

open Transmission

variable {n : ℕ} {program : Program} {stdin : Bytes} {shared shared' : Shared}
  {threads : Fin (n + 1) → Thread} {holder : Option (Fin (n + 1))} {consumed : List Bytes}
  {i : Fin (n + 1)} {thread thread' : Thread}

/-! ## Every step keeps the invariant -/

theorem Inv.exists_other (h : Inv program stdin shared threads holder consumed)
    (hlocked : shared.mutex1 = true) (hpc : (threads i).pc.holds = false) :
    ∃ j, j ≠ i ∧ (threads j).pc.doomed = false := by
  rw [h.mutex, Option.isSome_iff_exists] at hlocked
  obtain ⟨j, hj⟩ := hlocked
  have hholds := (h.holds j).mpr hj
  refine ⟨j, ?_, doomed_of_holds hholds⟩
  intro heq
  rw [heq, hpc] at hholds
  cases hholds

theorem Inv.exists_alive (h : Inv program stdin shared threads holder consumed)
    (hpc : (threads i).pc.doomed = true) : ∃ j, j ≠ i ∧ (threads j).pc.doomed = false := by
  obtain ⟨j, hj⟩ := h.alive
  refine ⟨j, ?_, hj⟩
  intro heq
  rw [heq, hpc] at hj
  cases hj

theorem Inv.printed (h : Inv program stdin shared threads (some i) consumed) {pc : Pc}
    (hpc : (threads i).pc = pc) :
    nonempty consumed = printedTexts shared.terminal ++ pc.hand shared.buff := by
  have hlines := h.lines.printed
  rwa [Option.map_some, hpc, Option.elim_some] at hlines

theorem Inv.step (h : Inv program stdin shared threads holder consumed)
    (hstep : Step program (shared, threads i) (shared', thread')) :
    ∃ holder' consumed', Inv program stdin shared' (Function.update threads i thread') holder'
      consumed' := by
  have hinv := h.thread i
  generalize hthread : threads i = thread at hstep hinv
  have hpc : ∀ {pc}, thread.pc = pc → (threads i).pc = pc := by
    rintro pc rfl
    rw [hthread]
  cases hstep with
  | @start _ name =>
      refine ⟨holder, consumed, h.quiet (congrArg Pc.holds (hpc rfl)) rfl rfl rfl rfl ?_
        ⟨nofun, nofun, fun _ => rfl⟩ id h.done nofun⟩
      rw [printedTexts_print]
      exact List.append_nil _
  | leave hdone =>
      exact ⟨holder, consumed, h.quiet (congrArg Pc.holds (hpc rfl)) rfl rfl rfl rfl rfl
        ⟨nofun, fun _ => hdone, fun _ => rfl⟩ id h.done nofun⟩
  | enter _ =>
      exact ⟨holder, consumed, h.quiet (congrArg Pc.holds (hpc rfl)) rfl rfl rfl rfl rfl
        ⟨nofun, nofun, fun _ => rfl⟩ id h.done nofun⟩
  | lock hfree =>
      have hnone : holder = none := by
        rwa [h.mutex, Option.isSome_eq_false_iff, Option.isNone_iff_eq_none] at hfree
      subst hnone
      refine ⟨some i, consumed, ?_⟩
      cases program with
      | nonblocking => exact h.acquire rfl rfl nofun rfl
      | timedlock => exact h.acquire rfl rfl nofun rfl
  | fail e hprogram hlocked =>
      refine ⟨holder, consumed, h.quiet (congrArg Pc.holds (hpc rfl)) rfl rfl rfl rfl rfl
        ⟨nofun, nofun, ?_⟩ id h.done ?_⟩
      · intro hother
        rw [hprogram] at hother
        cases hother
      · intro _
        exact h.exists_other hlocked (congrArg Pc.holds (hpc rfl))
  | report =>
      obtain rfl := h.holder_of_pc (congrArg Pc.holds (hpc rfl))
      have hlines : nonempty consumed = printedTexts shared.terminal ++ [] := h.printed (hpc rfl)
      refine ⟨some i, consumed ++ [], h.inside rfl rfl rfl id ⟨?_, nofun⟩ nofun rfl⟩
      rw [List.append_nil, printedTexts_print, hlines, List.append_assoc]
      rfl
  | giveUp =>
      have hdoomed : (threads i).pc.doomed = true := congrArg Pc.doomed (hpc rfl)
      refine ⟨holder, consumed, h.quiet (congrArg Pc.holds (hpc rfl)) rfl rfl rfl rfl ?_
        ⟨nofun, nofun, hinv.doomed⟩ id h.done fun _ => h.exists_alive hdoomed⟩
      rw [printedTexts_print]
      exact List.append_nil _
  | null hend =>
      obtain rfl := h.holder_of_pc (congrArg Pc.holds (hpc rfl))
      refine ⟨some i, consumed ++ [], h.inside rfl rfl rfl id ⟨?_, nofun⟩ (fun _ => .inl hend) rfl⟩
      rw [List.append_nil]
      exact h.printed (hpc rfl)
  | read hstdin =>
      obtain rfl := h.holder_of_pc (congrArg Pc.holds (hpc rfl))
      have hlines : nonempty consumed = printedTexts shared.terminal ++ [] := h.printed (hpc rfl)
      refine ⟨some i, consumed ++ [strdup (fgets SIZE shared.stdin).1],
        h.inside rfl rfl ?_ (fun hempty => absurd hempty hstdin) ⟨?_, ?_⟩ nofun rfl⟩
      · rw [texts_of_ne_nil hstdin]
        rfl
      · rw [nonempty_append, hlines, List.append_nil, Option.elim_some, Pc.hand, strdup_fill]
        rfl
      · intro _
        rw [strdup_fill]
        exact List.mem_append_right _ (List.mem_singleton_self _)
  | empty hempty =>
      obtain rfl := h.holder_of_pc (congrArg Pc.holds (hpc rfl))
      have hlines : nonempty consumed =
          printedTexts shared.terminal ++ nonempty [strdup shared.buff] := h.printed (hpc rfl)
      rw [hempty] at hlines
      have hmem := h.lines.filled (by rw [Option.map_some, hpc rfl])
      refine ⟨some i, consumed ++ [], h.inside rfl rfl rfl id ⟨?_, nofun⟩ (fun _ => .inr ?_) rfl⟩
      · rw [List.append_nil]
        exact hlines
      · rw [List.append_nil]
        rwa [hempty] at hmem
  | copy hcopy =>
      obtain rfl := h.holder_of_pc (congrArg Pc.holds (hpc rfl))
      have hlines : nonempty consumed =
          printedTexts shared.terminal ++ nonempty [strdup shared.buff] := h.printed (hpc rfl)
      have hfilter : nonempty [strdup shared.buff] = [strdup shared.buff] :=
        List.filter_cons_of_pos (by simpa using hcopy)
      rw [hfilter] at hlines
      refine ⟨some i, consumed ++ [], h.inside rfl rfl rfl id ⟨?_, nofun⟩ nofun rfl⟩
      rw [List.append_nil]
      exact hlines
  | print =>
      obtain rfl := h.holder_of_pc (congrArg Pc.holds (hpc rfl))
      refine ⟨some i, consumed ++ [], h.inside rfl rfl rfl id ⟨?_, nofun⟩ nofun rfl⟩
      rw [List.append_nil, printedTexts_print, h.printed (hpc rfl)]
      exact (List.append_nil _).symm
  | unlock =>
      obtain rfl := h.holder_of_pc (congrArg Pc.holds (hpc rfl))
      exact ⟨none, consumed, h.release (by rw [hpc rfl]; rfl) rfl ⟨nofun, nofun, fun _ => rfl⟩ rfl⟩
  | unlockLast =>
      obtain rfl := h.holder_of_pc (congrArg Pc.holds (hpc rfl))
      exact ⟨none, consumed, h.release (by rw [hpc rfl]; rfl) rfl
        ⟨fun _ => hinv.knows rfl, nofun, fun _ => rfl⟩ rfl⟩
  | announce =>
      refine ⟨holder, consumed, h.quiet (congrArg Pc.holds (hpc rfl)) rfl rfl rfl rfl ?_
        ⟨fun _ => hinv.knows rfl, nofun, fun _ => rfl⟩ id h.done nofun⟩
      rw [printedTexts_print]
      exact List.append_nil _
  | finish =>
      exact ⟨holder, consumed, h.quiet (congrArg Pc.holds (hpc rfl)) rfl rfl rfl rfl rfl
        ⟨nofun, nofun, fun _ => rfl⟩ (fun _ => rfl) (fun _ => hinv.knows rfl) nofun⟩

theorem Inv.retry (h : Inv program stdin shared threads holder consumed)
    (hstep : Retry program (shared, threads i) (shared', thread')) :
    ∃ holder' consumed', Inv program stdin shared' (Function.update threads i thread') holder'
      consumed' := by
  generalize hthread : threads i = thread at hstep
  cases hstep with
  | busy _ _ =>
      refine ⟨holder, consumed, h.quiet ?_ rfl rfl rfl rfl rfl ⟨nofun, nofun, fun _ => rfl⟩ id
        h.done nofun⟩
      rw [hthread]
      rfl

end SysProg.LineReaders
