import SysProg.Model.LineReaders
import SysProg.Verification.Square.Input

/-! # The lines and the mutex

The strings that the threads take from the input are determined by the input alone. The thread that
holds the mutex has at most one of them in its hand. -/

namespace SysProg.LineReaders

open Transmission

/-! ## The strings of the input -/

theorem fgets_ne_nil {size : ℕ} {stdin : Bytes} (h : stdin ≠ []) :
    (fgets (size + 2) stdin).1 ≠ [] := by
  cases stdin with
  | nil => exact absurd rfl h
  | cons b stdin =>
      rw [fgets]
      split <;> exact List.cons_ne_nil _ _

theorem length_fgets_lt {stdin : Bytes} (h : ¬ stdin = []) :
    (fgets SIZE stdin).2.length < stdin.length := by
  have hne : (fgets SIZE stdin).1 ≠ [] := fgets_ne_nil h
  have hlength := Square.length_fgets SIZE stdin
  have hpos := List.length_pos_iff.mpr hne
  omega

/-- The strings that one thread alone would read, one after the other. -/
def texts (stdin : Bytes) : List Bytes :=
  if _ : stdin = [] then [] else strdup (fgets SIZE stdin).1 :: texts (fgets SIZE stdin).2
termination_by stdin.length
decreasing_by exact length_fgets_lt ‹¬ stdin = []›

@[simp] theorem texts_nil : texts [] = [] := by
  rw [texts, dif_pos rfl]

theorem texts_of_ne_nil {stdin : Bytes} (h : stdin ≠ []) :
    texts stdin = strdup (fgets SIZE stdin).1 :: texts (fgets SIZE stdin).2 := by
  rw [texts, dif_neg h]

/-- What lies behind the line in the buffer is not copied. -/
theorem strdup_append (line rest : Bytes) : strdup (line ++ 0 :: rest) = strdup line := by
  induction line with
  | nil => rfl
  | cons b line ih =>
      rw [List.cons_append, strdup, strdup, List.takeWhile_cons, List.takeWhile_cons]
      split
      · rw [← strdup, ← strdup, ih]
      · rfl

theorem strdup_fill (shared : Shared) :
    strdup shared.fill.buff = strdup (fgets SIZE shared.stdin).1 := by
  simp only [Shared.fill, List.append_assoc, List.singleton_append, strdup_append]

/-- The strings that are printed. -/
def nonempty (strings : List Bytes) : List Bytes :=
  strings.filter (· != [])

theorem nonempty_append (xs ys : List Bytes) : nonempty (xs ++ ys) = nonempty xs ++ nonempty ys :=
  List.filter_append xs ys

def Line.content? : Line → Option Bytes
  | .text _ content => some content
  | _ => none

/-- The strings on the terminal, in the order in which they have been printed. -/
def printedTexts (terminal : List Line) : List Bytes :=
  terminal.filterMap Line.content?

theorem printedTexts_print (shared : Shared) (line : Line) :
    printedTexts (shared.print line).terminal =
      printedTexts shared.terminal ++ line.content?.toList := by
  cases hline : line.content? <;>
    simp [printedTexts, Shared.print, List.filterMap_append, hline]

/-! ## Where a thread is -/

/-- The thread holds the mutex. -/
def Pc.holds : Pc → Bool
  | .tried none | .reading | .filled | .copied _ | .printed | .finishing _ => true
  | _ => false

/-- The thread has seen the end of the input or an empty string. -/
def Pc.knows : Pc → Bool
  | .finishing _ | .unlocked _ | .ending => true
  | _ => false

/-- The thread has ended without `done`, or it is about to. -/
def Pc.doomed : Pc → Bool
  | .tried (some _) | .exited => true
  | _ => false

def Pc.ended : Pc → Bool
  | .returned | .exited => true
  | _ => false

/-- The string that has been read and not yet printed. -/
def Pc.hand (buff : Bytes) : Pc → List Bytes
  | .filled => nonempty [strdup buff]
  | .copied myCopy => [myCopy]
  | _ => []

/-! ## The invariant -/

variable {n : ℕ} {program : Program} {stdin : Bytes} {shared shared' : Shared}
  {threads : Fin (n + 1) → Thread} {holder holder' : Option (Fin (n + 1))}
  {consumed new : List Bytes} {i : Fin (n + 1)} {thread' : Thread}

/-- There is a reason to set `done`. -/
def Over (consumed : List Bytes) (shared : Shared) : Prop :=
  shared.stdin = [] ∨ [] ∈ consumed

/-- What holds for each thread. -/
structure ThreadInv (program : Program) (consumed : List Bytes) (shared : Shared) (pc : Pc) :
    Prop where
  knows : pc.knows = true → Over consumed shared
  returned : pc = .returned → shared.done = true
  doomed : program = .nonblocking → pc.doomed = false

/-- All that has been read has been printed, up to what the holder of the mutex has in its hand. -/
structure Lines (consumed : List Bytes) (shared : Shared) (pc : Option Pc) : Prop where
  printed : nonempty consumed =
    printedTexts shared.terminal ++ pc.elim [] (Pc.hand shared.buff)
  filled : pc = some .filled → strdup shared.buff ∈ consumed

/-- `holder` is the thread that holds the mutex, `consumed` what has been read. -/
structure Inv (program : Program) (stdin : Bytes) (shared : Shared)
    (threads : Fin (n + 1) → Thread) (holder : Option (Fin (n + 1))) (consumed : List Bytes) :
    Prop where
  mutex : shared.mutex1 = holder.isSome
  holds : ∀ i, (threads i).pc.holds = true ↔ holder = some i
  texts : texts stdin = consumed ++ texts shared.stdin
  lines : Lines consumed shared (holder.map fun i => (threads i).pc)
  thread : ∀ i, ThreadInv program consumed shared (threads i).pc
  done : shared.done = true → Over consumed shared
  alive : ∃ i, (threads i).pc.doomed = false

theorem inv_start (program : Program) (n : ℕ) (stdin : Bytes) :
    Inv program stdin (start n stdin).1 (start n stdin).2 none [] where
  mutex := rfl
  holds _ := by simp [start, Pc.holds]
  texts := rfl
  lines := ⟨rfl, nofun⟩
  thread _ := ⟨nofun, nofun, fun _ => rfl⟩
  done := nofun
  alive := ⟨0, rfl⟩

theorem doomed_of_holds {pc : Pc} (h : pc.holds = true) : pc.doomed = false := by
  unfold Pc.holds at h
  split at h
  · rfl
  · rfl
  · rfl
  · rfl
  · rfl
  · rfl
  · cases h

/-- The facts about the other threads carry over. -/
theorem Inv.update (h : Inv program stdin shared threads holder consumed)
    (hmutex : shared'.mutex1 = holder'.isSome)
    (hself : thread'.pc.holds = true ↔ holder' = some i)
    (hother : ∀ j, j ≠ i → (holder' = some j ↔ holder = some j))
    (htexts : LineReaders.texts shared.stdin = new ++ LineReaders.texts shared'.stdin)
    (hstdin : shared.stdin = [] → shared'.stdin = [])
    (hlines : Lines (consumed ++ new) shared'
      (holder'.map fun j => (Function.update threads i thread' j).pc))
    (hthread : ThreadInv program (consumed ++ new) shared' thread'.pc)
    (hstays : shared.done = true → shared'.done = true)
    (hdone : shared'.done = true → Over (consumed ++ new) shared')
    (halive : thread'.pc.doomed = true → ∃ j, j ≠ i ∧ (threads j).pc.doomed = false) :
    Inv program stdin shared' (Function.update threads i thread') holder' (consumed ++ new) where
  mutex := hmutex
  holds j := by
    by_cases hj : j = i
    · subst hj
      rwa [Function.update_self]
    · rw [Function.update_of_ne hj, hother j hj]
      exact h.holds j
  texts := by rw [h.texts, htexts, List.append_assoc]
  lines := hlines
  thread j := by
    by_cases hj : j = i
    · subst hj
      rwa [Function.update_self]
    · rw [Function.update_of_ne hj]
      obtain ⟨hknows, hreturned, hdoomed⟩ := h.thread j
      refine ⟨fun hk => ?_, fun hr => hstays (hreturned hr), hdoomed⟩
      exact (hknows hk).imp hstdin (List.mem_append_left _)
  done := hdone
  alive := by
    by_cases hdoomed : thread'.pc.doomed = true
    · obtain ⟨j, hj, halive⟩ := halive hdoomed
      exact ⟨j, by rwa [Function.update_of_ne hj]⟩
    · exact ⟨i, by simpa using hdoomed⟩

/-- A step of a thread that does not hold the mutex, before and after it. -/
theorem Inv.quiet (h : Inv program stdin shared threads holder consumed)
    (hpc : (threads i).pc.holds = false) (hpc' : thread'.pc.holds = false)
    (hmutex : shared'.mutex1 = shared.mutex1) (hbuff : shared'.buff = shared.buff)
    (hstdin : shared'.stdin = shared.stdin)
    (hprinted : printedTexts shared'.terminal = printedTexts shared.terminal)
    (hthread : ThreadInv program consumed shared' thread'.pc)
    (hstays : shared.done = true → shared'.done = true)
    (hdone : shared'.done = true → Over consumed shared)
    (halive : thread'.pc.doomed = true → ∃ j, j ≠ i ∧ (threads j).pc.doomed = false) :
    Inv program stdin shared' (Function.update threads i thread') holder consumed := by
  have hholder : holder ≠ some i := by
    rw [Ne, ← h.holds i, hpc]
    exact Bool.false_ne_true
  have hsame : (holder.map fun j => (Function.update threads i thread' j).pc) =
      holder.map fun j => (threads j).pc := by
    cases holder with
    | none => rfl
    | some j =>
        have hj : j ≠ i := fun heq => hholder (congrArg some heq)
        rw [Option.map_some, Option.map_some, Function.update_of_ne hj]
  have hover : ∀ consumed, Over consumed shared' ↔ Over consumed shared := by
    intro consumed
    rw [Over, Over, hstdin]
  have hnew : Inv program stdin shared' (Function.update threads i thread') holder
      (consumed ++ []) := h.update (hmutex.trans h.mutex)
    (by rw [hpc']; exact iff_of_false Bool.false_ne_true hholder) (fun _ _ => Iff.rfl)
    (by rw [hstdin]; rfl) (fun hempty => hstdin.trans hempty)
    (by
      rw [List.append_nil, hsame]
      exact ⟨by rw [h.lines.printed, hprinted, hbuff], by rw [hbuff]; exact h.lines.filled⟩)
    (by rwa [List.append_nil]) hstays
    (fun hd => by rw [List.append_nil, hover]; exact hdone hd) halive
  rwa [List.append_nil] at hnew

/-- A step of the holder, which keeps the mutex. -/
theorem Inv.inside (h : Inv program stdin shared threads (some i) consumed)
    (hpc' : thread'.pc.holds = true) (hmutex : shared'.mutex1 = shared.mutex1)
    (htexts : LineReaders.texts shared.stdin = new ++ LineReaders.texts shared'.stdin)
    (hstdin : shared.stdin = [] → shared'.stdin = [])
    (hlines : Lines (consumed ++ new) shared' (some thread'.pc))
    (hknows : thread'.pc.knows = true → Over (consumed ++ new) shared')
    (hdone : shared'.done = shared.done) :
    Inv program stdin shared' (Function.update threads i thread') (some i)
      (consumed ++ new) := by
  refine h.update (hmutex.trans h.mutex) (by simpa using hpc') (fun _ _ => Iff.rfl) htexts hstdin
    (by simpa using hlines) ⟨hknows, ?_, fun _ => doomed_of_holds hpc'⟩ (fun hd => hdone.trans hd) ?_
    ?_
  · intro hreturned
    rw [hreturned] at hpc'
    cases hpc'
  · intro hd
    exact (h.done (hdone.symm.trans hd)).imp hstdin (List.mem_append_left _)
  · intro hdoomed
    rw [doomed_of_holds hpc'] at hdoomed
    cases hdoomed

theorem Inv.holder_of_pc (h : Inv program stdin shared threads holder consumed)
    (hpc : (threads i).pc.holds = true) : holder = some i :=
  (h.holds i).mp hpc

/-- A thread that has nothing in its hand gives the mutex back. -/
theorem Inv.release (h : Inv program stdin shared threads (some i) consumed)
    (hhand : (threads i).pc.hand shared.buff = []) (hpc' : thread'.pc.holds = false)
    (hthread : ThreadInv program consumed shared thread'.pc)
    (hdoomed : thread'.pc.doomed = false) :
    Inv program stdin { shared with mutex1 := false } (Function.update threads i thread') none
      consumed := by
  have hprinted := h.lines.printed
  rw [Option.map_some, Option.elim_some, hhand] at hprinted
  have hnew : Inv program stdin { shared with mutex1 := false }
      (Function.update threads i thread') none (consumed ++ []) := h.update rfl
    (by rw [hpc']; simp)
    (by
      intro j hj
      simp [hj.symm]) rfl id
    (by rw [List.append_nil]; exact ⟨hprinted, nofun⟩)
    (by
      rw [List.append_nil]
      exact ⟨hthread.knows, hthread.returned, hthread.doomed⟩) id
    (by
      intro hd
      rw [List.append_nil]
      exact h.done hd)
    (by rw [hdoomed]; nofun)
  rwa [List.append_nil] at hnew

/-- A thread takes the free mutex. -/
theorem Inv.acquire (h : Inv program stdin shared threads none consumed)
    (hpc' : thread'.pc.holds = true) (hhand : thread'.pc.hand shared.buff = [])
    (hfilled : thread'.pc ≠ .filled) (hknows : thread'.pc.knows = false) :
    Inv program stdin { shared with mutex1 := true } (Function.update threads i thread') (some i)
      consumed := by
  have hprinted := h.lines.printed
  have hnew : Inv program stdin { shared with mutex1 := true }
      (Function.update threads i thread') (some i) (consumed ++ []) := h.update rfl
    (by simpa using hpc')
    (by
      intro j hj
      simp [hj.symm]) rfl id
    (by
      rw [List.append_nil, Option.map_some, Function.update_self]
      refine ⟨?_, fun hfill => absurd (Option.some.inj hfill) hfilled⟩
      rw [Option.elim_some, hhand]
      exact hprinted)
    (by
      rw [List.append_nil]
      refine ⟨by rw [hknows]; nofun, ?_, fun _ => doomed_of_holds hpc'⟩
      intro hreturned
      rw [hreturned] at hpc'
      cases hpc') id
    (by
      intro hd
      rw [List.append_nil]
      exact h.done hd)
    (by rw [doomed_of_holds hpc']; nofun)
  rwa [List.append_nil] at hnew

end SysProg.LineReaders
