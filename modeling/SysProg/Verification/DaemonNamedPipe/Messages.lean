import SysProg.Model.DaemonNamedPipe
import SysProg.Verification.Text.Decimal

/-! # Reads and messages

The daemon writes one line for each read that is not at the end of file, whatever the reads have
to do with the messages. -/

namespace SysProg.DaemonNamedPipe

open Transmission

/-- A way to read what is in the pipe. -/
def Grouping (messages : List Message) (reads : List Bytes) : Prop :=
  Daemon.findStart.Reads reads ∧ reads.flatten = pipe messages

/-- After the start signal, each read gets a message, or nothing at the end of file. -/
inductive OneByOne : List Message → List Bytes → Prop
  | nil : OneByOne [] []
  | endOfFile {messages : List Message} {reads : List Bytes} (hrest : OneByOne messages reads) :
      OneByOne messages ([] :: reads)
  | message {message : Message} {messages : List Message} {reads : List Bytes}
      (hle : message.line.length ≤ 1024) (hrest : OneByOne messages reads) :
      OneByOne (message :: messages) (message.line :: reads)

/-! ## Counting lines -/

theorem count_formatInt (n : ℤ) : (formatInt n).count 10 = 0 := by
  rw [List.count_eq_zero]
  intro h
  rcases byte_of_mem_formatInt h with h | h
  · exact absurd h (by decide)
  · exact absurd h (by decide)

theorem count_outbuf (buf : Bytes) : (outbuf buf).count 10 = 1 := by
  simp [outbuf, count_formatInt]

theorem count_squares (messages : List Message) : (squares messages).count 10 =
    (messages.filterMap Message.value).length := by
  unfold squares
  induction messages.filterMap Message.value with
  | nil => rfl
  | cons x xs ih =>
      rw [List.flatMap_cons, List.count_append, List.count_append, count_formatInt, ih,
        List.length_cons]
      simp only [List.count_singleton_self]
      omega

/-! ## The loop of the daemon -/

/-- A read without the letter that stops the daemon. -/
def Continues (buf : Bytes) : Prop :=
  81 ∉ buf ∧ 113 ∉ buf

theorem onRead_nil : Daemon.squaring.onRead [] = (.squaring, []) :=
  rfl

theorem onRead_of_continues {buf : Bytes} (hne : buf ≠ []) (h : Continues buf) :
    Daemon.squaring.onRead buf = (.squaring, outbuf buf) := by
  have hany : (buf.any fun b => b == 81 || b == 113) = false := by
    rw [List.any_eq_false]
    intro b hb hq
    rcases Bool.or_eq_true_iff.mp hq with hq | hq
    · exact h.1 (eq_of_beq hq ▸ hb)
    · exact h.2 (eq_of_beq hq ▸ hb)
  simp [Daemon.onRead, hne, hany]

theorem continues_line (message : Message) : Continues message.line := by
  constructor
  · simpa [Message.line] using message.upper_notMem
  · simpa [Message.line] using message.lower_notMem

theorem line_ne_nil (message : Message) : message.line ≠ [] := by
  simp [Message.line]

/-- One line is written for every read. -/
theorem count_written {reads : List Bytes} (hne : [] ∉ reads) (h : ∀ buf ∈ reads, Continues buf) :
    (Daemon.squaring.written reads).count 10 = reads.length := by
  induction reads with
  | nil => rfl
  | cons buf reads ih =>
      have hbuf : buf ≠ [] := fun hnil => hne (by simp [hnil])
      have htail := ih (fun hmem => hne (List.mem_cons_of_mem _ hmem))
        fun buf hmem => h buf (List.mem_cons_of_mem _ hmem)
      rw [Daemon.written, onRead_of_continues hbuf (h buf (by simp)), List.count_append,
        count_outbuf, htail, List.length_cons]
      omega

theorem written_oneByOne {messages : List Message} {reads : List Bytes}
    (h : OneByOne messages reads) :
    Daemon.squaring.written reads = messages.flatMap fun message => outbuf message.line := by
  induction h with
  | nil => rfl
  | endOfFile _ ih => rw [Daemon.written, onRead_nil, List.nil_append, ih]
  | @message message messages reads _ _ ih =>
      rw [Daemon.written, onRead_of_continues (line_ne_nil message) (continues_line message), ih,
        List.flatMap_cons]

theorem written_endOfFile {reads : List Bytes} (h : reads.flatten = []) :
    Daemon.squaring.written reads = [] := by
  induction reads with
  | nil => rfl
  | cons buf reads ih =>
      obtain ⟨rfl, hreads⟩ := List.append_eq_nil_iff.mp (List.flatten_cons ▸ h)
      rw [Daemon.written, onRead_nil, List.nil_append, ih hreads]

theorem written_start {reads : List Bytes} (h : reads.flatten = [83]) :
    Daemon.findStart.written reads = [] := by
  induction reads with
  | nil => simp at h
  | cons buf reads ih =>
      rw [List.flatten_cons, List.append_eq_singleton_iff] at h
      rcases h with ⟨rfl, hreads⟩ | ⟨rfl, hreads⟩
      · simpa [Daemon.written, Daemon.onRead] using ih hreads
      · simpa [Daemon.written, Daemon.onRead] using written_endOfFile hreads

/-! ## Reading byte by byte -/

theorem reads_bytes {bytes : Bytes} (h : Continues bytes) :
    Daemon.squaring.Reads (bytes.map fun b => [b]) := by
  induction bytes with
  | nil => exact .nil _
  | cons b bytes ih =>
      have hb : Continues [b] := by
        obtain ⟨hupper, hlower⟩ := h
        simp only [List.mem_cons, not_or] at hupper hlower
        exact ⟨by simp [hupper.1], by simp [hlower.1]⟩
      have htail : Continues bytes :=
        ⟨fun hmem => h.1 (List.mem_cons_of_mem _ hmem), fun hmem => h.2 (List.mem_cons_of_mem _ hmem)⟩
      refine .read (n := 1024) rfl (by simp) ?_
      rw [onRead_of_continues (by simp) hb]
      exact ih htail

theorem continues_lines (messages : List Message) :
    Continues (messages.flatMap Message.line) := by
  constructor
  · intro h
    obtain ⟨message, -, hmem⟩ := List.mem_flatMap.mp h
    exact (continues_line message).1 hmem
  · intro h
    obtain ⟨message, -, hmem⟩ := List.mem_flatMap.mp h
    exact (continues_line message).2 hmem

theorem grouping_bytes (messages : List Message) :
    Grouping messages ((pipe messages).map fun b => [b]) := by
  constructor
  · refine .read (n := 1) rfl (by simp) ?_
    exact reads_bytes (continues_lines messages)
  · induction pipe messages with
    | nil => rfl
    | cons b bytes ih => rw [List.map_cons, List.flatten_cons, ih, List.singleton_append]

theorem count_written_bytes (messages : List Message) :
    (Daemon.findStart.written ((pipe messages).map fun b => [b])).count 10 =
      (messages.flatMap Message.line).length := by
  have hcontinues := continues_lines messages
  rw [pipe, List.map_cons, Daemon.written]
  change (Daemon.squaring.written _).count 10 = _
  rw [count_written (by simp), List.length_map]
  intro buf hbuf
  obtain ⟨b, hb, rfl⟩ := List.mem_map.mp hbuf
  constructor
  · intro h
    exact hcontinues.1 (List.mem_singleton.mp h ▸ hb)
  · intro h
    exact hcontinues.2 (List.mem_singleton.mp h ▸ hb)

/-! ## Numbers -/

theorem natural_eq_some {digits : Bytes} {x : ℤ} (h : natural digits = some x) :
    digits ≠ [] ∧ (∀ b ∈ digits, isdigit b = true) ∧ x = digitsValue digits := by
  unfold natural at h
  split at h
  · rename_i hdigits
    exact ⟨hdigits.1, List.all_eq_true.mp hdigits.2, (Option.some.inj h).symm⟩
  · cases h

theorem takeWhile_digits {digits : Bytes} (h : ∀ b ∈ digits, isdigit b = true) :
    (digits ++ [10]).takeWhile isdigit = digits := by
  rw [List.takeWhile_append_of_pos h]
  simp [isdigit]

/-- `atoi` reads the number on a line. -/
theorem atoi_line {message : Message} {x : ℤ} (h : message.value = some x) :
    atoi message.line = x := by
  have hle := message.number_le x h
  rw [abs_le] at hle
  have hstrtol : strtol message.line = x := by
    unfold Message.value number at h
    rw [Message.line, strtol]
    split at h
    · rename_i digits heq
      obtain ⟨n, hn, rfl⟩ := Option.map_eq_some_iff.mp h
      obtain ⟨-, hdigits, rfl⟩ := natural_eq_some hn
      have hdrop : (message.text ++ [10]).dropWhile isspace = 45 :: (digits ++ [10]) := by
        simp [heq, isspace]
      simp only [hdrop, takeWhile_digits hdigits]
      omega
    · rename_i digits heq
      obtain ⟨-, hdigits, rfl⟩ := natural_eq_some h
      have hdrop : (message.text ++ [10]).dropWhile isspace = 43 :: (digits ++ [10]) := by
        simp [heq, isspace]
      simp only [hdrop, takeWhile_digits hdigits]
      omega
    · obtain ⟨hne, hdigits, rfl⟩ := natural_eq_some h
      obtain ⟨b, digits, hcons⟩ := List.exists_cons_of_ne_nil hne
      have hb : isdigit b = true := hdigits b (by simp [hcons])
      have hdrop : (message.text ++ [10]).dropWhile isspace = message.text ++ [10] := by
        simp [hcons, isspace_of_isdigit hb]
      rw [hdrop]
      split
      · rename_i heq
        rw [hcons] at heq
        obtain rfl := (List.cons.inj heq).1
        exact absurd hb (by decide)
      · rename_i heq
        rw [hcons] at heq
        obtain rfl := (List.cons.inj heq).1
        exact absurd hb (by decide)
      · rw [takeWhile_digits hdigits]
        omega
  rw [atoi, hstrtol, int32_of_mem (by omega) (by omega)]

/-- The square of a number is an `int`. -/
theorem outbuf_line {message : Message} {x : ℤ} (h : message.value = some x) :
    outbuf message.line = formatInt (x * x) ++ [10] := by
  have hle := message.number_le x h
  have hsquare : x * x ≤ 46340 * 46340 := by
    have := mul_self_le_mul_self (abs_nonneg x) hle
    rwa [abs_mul_abs_self] at this
  rw [outbuf, atoi_line h, int32_of_mem (by nlinarith) (by omega)]

theorem length_pos_of_number {text : Bytes} {x : ℤ} (h : number text = some x) :
    0 < text.length := by
  cases text with
  | nil => simp [number, natural] at h
  | cons b text => exact Nat.succ_pos _

/-- The numbers are fewer than the bytes. -/
theorem numbers_lt_bytes (messages : List Message) :
    (messages.filterMap Message.value).length + messages.length ≤
      (messages.flatMap Message.line).length := by
  induction messages with
  | nil => simp
  | cons message messages ih =>
      have hline : message.line.length = message.text.length + 1 := by simp [Message.line]
      rw [List.flatMap_cons, List.length_append, List.length_cons, hline]
      cases hvalue : message.value with
      | none =>
          rw [List.filterMap_cons_none hvalue]
          omega
      | some x =>
          have := length_pos_of_number hvalue
          rw [List.filterMap_cons_some hvalue, List.length_cons]
          omega

/-! ## What is written -/

theorem squares_eq {messages : List Message}
    (h : ∀ message ∈ messages, message.value.isSome) :
    squares messages = messages.flatMap fun message => outbuf message.line := by
  induction messages with
  | nil => rfl
  | cons message messages ih =>
      obtain ⟨x, hx⟩ := Option.isSome_iff_exists.mp (h message (by simp))
      have htail := ih fun other hmem => h other (List.mem_cons_of_mem _ hmem)
      unfold squares at htail ⊢
      rw [List.filterMap_cons_some hx, List.flatMap_cons, List.flatMap_cons, htail, outbuf_line hx]

theorem numbers_of_length {messages : List Message}
    (h : (messages.filterMap Message.value).length = messages.length) :
    ∀ message ∈ messages, message.value.isSome := by
  induction messages with
  | nil => simp
  | cons message messages ih =>
      have hle : (messages.filterMap Message.value).length ≤
          messages.length := List.length_filterMap_le _ _
      cases hvalue : message.value with
      | none =>
          rw [List.filterMap_cons_none hvalue, List.length_cons] at h
          omega
      | some x =>
          rw [List.filterMap_cons_some hvalue, List.length_cons, List.length_cons] at h
          intro other hmem
          rcases List.mem_cons.mp hmem with rfl | hmem
          · simp [hvalue]
          · exact ih (by omega) other hmem

/-- Every way to read the messages gives their squares only if there is no message. With one
message in each read, they must all be numbers. -/
theorem written_iff (messages : List Message) :
    ((∀ reads, Grouping messages reads → Daemon.findStart.written reads = squares messages) ↔
      messages = []) ∧
    ∀ reads, OneByOne messages reads →
      (Daemon.findStart.written ([83] :: reads) = squares messages ↔
        ∀ message ∈ messages, message.value.isSome) := by
  constructor
  · constructor
    · intro hall
      have hcount := congrArg (List.count 10) (hall _ (grouping_bytes messages))
      rw [count_written_bytes, count_squares] at hcount
      have hlt := numbers_lt_bytes messages
      exact List.eq_nil_of_length_eq_zero (by omega)
    · intro hnil reads hgrouping
      subst hnil
      exact written_start hgrouping.2
  · intro reads hreads
    have hwritten : Daemon.findStart.written ([83] :: reads) =
        messages.flatMap fun message => outbuf message.line := written_oneByOne hreads
    rw [hwritten]
    constructor
    · intro heq
      have hcount := congrArg (List.count 10) heq
      rw [count_squares, List.count_flatMap] at hcount
      simp only [Function.comp_def, count_outbuf, List.map_const', List.sum_replicate,
        smul_eq_mul, mul_one] at hcount
      exact numbers_of_length hcount.symm
    · intro hall
      exact (squares_eq hall).symm

def two : Message where
  text := [50]
  newline_notMem := by decide
  upper_notMem := by decide
  lower_notMem := by decide
  number_le x h := by
    obtain rfl : 2 = x := Option.some.inj h
    decide

def three : Message where
  text := [51]
  newline_notMem := by decide
  upper_notMem := by decide
  lower_notMem := by decide
  number_le x h := by
    obtain rfl : 3 = x := Option.some.inj h
    decide

theorem written_two : Daemon.findStart.written [[83], two.line] = squares [two] :=
  ((written_iff [two]).2 [two.line] (.message (by decide) .nil)).mpr (by
    intro message hmem
    obtain rfl := List.mem_singleton.mp hmem
    rfl)

def letter : Message where
  text := [120]
  newline_notMem := by decide
  upper_notMem := by decide
  lower_notMem := by decide
  number_le _ h := nomatch h

/-- Two messages in one read give one line, and a text gives a line. -/
theorem not_written_two_three :
    (Grouping [two, three] [[83], [50, 10, 51, 10]] ∧
      Daemon.findStart.written [[83], [50, 10, 51, 10]] = [52, 10] ∧
      squares [two, three] ≠ [52, 10]) ∧
    (Grouping [letter] [[83], [120, 10]] ∧
      Daemon.findStart.written [[83], [120, 10]] = [48, 10] ∧ squares [letter] ≠ [48, 10]) := by
  refine ⟨⟨⟨?_, rfl⟩, rfl, by decide⟩, ⟨⟨?_, rfl⟩, rfl, by decide⟩⟩
  · exact .read (n := 1) rfl (by decide) (.read (n := 1024) rfl (by decide) (.nil _))
  · exact .read (n := 1) rfl (by decide) (.read (n := 1024) rfl (by decide) (.nil _))

end SysProg.DaemonNamedPipe
