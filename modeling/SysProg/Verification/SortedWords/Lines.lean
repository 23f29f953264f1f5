import SysProg.Library.Tokens
import SysProg.Model.SortedWords
import SysProg.Verification.Text.Decimal
import SysProg.Verification.Transmission.Frames

/-! # The words are filled into lines

What has been sent and what is in the line are the words so far, with separators between
them. -/

namespace SysProg.SortedWords

open Transmission ByteStream

/-! ## Computations that send -/

/-- The computation sends the frames of the messages and returns `a`. -/
def Emits.Sends {α : Type} (m : Emits α) (msgs : List Bytes) (a : α) : Prop :=
  ∃ calls, m = (calls, some a) ∧
    List.Forall₂ (fun call msg => WriteString.Rest call (frame msg)) calls msgs

variable {α β : Type}

theorem sends_pure (a : α) : (pure a : Emits α).Sends [] a :=
  ⟨[], rfl, .nil⟩

theorem sends_emit {call : WriteString} {msg : Bytes} (h : call.Rest (frame msg)) :
    (emit call).Sends [msg] () :=
  ⟨[call], rfl, .cons h .nil⟩

theorem Emits.Sends.bind {m : Emits α} {f : α → Emits β} {msgs msgs' : List Bytes} {a : α} {b : β}
    (h : m.Sends msgs a) (h' : (f a).Sends msgs' b) : (m >>= f).Sends (msgs ++ msgs') b := by
  obtain ⟨calls, rfl, hcalls⟩ := h
  obtain ⟨calls', hf, hcalls'⟩ := h'
  refine ⟨calls ++ calls', ?_, List.rel_append hcalls hcalls'⟩
  change (calls ++ (f a).1, (f a).2) = _
  rw [hf]

/-! ## One word -/

/-- The line holds `content`. -/
structure Buffered (line : Line) (content : Bytes) : Prop where
  room : 202 ≤ line.block.length
  pos : line.pos = content.length
  usedLen : line.usedLen = content.length
  le : content.length ≤ 201
  block : content <+: line.block

theorem store_sends {line : Line} {content : Bytes} (h : Buffered line content) (bytes : Bytes)
    (hfit : content.length + bytes.length ≤ line.block.length) :
    ∃ tail, (content ++ bytes ++ tail).length = line.block.length ∧
      (store line.block line.pos bytes).Sends [] (content ++ bytes ++ tail) := by
  obtain ⟨rest, hrest⟩ := h.block
  refine ⟨rest.drop bytes.length, ?_, [], ?_, .nil⟩
  · rw [← hrest] at hfit ⊢
    simp only [List.length_append, List.length_drop] at hfit ⊢
    omega
  · have hle : (0 : ℤ) ≤ line.pos ∧ line.pos + bytes.length ≤ line.block.length := by
      rw [h.pos]
      omega
    rw [store, if_pos hle, h.pos, ← hrest, Int.toNat_natCast, List.take_left, ← List.drop_drop,
      List.drop_left]

theorem flush_sends {line : Line} {content : Bytes} (h : Buffered line content) :
    ∃ line' : Line, line'.block.length = line.block.length ∧
      line.flush.Sends [content ++ [10]] line' := by
  have hle := h.le
  have hroom := h.room
  obtain ⟨tail, hlength, hstore⟩ := store_sends h [10] (by
    simp only [List.length_singleton]
    omega)
  have hused : sizeT (line.usedLen + 1) = (content ++ [10]).length := by
    rw [h.usedLen, List.length_append]
    exact sizeT_natCast (n := content.length + 1) (by omega)
  refine ⟨_, hlength, hstore.bind (Emits.Sends.bind (sends_emit ?_) (sends_pure _))⟩
  rw [hused]
  apply writeString_rest_prefix (List.prefix_append _ _)
  rw [List.length_append, List.length_singleton]
  omega

/-- A blank or a newline. -/
def isSeparator (b : UInt8) : Bool :=
  b == 32 || b == 10

/-- What is sent and kept is the content before and the word, between separators. -/
structure Added (content word : Bytes) (msgs : List Bytes) (content' : Bytes) : Prop where
  ne_nil : [] ∉ msgs
  text : ∃ before after, msgs.flatten ++ content' = content ++ before ++ word ++ after ∧
    before ≠ [] ∧ ∀ b ∈ before ++ after, isSeparator b = true

theorem makeRoom_sends {line : Line} {content : Bytes} (h : Buffered line content) (len : ℕ)
    (hlen : len ≤ 2 ^ 31 - 1) :
    ∃ msgs line' content', (line.makeRoom len).Sends msgs line' ∧ Buffered line' content' ∧
      ((msgs = [content ++ [10]] ∧ content' = []) ∨
        (msgs = [] ∧ content' = content ∧ content.length + len ≤ 200)) := by
  have hle := h.le
  have hsize : sizeT (line.usedLen + len) = content.length + len := by
    rw [h.usedLen]
    exact sizeT_natCast (n := content.length + len) (by omega)
  rw [Line.makeRoom, hsize, LINE_SIZE]
  by_cases hfull : content.length + len > 200
  · obtain ⟨flushed, hlength, hflush⟩ := flush_sends h
    rw [if_pos (by exact_mod_cast hfull)]
    refine ⟨_, ⟨flushed.block, 0, 0⟩, [], hflush.bind (sends_pure _), ?_, .inl ⟨rfl, rfl⟩⟩
    exact ⟨hlength ▸ h.room, rfl, rfl, by simp, List.nil_prefix⟩
  · rw [if_neg (by exact_mod_cast hfull)]
    exact ⟨[], line, content, sends_pure line, h, .inr ⟨rfl, rfl, by omega⟩⟩

/-- A word that is longer than a line is written by itself. -/
theorem append_long {line line' : Line} {str word : Bytes} {len : ℤ} {msgs : List Bytes}
    (hroom : (line.makeRoom len).Sends msgs line') (hlong : len > LINE_SIZE + 1)
    (hword : (writeString str (sizeT (len - 1))).Rest (frame word)) :
    (line.append str len).Sends (msgs ++ [word, [10]]) line' := by
  unfold Line.append
  have hprefix : ([10] : Bytes) <+: [10, 0] := ⟨[0], rfl⟩
  have hnewline : (writeString [10, 0] 1).Rest (frame [10]) :=
    writeString_rest_prefix hprefix (by norm_num)
  refine hroom.bind ?_
  rw [if_pos hlong]
  exact (sends_emit hword).bind ((sends_emit hnewline).bind (sends_pure line'))

theorem append_short {line line' : Line} {str block : Bytes} {len : ℤ} {msgs : List Bytes}
    (hroom : (line.makeRoom len).Sends msgs line') (hshort : ¬ len > LINE_SIZE + 1)
    (hstore : (store line'.block line'.pos (32 :: str)).Sends [] block) :
    (line.append str len).Sends msgs ⟨block, line'.pos + len, sizeT (line'.usedLen + len)⟩ := by
  unfold Line.append
  rw [← List.append_nil msgs]
  refine hroom.bind ?_
  rw [if_neg hshort]
  exact hstore.bind (sends_pure _)

theorem addWord_sends {line : Line} {content word : Bytes} (h : Buffered line content)
    (hnul : 0 ∉ word) (hlength : word.length + 1 < 2 ^ 31) :
    ∃ msgs line' content', (line.addWord (word ++ [0])).Sends msgs line' ∧
      Buffered line' content' ∧ Added content word msgs content' := by
  have hlen : int32 (strlen (word ++ [0]) + 1) = (word.length + 1 : ℕ) := by
    rw [strlen_append_nul hnul]
    push_cast
    exact int32_of_mem (by omega) (by omega)
  rw [Line.addWord, hlen]
  obtain ⟨msgs, line', content', hroom, hline, hcontent⟩ :=
    makeRoom_sends h (word.length + 1) (by omega)
  by_cases hlong : ((word.length + 1 : ℕ) : ℤ) > LINE_SIZE + 1
  · have hlong' : word.length > 200 := by
      rw [LINE_SIZE] at hlong
      omega
    obtain ⟨rfl, rfl⟩ : msgs = [content ++ [10]] ∧ content' = [] := by
      rcases hcontent with hcontent | ⟨-, -, hfit⟩
      · exact hcontent
      · omega
    have hword : (writeString (word ++ [0]) (sizeT ((word.length + 1 : ℕ) - 1))).Rest
        (frame word) := by
      rw [Nat.cast_succ, add_sub_cancel_right, sizeT_natCast (by omega)]
      exact writeString_rest_prefix (List.prefix_append _ _) (by omega)
    refine ⟨_, line', [], append_long hroom hlong hword, hline, ?_, ?_⟩
    · have hne : word ≠ [] := List.ne_nil_of_length_pos (by omega)
      simp [hne.symm]
    · exact ⟨[10], [10], by simp, by simp, by simp [isSeparator]⟩
  · have hle : content'.length + word.length ≤ 200 := by
      rw [LINE_SIZE] at hlong
      rcases hcontent with ⟨-, rfl⟩ | ⟨-, rfl, hfit⟩
      · simp only [List.length_nil]
        omega
      · omega
    have hblock := hline.room
    obtain ⟨tail, htail, hstore⟩ := store_sends hline (32 :: (word ++ [0])) (by
      simp only [List.length_cons, List.length_append, List.length_nil]
      omega)
    refine ⟨_, _, content' ++ 32 :: word, append_short hroom hlong hstore, ?_, ?_, ?_⟩
    · constructor
      · rw [htail]
        exact hblock
      · simp only [hline.pos, List.length_append, List.length_cons]
        push_cast
        ring
      · simp only [hline.usedLen, List.length_append, List.length_cons]
        exact sizeT_natCast (n := content'.length + (word.length + 1)) (by omega)
      · simp only [List.length_append, List.length_cons]
        omega
      · exact ⟨0 :: tail, by simp⟩
    · rcases hcontent with ⟨rfl, -⟩ | ⟨rfl, -, -⟩ <;> simp
    · rcases hcontent with ⟨rfl, rfl⟩ | ⟨rfl, rfl, -⟩
      · exact ⟨[10, 32], [], by simp, by simp, by simp [isSeparator]⟩
      · exact ⟨[32], [], by simp, by simp, by simp [isSeparator]⟩

/-! ## All words -/

/-- The words are cut out of the text at blanks and newlines. -/
theorem tokens_added {sent content word content' : Bytes} {msgs : List Bytes}
    (hword : ∀ b ∈ word, isSeparator b = false) (h : Added content word msgs content') :
    tokens isSeparator (sent ++ msgs.flatten ++ content') =
      tokens isSeparator (sent ++ content) ++ [word].filter fun w => w != [] := by
  obtain ⟨before, after, htext, hne, hsep⟩ := h.text
  have hafter : ∀ b ∈ after, isSeparator b = true := fun b hb => hsep b (by simp [hb])
  have hbefore : ∀ b ∈ before, isSeparator b = true := fun b hb => hsep b (by simp [hb])
  rw [List.append_assoc, htext, ← List.append_assoc, tokens_append_separators _ hafter,
    ← List.append_assoc, ← List.append_assoc, tokens_append _ _ hne hbefore, tokens_word hword]

/-- A word: no NUL byte and no separator, and its length with the space before is an `int`. -/
structure IsWord (word : Bytes) : Prop where
  nul : 0 ∉ word
  separators : ∀ b ∈ word, isSeparator b = false
  length_lt : word.length + 1 < 2 ^ 31

theorem addWords_sends {line : Line} {content : Bytes} (sent : Bytes) (h : Buffered line content)
    (words : List Bytes) (hwords : ∀ word ∈ words, IsWord word) :
    ∃ msgs line' content',
      ((words.map fun word => word ++ [0]).foldlM Line.addWord line).Sends msgs line' ∧
      Buffered line' content' ∧ [] ∉ msgs ∧
      tokens isSeparator (sent ++ msgs.flatten ++ content') =
        tokens isSeparator (sent ++ content) ++ words.filter fun w => w != [] := by
  induction words generalizing line content sent with
  | nil => exact ⟨[], line, content, sends_pure line, h, by simp, by simp⟩
  | cons word words ih =>
      have hword := hwords word (by simp)
      obtain ⟨msgs, line₁, content₁, hadd, hline₁, hadded⟩ :=
        addWord_sends h hword.nul hword.length_lt
      obtain ⟨msgs', line', content', hrest, hline', hne, htokens⟩ :=
        ih (sent ++ msgs.flatten) hline₁ fun w hw => hwords w (by simp [hw])
      refine ⟨msgs ++ msgs', line', content', ?_, hline', ?_, ?_⟩
      · rw [List.map_cons, List.foldlM_cons]
        exact Emits.Sends.bind (f := fun init => List.foldlM Line.addWord init _) hadd hrest
      · intro hmem
        rcases List.mem_append.mp hmem with hmem | hmem
        · exact hadded.ne_nil hmem
        · exact hne hmem
      · rw [List.flatten_append, ← List.append_assoc sent, htokens,
          tokens_added hword.separators hadded, List.append_assoc, ← List.filter_append]
        rfl

theorem finish_sends {line : Line} {content : Bytes} (h : Buffered line content) :
    ∃ msgs line' after, line.finish.Sends msgs line' ∧ [] ∉ msgs ∧
      msgs.flatten = content ++ after ∧ ∀ b ∈ after, isSeparator b = true := by
  unfold Line.finish
  by_cases hempty : content = []
  · subst hempty
    rw [if_neg (by simp [h.usedLen])]
    exact ⟨[], line, [], sends_pure line, by simp, rfl, by simp⟩
  · have hpos := List.length_pos_iff.mpr hempty
    obtain ⟨line', -, hflush⟩ := flush_sends h
    rw [if_pos (by rw [h.usedLen]; exact hpos)]
    exact ⟨_, line', [10], hflush, by simp, by simp, by simp [isSeparator]⟩

/-! ## The whole function -/

/-- The three frames before the words. -/
def headerFrames (idx : ℤ) : List Bytes :=
  [10 :: rule, threadTitle idx, rule]

def footerFrame : Bytes :=
  rule ++ [10]

theorem nul_notMem_rule : 0 ∉ rule := by
  simp [rule]

theorem length_threadTitle {idx : ℤ} (h : IsInt idx) : (threadTitle idx).length ≤ 20 := by
  have := length_formatInt_le h
  simp only [threadTitle, List.length_append, List.length_cons, List.length_nil]
  omega

theorem nul_notMem_threadTitle (idx : ℤ) : 0 ∉ threadTitle idx := by
  intro h
  simp only [threadTitle, List.mem_append, List.mem_cons, List.not_mem_nil, or_false] at h
  rcases h with (h | h) | h
  · exact absurd h (by decide)
  · rcases byte_of_mem_formatInt h with h | h
    · exact absurd h (by decide)
    · exact absurd h (by decide)
  · exact absurd h (by decide)

/-- A string constant is sent with the length -1. -/
theorem sends_string {msg : Bytes} (hnul : 0 ∉ msg) (hlt : msg.length < 2 ^ 32) (tail : Bytes) :
    (emit (writeString (msg ++ 0 :: tail) (sizeT (-1)))).Sends [msg] () :=
  sends_emit (writeString_rest hlt (.inr ⟨rfl, hnul⟩))

theorem transmit_sends {idx : ℤ} (hidx : IsInt idx) {block : Bytes} (hroom : 202 ≤ block.length)
    (words : List Bytes) (hwords : ∀ word ∈ words, IsWord word) :
    ∃ body, [] ∉ body ∧ tokens isSeparator body.flatten = words.filter (fun w => w != []) ∧
      (transmitSortedWords GETX idx block (words.map fun word => word ++ [0])).Sends
        (headerFrames idx ++ body ++ [footerFrame, []]) () := by
  have htitle := length_threadTitle hidx
  have hstart : Buffered ⟨block, 0, 0⟩ [] := ⟨hroom, rfl, rfl, by simp, List.nil_prefix⟩
  obtain ⟨tail, hlength, hstore⟩ := store_sends hstart (threadTitle idx ++ [0]) (by
    simp only [List.length_append, List.length_nil, List.length_cons]
    omega)
  have hline : Buffered ⟨[] ++ (threadTitle idx ++ [0]) ++ tail, 0, 0⟩ [] :=
    ⟨by rw [hlength]; exact hroom, rfl, rfl, by simp, List.nil_prefix⟩
  obtain ⟨msgs, line, content, hadd, hline', hne, htokens⟩ := addWords_sends [] hline words hwords
  obtain ⟨last, line', after, hfinish, hlast, hafter, hsep⟩ := finish_sends hline'
  refine ⟨msgs ++ last, ?_, ?_, ?_⟩
  · simp [hne, hlast]
  · rw [List.flatten_append, hafter, ← List.append_assoc, tokens_append_separators _ hsep]
    simpa using htokens
  · have hrule : (emit (writeString (10 :: rule ++ [0]) (sizeT (-1)))).Sends [10 :: rule] () :=
      sends_string (by simp [nul_notMem_rule]) (by simp [rule]) []
    have hname : (emit (writeString ([] ++ (threadTitle idx ++ [0]) ++ tail) (sizeT (-1)))).Sends
        [threadTitle idx] () := by
      have h := sends_string (nul_notMem_threadTitle idx) (by omega) tail
      rwa [List.nil_append, List.append_assoc]
    have hrule' : (emit (writeString (rule ++ [0]) (sizeT (-1)))).Sends [rule] () :=
      sends_string nul_notMem_rule (by simp [rule]) []
    have hfooter : (emit (writeString (rule ++ [10] ++ [0]) (sizeT (-1)))).Sends [footerFrame] () :=
      sends_string (by simp [nul_notMem_rule]) (by simp [rule]) []
    have heot : (emit (writeString [0] 0)).Sends [[]] () := sends_emit writeEot_rest
    have hframes : headerFrames idx ++ (msgs ++ last) ++ [footerFrame, []] =
        [10 :: rule] ++ ([] ++ ([threadTitle idx] ++ ([rule] ++ (msgs ++ (last ++
          ([footerFrame] ++ [[]])))))) := by
      simp [headerFrames]
    unfold transmitSortedWords
    rw [if_pos rfl, hframes]
    refine hrule.bind (hstore.bind (hname.bind (hrule'.bind ?_)))
    exact hadd.bind (hfinish.bind (hfooter.bind heot))

end SysProg.SortedWords
