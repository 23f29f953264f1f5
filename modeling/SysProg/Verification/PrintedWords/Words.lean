import SysProg.Verification.PrintedWords.Stores

/-! # The words that are printed

A long word makes room for itself by printing the line, even if nothing has been stored in the
line since it was printed the last time. -/

namespace SysProg.PrintedWords

open Transmission SortedWords

/-- A word as `split_to_array` finds it: it has bytes, and none of them is a separator. -/
structure Word extends CString where
  ne_nil : bytes ≠ []
  separators : ∀ b ∈ bytes, isSeparator b = false

/-- The text of a line with a newline behind it. -/
def withNewline (text : Option Bytes) : Option Bytes :=
  text.map fun bytes => bytes ++ [10]

/-! ## What is printed for the words -/

/-- The words are printed when the line has `content` and `shown` is in its memory: the texts and
the content in the end. -/
inductive Renders : Bytes → Option Bytes → List Word → List (Option Bytes) → Bytes → Prop where
  | nil {content : Bytes} {shown : Option Bytes} : Renders content shown [] [] content
  | behind {content content' : Bytes} {shown : Option Bytes} {word : Word} {words : List Word}
      {texts : List (Option Bytes)} (hshort : IsShort word.bytes)
      (hrest : Renders (content ++ 32 :: word.bytes) (some (content ++ 32 :: word.bytes)) words
        texts content') : Renders content shown (word :: words) texts content'
  | next {content content' : Bytes} {shown : Option Bytes} {word : Word} {words : List Word}
      {texts : List (Option Bytes)} (hshort : IsShort word.bytes)
      (hrest : Renders (32 :: word.bytes) (some (32 :: word.bytes)) words texts content') :
      Renders content shown (word :: words) (withNewline (some content) :: texts) content'
  | alone {content content' : Bytes} {shown : Option Bytes} {word : Word} {words : List Word}
      {texts : List (Option Bytes)} (hlong : IsLong word.bytes)
      (hrest : Renders [] shown words texts content') :
      Renders content shown (word :: words)
        (withNewline shown :: withNewline (some word.bytes) :: texts) content'

theorem foldlM_renders {line : Line} {content : Bytes} {shown : Option Bytes}
    (h : line.Holds content shown) {words : List Word} (hfits : ∀ word ∈ words, Fits word.bytes) :
    ∃ texts line' content' shown',
      (strings (words.map Word.toCString)).foldlM Line.addWord line = (texts, some line') ∧
      line'.Holds content' shown' ∧ Renders content shown words texts content' := by
  induction words generalizing line content shown with
  | nil => exact ⟨[], line, content, shown, rfl, h, .nil⟩
  | cons word words ih =>
      obtain ⟨hword, hwords⟩ := List.forall_mem_cons.mp hfits
      rw [strings, List.map_cons, List.map_cons, List.foldlM_cons, ← strings]
      rcases hword with hshort | hlong
      · obtain ⟨texts, line₁, content₁, hadd, hline₁, hcases⟩ := addWord_short h word.no_nul hshort
        obtain ⟨texts', line', content', shown', hrest, hline', hrenders⟩ := ih hline₁ hwords
        refine ⟨texts ++ texts', line', content', shown', ?_, hline', ?_⟩
        · rw [Prints.bind_some hadd, hrest]
        · rcases hcases with ⟨rfl, rfl⟩ | ⟨rfl, rfl⟩
          · exact .behind hshort hrenders
          · exact .next hshort hrenders
      · have hadd := addWord_long h word.no_nul hlong
        obtain ⟨texts', line', content', shown', hrest, hline', hrenders⟩ := ih h.flush hwords
        refine ⟨_, line', content', shown', ?_, hline', .alone hlong hrenders⟩
        rw [Prints.bind_some hadd, hrest]
        rfl

/-! ## When the line is printed only with new words -/

/-- The words when the line has `content`: a long word comes after a word that is in the line. -/
structure Separated (content : Bytes) (words : List Word) : Prop where
  first : content = [] → ∀ word ∈ words.head?, IsShort word.bytes
  pairs : words.IsChain fun word next => IsShort word.bytes ∨ IsShort next.bytes

theorem separated_nil (content : Bytes) : Separated content [] :=
  ⟨fun _ _ h => absurd h (Option.not_mem_none _), .nil⟩

theorem separated_short (content : Bytes) {content' : Bytes} (hne : content' ≠ []) {word : Word}
    (hshort : IsShort word.bytes) {words : List Word} :
    Separated content (word :: words) ↔ Separated content' words := by
  constructor
  · intro h
    exact ⟨fun hnil => absurd hnil hne, (List.isChain_cons.mp h.pairs).2⟩
  · intro h
    refine ⟨?_, List.isChain_cons.mpr ⟨fun _ _ => .inl hshort, h.pairs⟩⟩
    rintro - w ⟨⟩
    exact hshort

theorem separated_long {content : Bytes} {word : Word} (hlong : IsLong word.bytes)
    {words : List Word} :
    Separated content (word :: words) ↔ content ≠ [] ∧ Separated [] words := by
  have hnot : ¬ IsShort word.bytes := fun hshort => hshort.not_long hlong
  constructor
  · intro h
    obtain ⟨hnext, hpairs⟩ := List.isChain_cons.mp h.pairs
    refine ⟨fun hnil => hnot (h.first hnil word rfl), ?_, hpairs⟩
    intro _ next hmem
    exact (hnext next hmem).resolve_left hnot
  · rintro ⟨hne, h⟩
    refine ⟨fun hnil => absurd hnil hne, List.isChain_cons.mpr ⟨?_, h.pairs⟩⟩
    intro next hmem
    exact .inr (h.first rfl next hmem)

/-- What is in the memory of the line begins with a space and has words. -/
structure Stale (content : Bytes) (shown : Option Bytes) : Prop where
  words : ∀ text, shown = some text → ∃ rest, text = 32 :: rest ∧ tokens isSeparator rest ≠ []
  content : content ≠ [] → shown = some content

theorem tokens_space (sent : Bytes) (rest : Bytes) :
    tokens isSeparator (sent ++ 32 :: rest) = tokens isSeparator sent ++ tokens isSeparator rest :=
  tokens_append_cons _ _ rfl

theorem tokens_newline (sent : Bytes) (rest : Bytes) :
    tokens isSeparator (sent ++ 10 :: rest) = tokens isSeparator sent ++ tokens isSeparator rest :=
  tokens_append_cons _ _ rfl

theorem Word.tokens_eq (word : Word) : tokens isSeparator word.bytes = [word.bytes] := by
  rw [tokens_word word.separators]
  simp [word.ne_nil]

theorem tokens_behind (sent content : Bytes) (word : Word) :
    tokens isSeparator (sent ++ (content ++ 32 :: word.bytes)) =
      tokens isSeparator (sent ++ content) ++ [word.bytes] := by
  rw [← List.append_assoc, tokens_space, word.tokens_eq]

theorem tokens_next (sent content : Bytes) (word : Word) :
    tokens isSeparator (sent ++ (content ++ [10]) ++ 32 :: word.bytes) =
      tokens isSeparator (sent ++ content) ++ [word.bytes] := by
  rw [tokens_space, word.tokens_eq, ← List.append_assoc, tokens_newline, tokens_nil,
    List.append_nil]

theorem tokens_alone (sent text : Bytes) (word : Word) :
    tokens isSeparator (sent ++ (text ++ [10]) ++ (word.bytes ++ [10]) ++ []) =
      tokens isSeparator (sent ++ text) ++ [word.bytes] := by
  rw [List.append_nil, ← List.append_assoc _ word.bytes, tokens_newline, tokens_nil,
    List.append_nil, ← List.append_assoc, List.append_assoc _ [10], List.singleton_append,
    tokens_newline, word.tokens_eq]

theorem Stale.behind {content : Bytes} {shown : Option Bytes} (h : Stale content shown)
    (word : Word) :
    Stale (content ++ 32 :: word.bytes) (some (content ++ 32 :: word.bytes)) := by
  refine ⟨?_, fun _ => rfl⟩
  rintro text ⟨⟩
  by_cases hne : content = []
  · refine ⟨word.bytes, by rw [hne, List.nil_append], ?_⟩
    rw [word.tokens_eq]
    exact List.cons_ne_nil _ _
  · obtain ⟨rest, rfl, -⟩ := h.words content (h.content hne)
    refine ⟨rest ++ 32 :: word.bytes, rfl, ?_⟩
    rw [tokens_space, word.tokens_eq]
    exact List.concat_ne_nil _ _

theorem stale_nil : Stale [] none := by
  refine ⟨?_, fun hne => absurd rfl hne⟩
  rintro text ⟨⟩

theorem Stale.flush {content : Bytes} {shown : Option Bytes} (h : Stale content shown) :
    Stale [] shown :=
  ⟨h.words, fun hne => absurd rfl hne⟩

theorem stale_word (word : Word) : Stale (32 :: word.bytes) (some (32 :: word.bytes)) :=
  stale_nil.behind word

/-- The words are printed once and in their order. -/
theorem Renders.tokens_eq {content content' : Bytes} {shown : Option Bytes} {words : List Word}
    {texts : List (Option Bytes)} (h : Renders content shown words texts content')
    (hstale : Stale content shown) (hsep : Separated content words) :
    ∃ ts : List Bytes, texts = ts.map some ∧ ∀ sent,
      tokens isSeparator (sent ++ ts.flatten ++ content') =
        tokens isSeparator (sent ++ content) ++ words.map fun word => word.bytes := by
  induction h with
  | nil => exact ⟨[], rfl, fun sent => by simp⟩
  | @behind content content' shown word words texts hshort _ ih =>
      have hrest : Separated (content ++ 32 :: word.bytes) words :=
        (separated_short content (by simp) hshort).mp hsep
      obtain ⟨ts, rfl, hts⟩ := ih (hstale.behind word) hrest
      refine ⟨ts, rfl, ?_⟩
      intro sent
      rw [hts, tokens_behind, List.append_assoc]
      rfl
  | @next content content' shown word words texts hshort _ ih =>
      have hrest : Separated (32 :: word.bytes) words :=
        (separated_short content (by simp) hshort).mp hsep
      obtain ⟨ts, rfl, hts⟩ := ih (stale_word word) hrest
      refine ⟨(content ++ [10]) :: ts, rfl, ?_⟩
      intro sent
      rw [List.flatten_cons, ← List.append_assoc sent, hts, tokens_next, List.append_assoc]
      rfl
  | @alone content content' shown word words texts hlong _ ih =>
      obtain ⟨hne, hrest⟩ := (separated_long hlong).mp hsep
      obtain ⟨ts, rfl, hts⟩ := ih hstale.flush hrest
      rw [hstale.content hne]
      refine ⟨(content ++ [10]) :: (word.bytes ++ [10]) :: ts, rfl, ?_⟩
      intro sent
      rw [List.flatten_cons, List.flatten_cons, ← List.append_assoc sent,
        ← List.append_assoc (sent ++ (content ++ [10])), hts, tokens_alone, List.append_assoc]
      rfl

theorem withNewline_eq_some {text : Option Bytes} {t : Bytes} (h : withNewline text = some t) :
    ∃ bytes, text = some bytes ∧ t = bytes ++ [10] := by
  obtain ⟨bytes, htext, ht⟩ := Option.map_eq_some_iff.mp h
  exact ⟨bytes, htext, ht.symm⟩

/-- There are at least as many words in the texts as there should be, and more if the line is
printed again. -/
theorem Renders.length_le {content content' : Bytes} {shown : Option Bytes} {words : List Word}
    {texts : List (Option Bytes)} (h : Renders content shown words texts content')
    (hstale : Stale content shown) {ts : List Bytes} (hts : ts.map some = texts) (sent : Bytes) :
    (tokens isSeparator (sent ++ content)).length + words.length ≤
        (tokens isSeparator (sent ++ ts.flatten ++ content')).length ∧
      (¬ Separated content words → (tokens isSeparator (sent ++ content)).length + words.length <
        (tokens isSeparator (sent ++ ts.flatten ++ content')).length) := by
  induction h generalizing ts sent with
  | @nil content shown =>
      obtain rfl := List.map_eq_nil_iff.mp hts
      simp [separated_nil content]
  | @behind content content' shown word words texts hshort _ ih =>
      have hadd := congrArg List.length (tokens_behind sent content word)
      obtain ⟨hle, hlt⟩ := ih (hstale.behind word) hts sent
      rw [← separated_short content (by simp) hshort] at hlt
      rw [List.length_append, List.length_singleton] at hadd
      rw [hadd, add_assoc, add_comm 1] at hle hlt
      exact ⟨hle, hlt⟩
  | @next content content' shown word words texts hshort _ ih =>
      obtain ⟨t, ts, rfl, ht, hts'⟩ := List.map_eq_cons_iff.mp hts
      obtain ⟨_, ⟨⟩, rfl⟩ := withNewline_eq_some ht.symm
      have hadd := congrArg List.length (tokens_next sent content word)
      obtain ⟨hle, hlt⟩ := ih (stale_word word) hts' (sent ++ (content ++ [10]))
      rw [← separated_short content (by simp) hshort] at hlt
      rw [List.length_append, List.length_singleton] at hadd
      rw [hadd, add_assoc, add_comm 1] at hle hlt
      rw [List.flatten_cons, ← List.append_assoc sent]
      exact ⟨hle, hlt⟩
  | @alone content content' shown word words texts hlong _ ih =>
      obtain ⟨t, ts, rfl, ht, hts'⟩ := List.map_eq_cons_iff.mp hts
      obtain ⟨t', ts, rfl, ht', hts''⟩ := List.map_eq_cons_iff.mp hts'
      obtain ⟨text, hshown, rfl⟩ := withNewline_eq_some ht.symm
      obtain ⟨_, ⟨⟩, rfl⟩ := withNewline_eq_some ht'.symm
      have hadd := congrArg List.length (tokens_alone sent text word)
      obtain ⟨hle, hlt⟩ := ih hstale.flush hts'' (sent ++ (text ++ [10]) ++ (word.bytes ++ [10]))
      rw [List.length_append, List.length_singleton] at hadd
      rw [hadd, add_assoc, add_comm 1] at hle hlt
      rw [List.flatten_cons, List.flatten_cons, ← List.append_assoc sent,
        ← List.append_assoc (sent ++ (text ++ [10])), separated_long hlong]
      by_cases hne : content = []
      · -- the words of the text are printed again
        obtain ⟨rest, rfl, hrest⟩ := hstale.words text hshown
        have hmore : (tokens isSeparator (sent ++ content)).length <
            (tokens isSeparator (sent ++ 32 :: rest)).length := by
          rw [hne, List.append_nil, tokens_space, List.length_append]
          exact Nat.lt_add_of_pos_right (List.length_pos_iff.mpr hrest)
        simp only [List.length_cons]
        exact ⟨by omega, fun _ => by omega⟩
      · obtain rfl : text = content := Option.some.inj (hshown.symm.trans (hstale.content hne))
        refine ⟨hle, fun hsep => hlt fun hrest => hsep ⟨hne, hrest⟩⟩

/-! ## The whole function -/

/-- What is printed for the rest of the line. -/
def lastLine (content : Bytes) : List Bytes :=
  if content = [] then [] else [content ++ [10]]

theorem finish_eq {line : Line} {content : Bytes} {shown : Option Bytes}
    (h : line.Holds content shown) : line.finish = ((lastLine content).map some, some ()) := by
  unfold Line.finish lastLine
  by_cases hempty : content = []
  · rw [if_neg (by simp [h.usedLen, hempty]), if_pos hempty]
    rfl
  · have hpos : line.usedLen > 0 := by
      rw [h.usedLen]
      exact List.length_pos_iff.mpr hempty
    rw [if_pos hpos, if_neg hempty, h.string_eq, h.shown_eq hempty]
    rfl

theorem tokens_lastLine (sent content : Bytes) :
    tokens isSeparator (sent ++ (lastLine content).flatten) =
      tokens isSeparator (sent ++ content) := by
  unfold lastLine
  split
  case isTrue hempty => rw [hempty, List.flatten_nil]
  case isFalse =>
    rw [List.flatten_singleton, ← List.append_assoc, tokens_newline, tokens_nil, List.append_nil]

theorem printSortedWords_eq (idx : ℤ) {strs : List Bytes} {texts : List (Option Bytes)}
    {line : Line} {content : Bytes} {shown : Option Bytes}
    (hrun : strs.foldlM Line.addWord Line.start = (texts, some line))
    (hline : line.Holds content shown) :
    printSortedWords idx strs =
      ([10 :: rule, threadTitle idx, rule].map some ++ (texts ++ (lastLine content).map some) ++
        [rule ++ [10]].map some, some ()) := by
  have hloop : (strs.foldlM Line.addWord Line.start >>= fun line => do
      line.finish
      printf (some (rule ++ [10]))) =
      (texts ++ ((lastLine content).map some ++ [some (rule ++ [10])]), some ()) := by
    rw [Prints.bind_some hrun, Prints.bind_some (finish_eq hline)]
    rfl
  have hheader : printSortedWords idx strs =
      ([some (10 :: rule)] ++ ([some (threadTitle idx)] ++ ([some rule] ++
        (texts ++ ((lastLine content).map some ++ [some (rule ++ [10])])))), some ()) := by
    unfold printSortedWords
    rw [hloop]
    rfl
  rw [hheader]
  simp only [List.map_cons, List.map_nil, List.append_assoc, List.cons_append, List.nil_append]
  rfl

/-- All that is printed has been stored, and the words between the header and the footer are the
words of the array. -/
def PrintsWords (words : List Word) : Prop :=
  ∃ body : List Bytes,
    (∀ idx, printSortedWords idx (strings (words.map Word.toCString)) =
      (([10 :: rule, threadTitle idx, rule] ++ body ++ [rule ++ [10]]).map some, some ())) ∧
    tokens isSeparator body.flatten = words.map fun word => word.bytes

/-- Words that the loop prints. -/
structure Printable (words : List Word) : Prop where
  fits : ∀ word ∈ words, Fits word.bytes
  first : ∀ word ∈ words.head?, IsShort word.bytes
  pairs : words.IsChain fun word next => IsShort word.bytes ∨ IsShort next.bytes

theorem printable_iff (words : List Word) :
    Printable words ↔ (∀ word ∈ words, Fits word.bytes) ∧ Separated [] words := by
  constructor
  · intro h
    exact ⟨h.fits, fun _ => h.first, h.pairs⟩
  · rintro ⟨hfits, hsep⟩
    exact ⟨hfits, hsep.first rfl, hsep.pairs⟩

theorem PrintsWords.fits {words : List Word} (h : PrintsWords words) :
    ∀ word ∈ words, Fits word.bytes := by
  obtain ⟨body, hprints, -⟩ := h
  have hresult : (printSortedWords 0 (strings (words.map Word.toCString))).2 = some () := by
    rw [hprints 0]
  intro word hword
  exact (result_printSortedWords_iff 0 _).mp hresult _ (List.mem_map_of_mem hword)

theorem PrintsWords.separated {words : List Word} (h : PrintsWords words) :
    Separated [] words := by
  obtain ⟨texts, line, content, shown, hrun, hline, hrenders⟩ := foldlM_renders start_holds h.fits
  obtain ⟨body, hprints, htokens⟩ := h
  have htexts : body.map some = texts ++ (lastLine content).map some := by
    have heq := congrArg Prod.fst ((hprints 0).symm.trans (printSortedWords_eq 0 hrun hline))
    simp only [List.map_append, List.append_assoc] at heq
    have hbody := List.append_cancel_left heq
    simp only [← List.append_assoc] at hbody
    exact List.append_cancel_right hbody
  obtain ⟨ts, last, rfl, hts, hlast⟩ := List.map_eq_append_iff.mp htexts
  obtain rfl : last = lastLine content := (Option.some_injective Bytes).list_map hlast
  by_contra hsep
  have hlt := (hrenders.length_le stale_nil hts []).2 hsep
  rw [List.nil_append, List.nil_append, ← tokens_lastLine, ← List.flatten_append, htokens,
    List.length_map, tokens_nil, List.length_nil, zero_add] at hlt
  exact lt_irrefl _ hlt

theorem printsWords_of_separated {words : List Word} (hfits : ∀ word ∈ words, Fits word.bytes)
    (hsep : Separated [] words) : PrintsWords words := by
  obtain ⟨texts, line, content, shown, hrun, hline, hrenders⟩ := foldlM_renders start_holds hfits
  obtain ⟨ts, rfl, hts⟩ := hrenders.tokens_eq stale_nil hsep
  refine ⟨ts ++ lastLine content, ?_, ?_⟩
  · intro idx
    rw [printSortedWords_eq idx hrun hline, List.map_append, List.map_append, List.map_append]
  · rw [List.flatten_append, tokens_lastLine]
    simpa using hts []

/-- The words are printed, each of them once and in their order, exactly if no long word is the
first one or comes after a long word. -/
theorem printsWords_iff (words : List Word) : PrintsWords words ↔ Printable words := by
  rw [printable_iff]
  constructor
  · intro h
    exact ⟨h.fits, h.separated⟩
  · rintro ⟨hfits, hsep⟩
    exact printsWords_of_separated hfits hsep

/-- The word `aaa...` -/
def letters (n : ℕ) (hn : n ≠ 0) : Word where
  bytes := List.replicate n 97
  no_nul h := absurd (List.eq_of_mem_replicate h) (by decide)
  ne_nil h := hn (List.replicate_eq_nil_iff _ |>.mp h)
  separators b h := by
    rw [List.eq_of_mem_replicate h]
    rfl

def shortWord : Word :=
  letters 1 (by decide)

def longWord : Word :=
  letters 201 (by decide)

/-- The line is printed before anything has been stored in it, and it is printed twice. -/
theorem not_printsWords_long :
    (¬ PrintsWords [longWord] ∧
      (printSortedWords 0 (strings [longWord.toCString])).1[3]? = some none) ∧
    ¬ PrintsWords [shortWord, longWord, longWord] ∧
      (printSortedWords 0
          (strings [shortWord.toCString, longWord.toCString, longWord.toCString])).1 =
        ([10 :: rule, threadTitle 0, rule, [32, 97, 10], longWord.bytes ++ [10], [32, 97, 10],
          longWord.bytes ++ [10], rule ++ [10]] : List Bytes).map some := by
  have hlong : ¬ IsShort longWord.bytes := by
    have hlength : longWord.bytes.length = 201 := List.length_replicate
    rw [IsShort, hlength]
    decide
  refine ⟨⟨?_, by decide +kernel⟩, ?_, by decide +kernel⟩
  · intro h
    exact hlong (h.separated.first rfl longWord rfl)
  · intro h
    have hpairs := (List.isChain_cons.mp h.separated.pairs).2
    have hpair := (List.isChain_cons.mp hpairs).1 longWord rfl
    exact hpair.elim hlong hlong

end SysProg.PrintedWords
