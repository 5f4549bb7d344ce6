/-
Reading a line word by word, up to some place and on from there. What was read
up to a place is kept as a `Reading`: the words that are complete, the mode,
and the word at hand. The words of a whole line are those that its front has
and those that the rest goes on to (`split_append`).

A bare word that is read next is taken as it stands, lost in a comment or left
within an open quote, by the mode alone (`split_append_isBare_iff`). A line
without marks other than blanks is read to a place between two words, and what
stands after that place is such a word (`exists_endsInGap`).
-/
import Mathlib.Data.List.Induction
import Mc6809.Text.ShellWords

namespace Mc6809

namespace ShellWords

/-- How far a line has been read. -/
structure Reading where
  words : List (List Char)
  mode : Mode
  word : List Char
  deriving Repr, DecidableEq

/-- Reads on over a text, `word` being at hand. -/
def scan (mode : Mode) (word : List Char) : List Char → Reading
  | [] => ⟨[], mode, word⟩
  | c :: rest =>
    match move mode c with
    | .add text next => scan next (word ++ text) rest
    | .endWord =>
      let r := scan .gap [] rest
      { r with words := word :: r.words }

/-- Reads the front of a line. -/
def scanFront (front : List Char) : Reading := scan .gap [] front

/-- A text is read to a place where the next word may start. -/
def EndsInGap (front : List Char) (words : List (List Char)) : Prop := scanFront front = ⟨words, .gap, []⟩

/-- The characters that do not stand for themselves outside quotes. -/
def marks : List Char := ['\'', '"', '\\', ' ', '\t', '\n']

/-- A word that stands for itself wherever a word may start. -/
def IsBare (word : List Char) : Prop :=
  word ≠ [] ∧ word.head? ≠ some '#' ∧ ∀ c ∈ word, c ∉ marks

/-- Only the characters of the word are looked at. -/
instance (word : List Char) : Decidable (IsBare word) :=
  @instDecidableAnd _ _ inferInstance
    (@instDecidableAnd _ _ inferInstance (List.decidableBAll (· ∉ marks) word))

/-- Reading a bare word next gives the words `init` and that word, nothing else. -/
def Reading.Invites (r : Reading) (init : List (List Char)) (word : List Char) : Prop :=
  match r.mode with
  | .gap | .gapEscape | .bare | .bareEscape => r.words = init ∧ r.word = []
  | .comment => r.words = init ++ [word]
  | .single | .double | .doubleEscape => False

variable {mode : Mode} {word before after : List Char} {c : Char}

/-! ## A text in two parts -/

theorem scan_append (mode : Mode) (word before after : List Char) :
    scan mode word (before ++ after) =
      let r := scan mode word before
      let r' := scan r.mode r.word after
      ⟨r.words ++ r'.words, r'.mode, r'.word⟩ := by
  induction before generalizing mode word with
  | nil => rfl
  | cons c before ih =>
    rw [List.cons_append, scan, scan]
    cases move mode c with
    | add text next => exact ih next (word ++ text)
    | endWord =>
      simp only
      rw [ih]
      rfl

/-- The words of a text are those that a reading of it completes, and the one
that its end may complete. -/
theorem splitFrom_eq (mode : Mode) (word text : List Char) :
    splitFrom mode word text =
      let r := scan mode word text
      (finish r.mode r.word).map (r.words ++ ·) := by
  induction text generalizing mode word with
  | nil => exact Option.map_id'.symm
  | cons c text ih =>
    rw [splitFrom, scan]
    cases move mode c with
    | add text next => exact ih next (word ++ text)
    | endWord =>
      simp only
      rw [ih, Option.map_map]
      rfl

theorem splitFrom_append (mode : Mode) (word before after : List Char) :
    splitFrom mode word (before ++ after) =
      let r := scan mode word before
      (splitFrom r.mode r.word after).map (r.words ++ ·) := by
  rw [splitFrom_eq, scan_append]
  simp only
  rw [splitFrom_eq, Option.map_map]
  simp only [List.append_assoc]
  rfl

theorem split_append (before after : List Char) :
    split (before ++ after) =
      (splitFrom (scanFront before).mode (scanFront before).word after).map
        ((scanFront before).words ++ ·) :=
  splitFrom_append .gap [] before after

/-- What is read from a gap on is read as if it stood alone. -/
theorem EndsInGap.split_append {words : List (List Char)} (h : EndsInGap before words)
    (after : List Char) : split (before ++ after) = (split after).map (words ++ ·) := by
  rw [ShellWords.split_append, h]
  rfl

/-- A text that is read on from a gap keeps the words before it. -/
theorem EndsInGap.split_append_eq_iff {words : List (List Char)} (h : EndsInGap before words)
    (word : List Char) : split (before ++ word) = some (words ++ [word]) ↔ split word = some [word] := by
  rw [h.split_append, Option.map_eq_some_iff]
  constructor
  · intro hsplit
    obtain ⟨more, hmore, heq⟩ := hsplit
    rw [hmore, List.append_cancel_left heq]
  · exact fun hsplit => ⟨_, hsplit, rfl⟩

/-! ## Words without marks -/

theorem not_mem_marks_iff :
    c ∉ marks ↔ c ≠ '\'' ∧ c ≠ '"' ∧ c ≠ '\\' ∧ isGap c = false ∧ c ≠ '\n' := by
  simp only [marks, isGap, List.mem_cons, List.not_mem_nil, not_or, or_false, Bool.or_eq_false_iff,
    beq_eq_false_iff_ne]
  constructor
  · exact fun ⟨hs, hd, he, hspace, htab, hfeed⟩ => ⟨hs, hd, he, ⟨⟨hspace, htab⟩, hfeed⟩, hfeed⟩
  · exact fun ⟨hs, hd, he, ⟨⟨hspace, htab⟩, _⟩, hfeed⟩ => ⟨hs, hd, he, hspace, htab, hfeed⟩

theorem move_bare (h : c ∉ marks) : move .bare c = .add [c] .bare := by
  obtain ⟨hsingle, hdouble, hescape, hgap, -⟩ := not_mem_marks_iff.1 h
  simp [move, hsingle, hdouble, hescape, hgap]

theorem move_gap (h : c ∉ marks) (hhash : c ≠ '#') : move .gap c = .add [c] .bare := by
  obtain ⟨hsingle, hdouble, hescape, hgap, -⟩ := not_mem_marks_iff.1 h
  simp [move, hsingle, hdouble, hescape, hgap, hhash]

theorem scan_bare (start : List Char) (h : ∀ c ∈ word, c ∉ marks) :
    scan .bare start word = ⟨[], .bare, start ++ word⟩ := by
  induction word generalizing start with
  | nil => rw [scan, List.append_nil]
  | cons c word ih =>
    obtain ⟨hc, hword⟩ := List.forall_mem_cons.1 h
    rw [scan, move_bare hc]
    simp only
    rw [ih _ hword, List.append_assoc, List.singleton_append]

/-- A bare word goes on from the word at hand, wherever it may do so. -/
theorem scan_open (start : List Char) (h : IsBare word)
    (hmode : mode ∈ [.gap, .gapEscape, .bare, .bareEscape]) :
    scan mode start word = ⟨[], .bare, start ++ word⟩ := by
  obtain ⟨hne, hhead, hall⟩ := h
  cases word with
  | nil => exact absurd rfl hne
  | cons c word =>
    obtain ⟨hc, hword⟩ := List.forall_mem_cons.1 hall
    have hfeed := (not_mem_marks_iff.1 hc).2.2.2.2
    have hmove : move mode c = .add [c] .bare := by
      simp only [List.mem_cons, List.not_mem_nil, or_false] at hmode
      rcases hmode with rfl | rfl | rfl | rfl
      · exact move_gap hc fun heq => hhead (congrArg some heq)
      · exact if_neg hfeed
      · exact move_bare hc
      · exact if_neg hfeed
    rw [scan, hmove]
    simp only
    rw [scan_bare _ hword, List.append_assoc, List.singleton_append]

theorem splitFrom_open (start : List Char) (h : IsBare word)
    (hmode : mode ∈ [.gap, .gapEscape, .bare, .bareEscape]) :
    splitFrom mode start word = some [start ++ word] := by
  rw [splitFrom_eq, scan_open start h hmode]
  rfl

theorem split_of_isBare (h : IsBare word) : split word = some [word] :=
  splitFrom_open [] h (by decide)

theorem splitFrom_comment (start : List Char) (h : ∀ c ∈ word, c ∉ marks) :
    splitFrom .comment start word = some [] := by
  induction word generalizing start with
  | nil => rfl
  | cons c word ih =>
    obtain ⟨hc, hword⟩ := List.forall_mem_cons.1 h
    rw [splitFrom, move, if_neg (not_mem_marks_iff.1 hc).2.2.2.2]
    exact ih _ hword

/-- No word without marks closes a quote. -/
theorem splitFrom_quoted (start : List Char) (h : ∀ c ∈ word, c ∉ marks)
    (hmode : mode ∈ [.single, .double, .doubleEscape]) : splitFrom mode start word = none := by
  induction word generalizing mode start with
  | nil =>
    simp only [List.mem_cons, List.not_mem_nil, or_false] at hmode
    rcases hmode with rfl | rfl | rfl <;> rfl
  | cons c word ih =>
    obtain ⟨hc, hword⟩ := List.forall_mem_cons.1 h
    obtain ⟨hsingle, hdouble, hescape, -, hfeed⟩ := not_mem_marks_iff.1 hc
    simp only [List.mem_cons, List.not_mem_nil, or_false] at hmode
    rcases hmode with rfl | rfl | rfl
    · rw [splitFrom, move, if_neg hsingle]
      exact ih _ hword (by decide)
    · rw [splitFrom, move, if_neg hdouble, if_neg hescape]
      exact ih _ hword (by decide)
    · rw [splitFrom, move, if_neg hfeed]
      split
      next text next hmove =>
        have hnext : next = .double := by
          split at hmove <;> cases hmove <;> rfl
        exact ih _ hword (by rw [hnext]; decide)
      next hmove => split at hmove <;> cases hmove

/-- **A bare word at the end of a line.** It is the last word, after the words
`init`, just where the text before it invites it. -/
theorem split_append_isBare_iff {init : List (List Char)} (h : IsBare word) :
    split (before ++ word) = some (init ++ [word]) ↔ (scanFront before).Invites init word := by
  rw [split_append, Reading.Invites]
  have hopen : ∀ {start : List Char} {words : List (List Char)},
      words ++ [start ++ word] = init ++ [word] ↔ words = init ∧ start = [] := by
    intro start words
    constructor
    · intro heq
      obtain ⟨hwords, hlast⟩ := List.append_inj' heq rfl
      exact ⟨hwords, List.append_left_eq_self.1 (List.singleton_inj.1 hlast)⟩
    · intro heq
      obtain ⟨rfl, rfl⟩ := heq
      rfl
  cases hmode : (scanFront before).mode with
  | gap | gapEscape | bare | bareEscape =>
    rw [splitFrom_open _ h (by decide), Option.map_some, Option.some.injEq]
    exact hopen
  | comment =>
    rw [splitFrom_comment _ h.2.2, Option.map_some, Option.some.injEq, List.append_nil]
  | single | double | doubleEscape =>
    rw [splitFrom_quoted _ h.2.2 (by decide)]
    simp

/-! ## Lines without marks -/

theorem isBare_singleton (h : c ∉ marks) (hhash : c ≠ '#') : IsBare [c] :=
  ⟨List.cons_ne_nil c [], by simpa using hhash, List.forall_mem_singleton.2 h⟩

theorem IsBare.concat (h : IsBare word) (hc : c ∉ marks) : IsBare (word ++ [c]) := by
  obtain ⟨hne, hhead, hall⟩ := h
  cases word with
  | nil => exact absurd rfl hne
  | cons d word =>
    exact ⟨List.cons_ne_nil _ _, hhead,
      List.forall_mem_append.2 ⟨hall, List.forall_mem_singleton.2 hc⟩⟩

/-- A space or a tab ends the word at hand, if there is one. -/
theorem EndsInGap.blank {words : List (List Char)} (h : EndsInGap before words)
    (hword : word = [] ∨ IsBare word) (hc : c = ' ' ∨ c = '\t') :
    EndsInGap (before ++ word ++ [c]) (words ++ if word = [] then [] else [word]) := by
  have hbefore : scan .gap [] before = ⟨words, .gap, []⟩ := h
  rw [EndsInGap, scanFront, List.append_assoc, scan_append, hbefore]
  rcases hword with rfl | hword
  · rcases hc with rfl | rfl <;> rfl
  · rw [if_neg hword.1]
    simp only
    rw [scan_append, scan_open [] hword (by decide)]
    rcases hc with rfl | rfl <;> rfl

/-- In a line without quotes, backslashes, `#` and line feeds, what stands after
the last space or tab is nothing or a bare word. -/
theorem exists_endsInGap {text : List Char} (h : ∀ c ∈ text, c ∉ ['\'', '"', '\\', '#', '\n']) :
    ∃ before words word, text = before ++ word ∧ EndsInGap before words ∧
      (word = [] ∨ IsBare word) ∧
      (before = [] ∨ before.getLast? = some ' ' ∨ before.getLast? = some '\t') := by
  induction text using List.reverseRecOn with
  | nil => exact ⟨[], [], [], rfl, rfl, .inl rfl, .inl rfl⟩
  | append_singleton text c ih =>
    obtain ⟨before, words, word, rfl, hgap, hword, hlast⟩ :=
      ih fun d hd => h d (List.mem_append_left _ hd)
    have hc := h c (by simp)
    by_cases hblank : c = ' ' ∨ c = '\t'
    · refine ⟨before ++ word ++ [c], _, [], (List.append_nil _).symm, hgap.blank hword hblank,
        .inl rfl, .inr ?_⟩
      rw [List.getLast?_concat, Option.some.injEq, Option.some.injEq]
      exact hblank
    · have hplain : c ∉ marks := by
        simp only [marks, List.mem_cons, List.not_mem_nil, or_false, not_or] at hc hblank ⊢
        exact ⟨hc.1, hc.2.1, hc.2.2.1, hblank.1, hblank.2, hc.2.2.2.2⟩
      have hhash : c ≠ '#' := fun heq => hc (by simp [heq])
      refine ⟨before, words, word ++ [c], List.append_assoc _ _ _, hgap, .inr ?_, hlast⟩
      rcases hword with rfl | hword
      · exact isBare_singleton hplain hhash
      · exact hword.concat hplain

end ShellWords

end Mc6809
