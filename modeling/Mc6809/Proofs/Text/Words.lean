/-
Trimming and cutting texts, said without a scan. A text trims to the part of
it that stands between blanks and has no blank at either end (`Trims`), its
words are runs without blanks that blanks keep apart (`Spaced`), its lines
are what line feeds join (`LineFed`), and its code is what stands before the
first semicolon (`Uncommented`).

Each of these is a relation that the function of `Text` decides: `trims_iff`,
`spaced_iff`, `lineFed_iff`. So a text trims to one text and has one list of
words, whichever way the blanks are found.
-/
import Mc6809.Text.Blank

namespace Mc6809

namespace Text

/-- All characters of a text are blank. -/
def Blanks (text : List Char) : Prop := ∀ c ∈ text, isBlank c = true

/-- A text that is not empty and has no blanks. -/
def IsWord (text : List Char) : Prop := text ≠ [] ∧ ∀ c ∈ text, isBlank c = false

/-- No blank at the start of a text. -/
def StartsSolid (text : List Char) : Prop := ∀ c, text.head? = some c → isBlank c = false

/-- Nothing, or a blank, at the start of a text. -/
def StartsBlank (text : List Char) : Prop := ∀ c, text.head? = some c → isBlank c = true

/-- `core` is `text` without the blanks at its ends. -/
def Trims (text core : List Char) : Prop :=
  ∃ before after, text = before ++ core ++ after ∧ Blanks before ∧ Blanks after ∧
    StartsSolid core ∧ StartsSolid core.reverse

/-- A text, and the words that blanks keep apart in it. -/
inductive Spaced : List Char → List (List Char) → Prop
  | blanks {gap} (hgap : Blanks gap) : Spaced gap []
  | word {gap word rest words} (hgap : Blanks gap) (hword : IsWord word) (hrest : StartsBlank rest)
      (h : Spaced rest words) : Spaced (gap ++ word ++ rest) (word :: words)

/-- Texts without line feeds that make up `text` when line feeds join them. -/
def LineFed (text : List Char) (lines : List (List Char)) : Prop :=
  lines ≠ [] ∧ (∀ line ∈ lines, '\n' ∉ line) ∧ ['\n'].intercalate lines = text

/-- `kept` is what stands before the first semicolon of a text, if it has one. -/
def Uncommented (text kept : List Char) : Prop :=
  ';' ∉ kept ∧ (text = kept ∨ ∃ comment, text = kept ++ ';' :: comment)

/-! ## Trimming -/

theorem dropWhile_append_solid {before core : List Char} (hb : Blanks before) (hc : StartsSolid core) :
    (before ++ core).dropWhile isBlank = core := by
  rw [List.dropWhile_append_of_pos hb]
  cases core with
  | nil => rfl
  | cons c core => simp [hc c rfl]

theorem startsSolid_dropWhile (text : List Char) : StartsSolid (text.dropWhile isBlank) := by
  induction text with
  | nil => simp [StartsSolid]
  | cons c text ih =>
    by_cases hc : isBlank c = true
    · rw [List.dropWhile_cons_of_pos hc]
      exact ih
    · rw [List.dropWhile_cons_of_neg hc]
      intro d hd
      cases hd
      simpa using hc

theorem blanks_takeWhile (text : List Char) : Blanks (text.takeWhile isBlank) := by
  intro c hc
  exact List.all_eq_true.1 List.all_takeWhile c hc

theorem Blanks.reverse {text : List Char} (h : Blanks text) : Blanks text.reverse :=
  fun c hc => h c (List.mem_reverse.1 hc)

theorem StartsSolid.of_append {core after : List Char} (h : StartsSolid (core ++ after)) :
    StartsSolid core := by
  cases core with
  | nil => simp [StartsSolid]
  | cons c core => exact fun d hd => h d hd

theorem StartsSolid.append {core : List Char} (h : StartsSolid core) (hne : core ≠ [])
    (rest : List Char) : StartsSolid (core ++ rest) := by
  cases core with
  | nil => exact absurd rfl hne
  | cons c core => exact fun d hd => h d hd

/-- A text without blanks at its ends trims to itself. -/
theorem trims_self {core : List Char} (hs : StartsSolid core) (he : StartsSolid core.reverse) :
    Trims core core :=
  ⟨[], [], by simp, by simp [Blanks], by simp [Blanks], hs, he⟩

theorem Trims.trim_eq {text core : List Char} (h : Trims text core) : trim text = core := by
  obtain ⟨before, after, rfl, hb, ha, hs, he⟩ := h
  -- An empty core is the one case in which the blanks in front reach the end.
  cases core with
  | nil =>
    have hall : Blanks (before ++ after) := by
      intro c hc
      rcases List.mem_append.1 hc with hc | hc
      · exact hb c hc
      · exact ha c hc
    have hnil : trimStart (before ++ after) = [] := by
      have h := dropWhile_append_solid hall hs
      rwa [List.append_nil] at h
    rw [List.append_nil, trim, hnil]
    rfl
  | cons c core =>
    have hstart : trimStart (before ++ (c :: core) ++ after) = (c :: core) ++ after := by
      rw [List.append_assoc]
      exact dropWhile_append_solid hb fun d hd => hs d hd
    have hend : ((c :: core) ++ after).reverse.dropWhile isBlank = (c :: core).reverse := by
      rw [List.reverse_append]
      exact dropWhile_append_solid ha.reverse he
    rw [trim, hstart, trimEnd, hend, List.reverse_reverse]

theorem trims_trim (text : List Char) : Trims text (trim text) := by
  have hstart : text = text.takeWhile isBlank ++ trimStart text := List.takeWhile_append_dropWhile.symm
  have hend : trimStart text = trim text ++ ((trimStart text).reverse.takeWhile isBlank).reverse := by
    have h := List.takeWhile_append_dropWhile (p := isBlank) (l := (trimStart text).reverse)
    have h := congrArg List.reverse h
    rw [List.reverse_append, List.reverse_reverse] at h
    exact h.symm
  refine ⟨text.takeWhile isBlank, ((trimStart text).reverse.takeWhile isBlank).reverse, ?_,
    blanks_takeWhile text, (blanks_takeWhile _).reverse, ?_, ?_⟩
  · rw [List.append_assoc, ← hend]
    exact hstart
  · have hs : StartsSolid (trimStart text) := startsSolid_dropWhile text
    rw [hend] at hs
    exact hs.of_append
  · rw [trim, trimEnd, List.reverse_reverse]
    exact startsSolid_dropWhile _

theorem IsWord.startsSolid {word : List Char} (h : IsWord word) : StartsSolid word :=
  fun c hc => h.2 c (List.mem_of_head? hc)

theorem IsWord.reverse {word : List Char} (h : IsWord word) : IsWord word.reverse :=
  ⟨fun hnil => h.1 (List.reverse_eq_nil_iff.1 hnil), fun c hc => h.2 c (List.mem_reverse.1 hc)⟩

/-- A word between blanks is what the whole trims to. -/
theorem IsWord.trims {before word after : List Char} (h : IsWord word) (hbefore : Blanks before)
    (hafter : Blanks after) : Trims (before ++ word ++ after) word :=
  ⟨before, after, rfl, hbefore, hafter, h.startsSolid, h.reverse.startsSolid⟩

/-- Trimming finds the one text that a text trims to. -/
theorem trims_iff {text core : List Char} : Trims text core ↔ trim text = core := by
  constructor
  · exact Trims.trim_eq
  · intro h
    subst h
    exact trims_trim text

/-! ## Words -/

theorem words_cons_blank {c : Char} (hc : isBlank c = true) (text : List Char) :
    words (c :: text) = words text := by
  rw [words.eq_def]
  simp only [hc, if_true]

theorem words_singleton {c : Char} (hc : isBlank c = false) : words [c] = [[c]] := by
  rw [words.eq_def]
  simp only [hc, Bool.false_eq_true, if_false]

theorem words_cons_before_blank {c d : Char} {text : List Char} (hc : isBlank c = false)
    (hd : isBlank d = true) : words (c :: d :: text) = [c] :: words (d :: text) := by
  rw [words.eq_def]
  simp only [hc, hd, Bool.false_eq_true, if_false, if_true]

theorem words_cons_before_solid {c d : Char} {text word : List Char} {others : List (List Char)}
    (hc : isBlank c = false) (hd : isBlank d = false) (hw : words (d :: text) = word :: others) :
    words (c :: d :: text) = (c :: word) :: others := by
  rw [words.eq_def]
  simp only [hc, hd, hw, Bool.false_eq_true, if_false]

theorem words_append_of_blanks {gap : List Char} (h : Blanks gap) (rest : List Char) :
    words (gap ++ rest) = words rest := by
  induction gap with
  | nil => rfl
  | cons c gap ih =>
    rw [List.cons_append, words_cons_blank (h c (by simp))]
    exact ih fun d hd => h d (by simp [hd])

theorem words_append_of_isWord {word rest : List Char} (h : IsWord word) (hrest : StartsBlank rest) :
    words (word ++ rest) = word :: words rest := by
  obtain ⟨hne, hsolid⟩ := h
  induction word with
  | nil => exact absurd rfl hne
  | cons c word ih =>
    have hc : isBlank c = false := hsolid c (by simp)
    cases word with
    | nil =>
      cases rest with
      | nil => exact words_singleton hc
      | cons d rest => exact words_cons_before_blank hc (hrest d rfl)
    | cons d word =>
      have hd : isBlank d = false := hsolid d (by simp)
      exact words_cons_before_solid hc hd (ih (by simp) fun e he => hsolid e (by simp [he]))

theorem Spaced.words_eq {text : List Char} {ws : List (List Char)} (h : Spaced text ws) :
    words text = ws := by
  induction h with
  | blanks hgap =>
    have hwords := words_append_of_blanks hgap []
    rw [List.append_nil] at hwords
    exact hwords
  | word hgap hword hrest _ ih =>
    rw [List.append_assoc, words_append_of_blanks hgap, words_append_of_isWord hword hrest, ih]

theorem Spaced.blanks_of_nil {text : List Char} (h : Spaced text []) : Blanks text := by
  generalize hw : ([] : List (List Char)) = ws at h
  cases h with
  | blanks hgap => exact hgap
  | word => cases hw

theorem Spaced.cons_blank {c : Char} {text : List Char} {ws : List (List Char)}
    (hc : isBlank c = true) (h : Spaced text ws) : Spaced (c :: text) ws := by
  have hcons : ∀ {gap : List Char}, Blanks gap → Blanks (c :: gap) := fun hgap d hd => by
    rcases List.mem_cons.1 hd with rfl | hd
    · exact hc
    · exact hgap d hd
  cases h with
  | blanks hgap => exact .blanks (hcons hgap)
  | word hgap hword hrest h => exact .word (hcons hgap) hword hrest h

theorem isWord_singleton {c : Char} (hc : isBlank c = false) : IsWord [c] := by
  simp [IsWord, hc]

theorem Spaced.cons_solid {c d : Char} {text word : List Char} {ws : List (List Char)}
    (hc : isBlank c = false) (hd : isBlank d = false) (h : Spaced (d :: text) (word :: ws)) :
    Spaced (c :: d :: text) ((c :: word) :: ws) := by
  generalize ht : d :: text = t at h
  cases h with
  | @word gap _ rest _ hgap hword hrest h =>
    cases gap with
    | nil =>
      have hcw : IsWord (c :: word) := by
        refine ⟨by simp, fun e he => ?_⟩
        rcases List.mem_cons.1 he with rfl | he
        · exact hc
        · exact hword.2 e he
      show Spaced ([] ++ (c :: word) ++ rest) ((c :: word) :: ws)
      exact .word hgap hcw hrest h
    | cons e gap =>
      -- The text starts with a character that is not blank.
      have he : e = d := by
        simp only [List.cons_append, List.cons.injEq] at ht
        exact ht.1.symm
      simp [he ▸ hgap e (by simp)] at hd

theorem spaced_words (text : List Char) : Spaced text (words text) := by
  induction text with
  | nil => exact .blanks (by simp [Blanks])
  | cons c text ih =>
    by_cases hc : isBlank c = true
    · rw [words_cons_blank hc]
      exact ih.cons_blank hc
    · have hc : isBlank c = false := by simpa using hc
      cases text with
      | nil =>
        rw [words_singleton hc]
        show Spaced ([] ++ [c] ++ []) ([c] :: words [])
        exact .word (by simp [Blanks]) (isWord_singleton hc) (by simp [StartsBlank]) ih
      | cons d text =>
        by_cases hd : isBlank d = true
        · rw [words_cons_before_blank hc hd]
          show Spaced ([] ++ [c] ++ d :: text) ([c] :: words (d :: text))
          refine .word (by simp [Blanks]) (isWord_singleton hc) ?_ ih
          intro e he
          cases he
          exact hd
        · have hd : isBlank d = false := by simpa using hd
          cases hw : words (d :: text) with
          | nil =>
            rw [hw] at ih
            simp [ih.blanks_of_nil d (by simp)] at hd
          | cons word others =>
            rw [words_cons_before_solid hc hd hw]
            rw [hw] at ih
            exact ih.cons_solid hc hd

/-- Cutting a text into words finds the one list of words it has. -/
theorem spaced_iff {text : List Char} {ws : List (List Char)} : Spaced text ws ↔ words text = ws := by
  constructor
  · exact Spaced.words_eq
  · intro h
    subst h
    exact spaced_words text

theorem StartsBlank.append_gap {text gap : List Char} (h : StartsBlank text) (hgap : Blanks gap)
    (hne : gap ≠ []) (rest : List Char) : StartsBlank (text ++ gap ++ rest) := by
  cases text with
  | cons c text => exact fun d hd => h d hd
  | nil =>
    cases gap with
    | nil => exact absurd rfl hne
    | cons c gap =>
      intro d hd
      cases hd
      exact hgap c (by simp)

/-- A gap keeps the words before it apart from those after it. -/
theorem Spaced.words_append_gap {text gap : List Char} {ws : List (List Char)} (h : Spaced text ws)
    (hgap : Blanks gap) (hne : gap ≠ []) (rest : List Char) :
    words (text ++ gap ++ rest) = ws ++ words rest := by
  induction h with
  | blanks hblanks =>
    rw [List.append_assoc, words_append_of_blanks hblanks, words_append_of_blanks hgap]
    rfl
  | @word before word after ws hbefore hword hafter _ ih =>
    have hassoc : before ++ word ++ after ++ gap ++ rest = before ++ (word ++ (after ++ gap ++ rest)) := by
      simp only [List.append_assoc]
    rw [hassoc, words_append_of_blanks hbefore,
      words_append_of_isWord hword (hafter.append_gap hgap hne rest), ih]
    rfl

theorem words_append_gap {gap : List Char} (hgap : Blanks gap) (hne : gap ≠ []) (text rest : List Char) :
    words (text ++ gap ++ rest) = words text ++ words rest :=
  (spaced_words text).words_append_gap hgap hne rest

theorem words_append_blanks {gap : List Char} (hgap : Blanks gap) (text : List Char) :
    words (text ++ gap) = words text := by
  cases gap with
  | nil => rw [List.append_nil]
  | cons c gap =>
    have h := words_append_gap hgap (List.cons_ne_nil c gap) text []
    rwa [List.append_nil, show words [] = [] from rfl, List.append_nil] at h

/-- Words that single spaces keep apart are read as they are. -/
theorem words_intercalate {ws : List (List Char)} (h : ∀ w ∈ ws, IsWord w) :
    words ([' '].intercalate ws) = ws := by
  have hspace : Blanks [' '] := fun c hc => by
    rw [List.mem_singleton.1 hc]
    rfl
  induction ws with
  | nil => rfl
  | cons w ws ih =>
    have hw : words w = [w] := by
      have hwords : words (w ++ []) = [w] :=
        words_append_of_isWord (h w List.mem_cons_self) (by simp [StartsBlank])
      rwa [List.append_nil] at hwords
    cases ws with
    | nil => rwa [List.intercalate_singleton]
    | cons w' ws =>
      rw [List.intercalate_cons_cons, words_append_gap hspace (List.cons_ne_nil _ _), hw,
        ih fun v hv => h v (List.mem_cons_of_mem _ hv)]
      rfl

/-! ## Lines and comments -/

theorem mem_of_mem_intercalate {c : Char} {separator : List Char} {ws : List (List Char)}
    (h : c ∈ separator.intercalate ws) : c ∈ separator ∨ ∃ w ∈ ws, c ∈ w := by
  induction ws with
  | nil => cases h
  | cons w ws ih =>
    cases ws with
    | nil =>
      rw [List.intercalate_singleton] at h
      exact .inr ⟨w, List.mem_cons_self, h⟩
    | cons w' ws =>
      rw [List.intercalate_cons_cons, List.mem_append, List.mem_append] at h
      rcases h with (h | h) | h
      · exact .inr ⟨w, List.mem_cons_self, h⟩
      · exact .inl h
      · exact (ih h).imp_right fun ⟨v, hv, hc⟩ => ⟨v, List.mem_cons_of_mem _ hv, hc⟩

theorem pieces_of_not_mem {separator : Char} {text : List Char} (h : separator ∉ text) :
    pieces separator text = [text] := by
  induction text with
  | nil => rfl
  | cons c text ih =>
    simp only [List.mem_cons, not_or] at h
    rw [pieces, if_neg (Ne.symm h.1), ih h.2]

theorem pieces_append {separator : Char} {piece : List Char} (h : separator ∉ piece)
    (rest : List Char) :
    pieces separator (piece ++ separator :: rest) = piece :: pieces separator rest := by
  induction piece with
  | nil => rw [List.nil_append, pieces, if_pos rfl]
  | cons c piece ih =>
    simp only [List.mem_cons, not_or] at h
    rw [List.cons_append, pieces, if_neg (Ne.symm h.1), ih h.2]

theorem not_mem_of_mem_pieces {separator : Char} :
    ∀ {text piece : List Char}, piece ∈ pieces separator text → separator ∉ piece
  | [], piece, h => by
    simp only [pieces, List.mem_singleton] at h
    simp [h]
  | c :: text, piece, h => by
    rw [pieces] at h
    split at h
    · rcases List.mem_cons.1 h with rfl | h
      · simp
      · exact not_mem_of_mem_pieces h
    next hc =>
      split at h
      next hnil => exact absurd hnil (pieces_ne_nil separator text)
      next first others hcons =>
        have ih : ∀ p ∈ first :: others, separator ∉ p := fun p hp =>
          @not_mem_of_mem_pieces separator text p (hcons ▸ hp)
        rcases List.mem_cons.1 h with rfl | h
        · simp only [List.mem_cons, not_or]
          exact ⟨Ne.symm hc, ih first (by simp)⟩
        · exact ih piece (by simp [h])

theorem pieces_intercalate {separator : Char} : ∀ {ps : List (List Char)}, ps ≠ [] →
    (∀ p ∈ ps, separator ∉ p) → pieces separator ([separator].intercalate ps) = ps
  | [], hne, _ => absurd rfl hne
  | [p], _, h => by
    simpa [List.intercalate] using pieces_of_not_mem (h p (by simp))
  | p :: q :: ps, _, h => by
    have ih : pieces separator ([separator].intercalate (q :: ps)) = q :: ps :=
      pieces_intercalate (by simp) fun r hr => h r (by simp [hr])
    have hp := pieces_append (h p (by simp)) ([separator].intercalate (q :: ps))
    rw [ih] at hp
    simpa [List.intercalate, List.intersperse] using hp

/-- Cutting a text at its line feeds finds the one list of lines it has. -/
theorem lineFed_iff {text : List Char} {ls : List (List Char)} :
    LineFed text ls ↔ lines text = ls := by
  constructor
  · intro h
    obtain ⟨hne, hfree, rfl⟩ := h
    exact pieces_intercalate hne hfree
  · intro h
    subst h
    exact ⟨pieces_ne_nil _ _, fun _ => not_mem_of_mem_pieces, intercalate_pieces _ _⟩

/-- What comes before the first semicolon is the longest start without one. -/
theorem uncommented_iff {text kept : List Char} :
    Uncommented text kept ↔ text.takeWhile (· != ';') = kept := by
  constructor
  · intro h
    obtain ⟨hfree, h⟩ := h
    have hkept : ∀ c ∈ kept, (c != ';') = true := fun c hc => by
      simpa using fun he : c = ';' => hfree (he ▸ hc)
    rcases h with rfl | ⟨comment, rfl⟩
    · have h := @List.takeWhile_append_of_pos _ _ _ [] hkept
      simpa using h
    · rw [List.takeWhile_append_of_pos hkept]
      simp
  · intro h
    subst h
    refine ⟨fun hmem => ?_, ?_⟩
    · have h := List.all_eq_true.1 (List.all_takeWhile (p := (· != ';')) (l := text)) _ hmem
      simp at h
    · have happ := List.takeWhile_append_dropWhile (p := (· != ';')) (l := text)
      cases hd : text.dropWhile (· != ';') with
      | nil =>
        rw [hd, List.append_nil] at happ
        exact .inl happ.symm
      | cons c comment =>
        have hc : c = ';' := by
          have h := List.head?_dropWhile_not (· != ';') text
          rw [hd] at h
          simpa using h
        rw [hd, hc] at happ
        exact .inr ⟨comment, happ.symm⟩

end Text

end Mc6809
