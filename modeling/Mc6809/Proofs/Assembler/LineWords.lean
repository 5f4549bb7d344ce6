/-
A line is what its words before the first semicolon make of it, and nothing
else of the line counts (`read_eq_ofWords`). So blanks at the ends of a line,
the width of the gaps in it and its comment may be anything
(`words_of_ends`, `words_of_gap`, `words_of_comment`); and as the reader does not
see the case of letters, the line may be in capitals (`read_capitals`).
-/
import Mc6809.Proofs.Assembler.LetterCase

namespace Mc6809

open Text

namespace Line

/-- What words make of a line that has no others before its comment. -/
def ofWords (ws : List (List Char)) : Line :=
  if ws = [] then skipped
  else if ws.map capitals = [['E', 'N', 'D']] then endDirective
  else
    match readInstruction ws with
    | .ok i => instruction i
    | .error reason => malformed reason

/-! ## Comments -/

theorem stripComment_append_of_mem {text : List Char} (h : ';' ∈ text) (rest : List Char) :
    stripComment (text ++ rest) = stripComment text := by
  induction text with
  | nil => cases h
  | cons c text ih =>
    by_cases hc : c = ';'
    · subst hc
      rfl
    · have hmem : ';' ∈ text := (List.mem_cons.1 h).resolve_left fun he => hc he.symm
      simp only [stripComment, List.cons_append, List.takeWhile_cons]
      rw [if_pos (by simpa using hc), if_pos (by simpa using hc)]
      exact congrArg (c :: ·) (ih hmem)

theorem stripComment_append_of_not_mem {text : List Char} (h : ';' ∉ text) (rest : List Char) :
    stripComment (text ++ rest) = text ++ stripComment rest :=
  List.takeWhile_append_of_pos fun c hc => by
    simpa using fun he : c = ';' => h (he ▸ hc)

theorem stripComment_of_not_mem {text : List Char} (h : ';' ∉ text) : stripComment text = text := by
  have hstrip := stripComment_append_of_not_mem h []
  rwa [List.append_nil, show stripComment [] = [] from rfl, List.append_nil] at hstrip

theorem stripComment_capitals (text : List Char) :
    stripComment (capitals text) = capitals (stripComment text) :=
  takeWhile_capitals (fun c => apply_toUpper (· != ';') (by decide) c) text

theorem not_mem_of_blanks {gap : List Char} (h : Blanks gap) : ';' ∉ gap := by
  intro hmem
  exact absurd (h ';' hmem) (by decide)

/-! ## What does not change the words of a line -/

theorem words_of_ends {before after : List Char} (hbefore : Blanks before) (hafter : Blanks after)
    (core : List Char) : words (stripComment (before ++ core ++ after)) = words (stripComment core) := by
  rw [List.append_assoc, stripComment_append_of_not_mem (not_mem_of_blanks hbefore),
    words_append_of_blanks hbefore]
  by_cases hmem : ';' ∈ core
  · rw [stripComment_append_of_mem hmem]
  · rw [stripComment_append_of_not_mem hmem, stripComment_of_not_mem (not_mem_of_blanks hafter),
      words_append_blanks hafter, stripComment_of_not_mem hmem]

theorem words_of_gap {gap gap' : List Char} (hgap : Blanks gap) (hne : gap ≠ []) (hgap' : Blanks gap')
    (hne' : gap' ≠ []) (left right : List Char) :
    words (stripComment (left ++ gap ++ right)) = words (stripComment (left ++ gap' ++ right)) := by
  by_cases hmem : ';' ∈ left
  · simp only [List.append_assoc, stripComment_append_of_mem hmem]
  · have key : ∀ {gap : List Char}, Blanks gap → gap ≠ [] →
        words (stripComment (left ++ gap ++ right)) = words left ++ words (stripComment right) := by
      intro gap hgap hne
      rw [List.append_assoc, stripComment_append_of_not_mem hmem,
        stripComment_append_of_not_mem (not_mem_of_blanks hgap), ← List.append_assoc,
        words_append_gap hgap hne]
    rw [key hgap hne, key hgap' hne']

theorem words_of_comment (raw comment : List Char) :
    words (stripComment (raw ++ ';' :: comment)) = words (stripComment raw) := by
  by_cases hmem : ';' ∈ raw
  · rw [stripComment_append_of_mem hmem]
  · have hcomment : stripComment (';' :: comment) = [] := rfl
    rw [stripComment_append_of_not_mem hmem, hcomment, List.append_nil, stripComment_of_not_mem hmem]

/-! ## Reading words -/

theorem words_trim (text : List Char) : words (trim text) = words text := by
  obtain ⟨before, after, htext, hbefore, hafter, -⟩ := trims_trim text
  have hwords : words (before ++ trim text ++ after) = words (trim text) := by
    rw [List.append_assoc, words_append_of_blanks hbefore, words_append_blanks hafter]
  rw [← htext] at hwords
  exact hwords.symm

theorem words_of_code {raw code : List Char} (h : Code raw code) :
    words code = words (stripComment raw) := by
  obtain rfl := code_iff.1 h
  obtain ⟨before, after, hraw, hbefore, hafter, -⟩ := trims_trim raw
  have hends := words_of_ends hbefore hafter (trim raw)
  rw [← hraw] at hends
  rw [words_trim, ← hends]

/-- A line without words before its comment is skipped, and no other is. -/
theorem isSkipped_iff_words {raw : List Char} : IsSkipped raw ↔ words (stripComment raw) = [] := by
  rw [← words_of_code (code_iff.2 rfl)]
  constructor
  · intro h
    rw [Code.eq_nil_of_isSkipped (code_iff.2 rfl) h]
    rfl
  · intro h
    rw [words_trim] at h
    have hblanks : Blanks (stripComment (trim raw)) := (spaced_iff.2 h).blanks_of_nil
    rw [isSkipped_iff]
    cases htrim : trim raw with
    | nil => exact .inl rfl
    | cons c rest =>
      refine .inr (Classical.byContradiction fun hne => ?_)
      have hc : c ≠ ';' := fun he => hne (congrArg some he)
      obtain ⟨-, -, -, -, -, hsolid, -⟩ := trims_trim raw
      have hmem : c ∈ stripComment (trim raw) := by
        rw [htrim, stripComment, List.takeWhile_cons_of_pos (by simpa using hc)]
        exact List.mem_cons_self
      have hblank := hblanks c hmem
      rw [hsolid c (by rw [htrim]; rfl)] at hblank
      cases hblank

/-- Code that is trimmed is the word `END` if that is its one word. -/
theorem isEnd_iff_words {raw code : List Char} (h : Code raw code) :
    isEnd code = true ↔ (words code).map capitals = [['E', 'N', 'D']] := by
  constructor
  · intro hend
    rw [words_of_isEnd hend]
    exact congrArg (fun word => [word]) (beq_iff_eq.1 hend)
  · intro hwords
    obtain ⟨word, hone, hword⟩ := List.map_eq_singleton_iff.1 hwords
    have htrims : Trims code word := by
      cases spaced_iff.2 hone with
      | word hgap hsolid _ hrest => exact hsolid.trims hgap hrest.blanks_of_nil
    obtain ⟨_, _, -, -, -, -, -, -, -, hstart, hfinish⟩ := h
    obtain rfl : code = word := (trims_self hstart hfinish).trim_eq.symm.trans htrims.trim_eq
    rw [isEnd, beq_iff_eq]
    exact hword

/-- **A line is what its words make of it**, those before its comment. -/
theorem read_eq_ofWords (raw : List Char) : read raw = ofWords (words (stripComment raw)) := by
  have hcode : Code raw (trim (stripComment (trim raw))) := code_iff.2 rfl
  unfold ofWords
  by_cases hskipped : IsSkipped raw
  · rw [read_of_isSkipped hskipped, if_pos (isSkipped_iff_words.1 hskipped)]
  · rw [read_of_not_isSkipped hskipped hcode, if_neg (mt isSkipped_iff_words.2 hskipped),
      ← words_of_code hcode]
    exact ite_congr (propext (isEnd_iff_words hcode)) (fun _ => rfl) fun _ => rfl

/-! ## The case of letters -/

theorem ofWords_capitals (ws : List (List Char)) :
    ofWords (ws.map capitals) = (ofWords ws).inCapitals := by
  unfold ofWords
  simp only [List.map_eq_nil_iff, List.map_map, Function.comp_def, capitals_capitals,
    readInstruction_capitals]
  split
  · rfl
  · split
    · rfl
    · cases readInstruction ws <;> rfl

/-- A line in capitals is read as the line is, but for the words that a reason quotes. -/
theorem read_capitals (raw : List Char) : read (capitals raw) = (read raw).inCapitals := by
  rw [read_eq_ofWords, read_eq_ofWords, stripComment_capitals, words_capitals, ofWords_capitals]

end Line

end Mc6809
