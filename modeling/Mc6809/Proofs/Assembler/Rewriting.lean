/-
Layout and letter case. A source may be rewritten line by line (`LineEdit`):
letters in another case, other blanks at the ends of a line or in its gaps, a
comment at its end; and lines that are skipped may be put in. None of these
changes what a line is read as, but for the words that a reason quotes
(`LineEdit.read`), so however many of them are made, the source comes to the
same as before, at the line that the decisive line has become
(`assemble_rewriting`).
-/
import Mathlib.Data.List.Forall2
import Mc6809.Proofs.Assembler.LineWords
import Mc6809.Proofs.Assembler.Outcome

namespace Mc6809

open Line Text
open SourceLine (place ofSource)

/-- Blanks that a line may have, any of them but a line feed. -/
def Text.IsGap (text : List Char) : Prop := ∀ c ∈ text, isBlank c = true ∧ c ≠ '\n'

instance (text : List Char) : Decidable (IsGap text) :=
  List.decidableBAll (fun c => isBlank c = true ∧ c ≠ '\n') text

/-- A line before and after one edit that leaves its words alone. -/
inductive LineEdit : List Char → List Char → Prop
  /-- Letters of ASCII are written in another case. -/
  | letters {raw raw'} (h : capitals raw = capitals raw') : LineEdit raw raw'
  /-- Blanks at the ends of the line are added, removed or replaced. -/
  | ends {before after before' after' core} (hbefore : IsGap before) (hafter : IsGap after)
      (hbefore' : IsGap before') (hafter' : IsGap after') :
      LineEdit (before ++ core ++ after) (before' ++ core ++ after')
  /-- Blanks in the line are replaced by others. -/
  | gap {left gap gap' right} (hgap : IsGap gap) (hne : gap ≠ []) (hgap' : IsGap gap')
      (hne' : gap' ≠ []) : LineEdit (left ++ gap ++ right) (left ++ gap' ++ right)
  /-- A comment is appended. -/
  | comment {raw comment} (h : '\n' ∉ comment) : LineEdit raw (raw ++ ';' :: comment)

/-- The lines of a source before and after one edit, and the number that a line
has afterwards by the number it had before, counted from 1. -/
inductive SourceEdit : List (List Char) → List (List Char) → (Nat → Nat) → Prop
  | line {above raw raw' below} (h : LineEdit raw raw') :
      SourceEdit (above ++ raw :: below) (above ++ raw' :: below) id
  /-- A line of nothing but blanks, or of a comment after them, is put in. -/
  | insertion {above filler below} (h : IsSkipped filler) (hfree : '\n' ∉ filler) :
      SourceEdit (above ++ below) (above ++ filler :: below)
        fun number => if number ≤ above.length then number else number + 1

/-- The lines of a source before and after any number of edits, and the numbers
that they come to have. -/
inductive Rewriting : List (List Char) → List (List Char) → (Nat → Nat) → Prop
  | refl {raws} : Rewriting raws raws id
  | edit {raws raws' raws'' follow follow'} (h : SourceEdit raws raws' follow)
      (hrest : Rewriting raws' raws'' follow') : Rewriting raws raws'' (follow' ∘ follow)

/-- Two outcomes that are the same but for what a rewriting changes in an error:
the number of its line, which it follows, the text there and where it stands,
and the case of the words that the reason quotes. -/
inductive SameOutcome {α : Type} (follow : Nat → Nat) :
    Except AssemblyError α → Except AssemblyError α → Prop
  | accepted {result} : SameOutcome follow (.ok result) (.ok result)
  | unfinished : SameOutcome follow (.error .missingEnd) (.error .missingEnd)
  | refused {number text text'} {reason reason' : LineError} {span span'}
      (hreason : reason.inCapitals = reason'.inCapitals) :
      SameOutcome follow (.error (.malformedLine number text reason span))
        (.error (.malformedLine (follow number) text' reason' span'))

/-! ## Lines -/

theorem Text.IsGap.blanks {text : List Char} (h : IsGap text) : Blanks text := fun c hc => (h c hc).1

theorem Text.IsGap.not_mem {text : List Char} (h : IsGap text) : '\n' ∉ text := fun hmem => (h _ hmem).2 rfl

/-- An edit of a line leaves what it is read as, but for the case of a reason. -/
theorem LineEdit.read {raw raw' : List Char} (h : LineEdit raw raw') :
    (Line.read raw).inCapitals = (Line.read raw').inCapitals := by
  cases h with
  | letters h => rw [← read_capitals, h, read_capitals]
  | ends hbefore hafter hbefore' hafter' =>
    rw [read_eq_ofWords, read_eq_ofWords, words_of_ends hbefore.blanks hafter.blanks,
      words_of_ends hbefore'.blanks hafter'.blanks]
  | gap hgap hne hgap' hne' =>
    rw [read_eq_ofWords, read_eq_ofWords, words_of_gap hgap.blanks hne hgap'.blanks hne']
  | comment => rw [read_eq_ofWords, read_eq_ofWords, words_of_comment]

theorem mem_capitals_lineFeed {text : List Char} : '\n' ∈ capitals text ↔ '\n' ∈ text := by
  simp only [capitals, List.mem_map, toUpper_eq_iff (d := '\n') (by decide), exists_eq_right]

/-- No edit breaks a line in two. -/
theorem LineEdit.not_mem_lineFeed {raw raw' : List Char} (h : LineEdit raw raw') (hfree : '\n' ∉ raw) :
    '\n' ∉ raw' := by
  cases h with
  | letters h => rwa [← mem_capitals_lineFeed, ← h, mem_capitals_lineFeed]
  | ends _ _ hbefore' hafter' =>
    simp only [List.mem_append, not_or] at hfree ⊢
    exact ⟨⟨hbefore'.not_mem, hfree.1.2⟩, hafter'.not_mem⟩
  | gap _ _ hgap' _ =>
    simp only [List.mem_append, not_or] at hfree ⊢
    exact ⟨⟨hfree.1.1, hgap'.not_mem⟩, hfree.2⟩
  | comment h => simp [hfree, h]

theorem Rewriting.not_mem_lineFeed {raws raws' : List (List Char)} {follow : Nat → Nat}
    (h : Rewriting raws raws' follow) (hfree : ∀ raw ∈ raws, '\n' ∉ raw) :
    ∀ raw ∈ raws', '\n' ∉ raw := by
  induction h with
  | refl => exact hfree
  | edit h _ ih =>
    refine ih ?_
    cases h with
    | line h =>
      simp only [List.forall_mem_append, List.forall_mem_cons] at hfree ⊢
      exact ⟨hfree.1, h.not_mem_lineFeed hfree.2.1, hfree.2.2⟩
    | insertion _ hfiller =>
      simp only [List.forall_mem_append, List.forall_mem_cons] at hfree ⊢
      exact ⟨hfree.1, hfiller, hfree.2⟩

theorem Rewriting.ne_nil {raws raws' : List (List Char)} {follow : Nat → Nat}
    (h : Rewriting raws raws' follow) (hne : raws ≠ []) : raws' ≠ [] := by
  induction h with
  | refl => exact hne
  | edit h _ ih =>
    refine ih ?_
    cases h <;> simp

/-! ## Outcomes -/

namespace SameOutcome

variable {α β : Type} {follow follow' : Nat → Nat} {x y z : Except AssemblyError α}

theorem map (f : α → β) (h : SameOutcome follow x y) : SameOutcome follow (f <$> x) (f <$> y) := by
  cases h with
  | accepted => exact .accepted
  | unfinished => exact .unfinished
  | refused hreason => exact .refused hreason

theorem refl (x : Except AssemblyError α) : SameOutcome id x x := by
  cases x with
  | ok => exact .accepted
  | error e =>
    cases e with
    | malformedLine => exact .refused rfl
    | missingEnd => exact .unfinished

theorem trans (h : SameOutcome follow x y) (h' : SameOutcome follow' y z) :
    SameOutcome (follow' ∘ follow) x z := by
  cases h with
  | accepted => cases h' with | accepted => exact .accepted
  | unfinished => cases h' with | unfinished => exact .unfinished
  | refused hreason => cases h' with | refused hreason' => exact .refused (hreason.trans hreason')

end SameOutcome

/-- A line and the line that it becomes are read as the same, and the number of
the one follows from that of the other. -/
def SourceLine.Follows (follow : Nat → Nat) (line line' : SourceLine) : Prop :=
  line'.number = follow line.number ∧ line.read.inCapitals = line'.read.inCapitals

theorem sameOutcome_of_follows {follow : Nat → Nat} {lines lines' : List SourceLine}
    (h : List.Forall₂ (SourceLine.Follows follow) lines lines') :
    SameOutcome follow (assembleLines lines) (assembleLines lines') := by
  induction h with
  | nil => exact .unfinished
  | @cons line line' lines lines' hline _ ih =>
    obtain ⟨hnumber, hread⟩ := hline
    rw [assembleLines, assembleLines]
    cases hl : line.read with
    | skipped =>
      rw [hl] at hread
      cases hl' : line'.read <;> rw [hl'] at hread <;> cases hread
      exact ih
    | endDirective =>
      rw [hl] at hread
      cases hl' : line'.read <;> rw [hl'] at hread <;> cases hread
      exact .accepted
    | instruction i =>
      rw [hl] at hread
      cases hl' : line'.read <;> rw [hl'] at hread <;> cases hread
      exact ih.map (i :: ·)
    | malformed reason =>
      rw [hl] at hread
      cases hl' : line'.read with
      | malformed reason' =>
        rw [hl'] at hread
        show SameOutcome follow _ (.error (.malformedLine line'.number _ reason' _))
        rw [hnumber]
        exact .refused (Line.malformed.inj hread)
      | _ => rw [hl'] at hread; cases hread

theorem assembleLines_skip {filler : SourceLine} (h : filler.read = .skipped)
    (above below : List SourceLine) :
    assembleLines (above ++ filler :: below) = assembleLines (above ++ below) := by
  induction above with
  | nil => rw [List.nil_append, assembleLines, h]; rfl
  | cons line above ih => rw [List.cons_append, List.cons_append, assembleLines, assembleLines, ih]

/-! ## Edits -/

/-- Lines that are read as others, line by line, and are placed where their
numbers follow. -/
theorem forall₂_place {follow : Nat → Nat} {raws raws' : List (List Char)}
    (h : List.Forall₂ (fun raw raw' => (Line.read raw).inCapitals = (Line.read raw').inCapitals)
      raws raws') {number number' : Nat} (offset offset' : Nat)
    (hfollow : ∀ k < raws.length, follow (number + k) = number' + k) :
    List.Forall₂ (SourceLine.Follows follow) (place number offset raws)
      (place number' offset' raws') := by
  induction h generalizing number number' offset offset' with
  | nil => exact .nil
  | @cons raw raw' raws raws' hread _ ih =>
    refine .cons ⟨(hfollow 0 (Nat.zero_lt_succ _)).symm, hread⟩ (ih _ _ fun k hk => ?_)
    have hnext := hfollow (k + 1) (Nat.succ_lt_succ hk)
    rwa [Nat.add_comm k 1, ← Nat.add_assoc, ← Nat.add_assoc] at hnext

theorem SourceEdit.sameOutcome {raws raws' : List (List Char)} {follow : Nat → Nat}
    (h : SourceEdit raws raws' follow) :
    SameOutcome follow (assembleLines (place 1 0 raws)) (assembleLines (place 1 0 raws')) := by
  have hself : ∀ raws : List (List Char),
      List.Forall₂ (fun raw raw' => (Line.read raw).inCapitals = (Line.read raw').inCapitals)
        raws raws := fun raws => List.forall₂_same.2 fun _ _ => rfl
  cases h with
  | @line above raw raw' below h =>
    exact sameOutcome_of_follows
      (forall₂_place (List.rel_append (hself above) (.cons h.read (hself below))) 0 0 fun _ _ => rfl)
  | @insertion above filler below h =>
    -- With the line put in left out again, the lines below it keep their new numbers.
    rw [place_append, place_append, place, assembleLines_skip (read_of_isSkipped h)]
    refine sameOutcome_of_follows (List.rel_append ?_ ?_)
    · refine forall₂_place (hself above) 0 0 fun k hk => if_pos ?_
      omega
    · refine forall₂_place (hself below) _ _ fun k _ => ?_
      rw [if_neg (by omega)]
      omega

theorem Rewriting.sameOutcome {raws raws' : List (List Char)} {follow : Nat → Nat}
    (h : Rewriting raws raws' follow) :
    SameOutcome follow (assembleLines (place 1 0 raws)) (assembleLines (place 1 0 raws')) := by
  induction h with
  | refl => exact .refl _
  | edit h _ ih => exact h.sameOutcome.trans ih

/-- **Layout and case do not matter.** However the lines of a source are edited
without changing their words, and wherever lines that are skipped are put in,
the rewritten source assembles to the same program, runs out as before, or is
refused for the same reason at the line that the refused line has become. -/
theorem assemble_rewriting {source : String} {raws : List (List Char)} {follow : Nat → Nat}
    (h : Rewriting (lines source.toList) raws follow) :
    SameOutcome follow (assemble source) (assemble (String.ofList (['\n'].intercalate raws))) := by
  have hlines : lines (['\n'].intercalate raws) = raws :=
    pieces_intercalate (h.ne_nil (pieces_ne_nil _ _))
      (h.not_mem_lineFeed fun _ => not_mem_of_mem_lines)
  have houtcome := h.sameOutcome.map Program.mk
  rw [assemble, assemble, ofSource, ofSource, String.toList_ofList, hlines]
  exact houtcome

/-- Below an instruction a comment is put in, and the line after it, whose operand
is no literal, comes to be in capitals, with a tab, a comment and a carriage return. -/
theorem assemble_respaced :
    ∃ follow, Rewriting (lines "nop\nadda  #$g1".toList)
        ["nop".toList, " ; top".toList, "ADDA\t#$G1;x\r".toList] follow ∧ follow 2 = 3 ∧
      ∃ text reason span,
        assemble "nop\n ; top\nADDA\t#$G1;x\r" = .error (.malformedLine 3 text reason span) ∧
          reason.inCapitals = .invalidLiteral "$G1" := by
  have hfiller : IsSkipped " ; top".toList := read_eq_skipped_iff.1 rfl
  have hletters : LineEdit "adda  #$g1".toList "ADDA  #$G1".toList := .letters (by decide)
  have hgap : LineEdit "ADDA  #$G1".toList "ADDA\t#$G1".toList :=
    @LineEdit.gap "ADDA".toList [' ', ' '] ['\t'] "#$G1".toList (by decide) (by decide) (by decide)
      (by decide)
  have hcomment : LineEdit "ADDA\t#$G1".toList "ADDA\t#$G1;x".toList :=
    @LineEdit.comment "ADDA\t#$G1".toList ['x'] (by decide)
  have hends : LineEdit "ADDA\t#$G1;x".toList "ADDA\t#$G1;x\r".toList :=
    @LineEdit.ends [] [] [] ['\r'] "ADDA\t#$G1;x".toList (by decide) (by decide) (by decide)
      (by decide)
  have hlast : ∀ {raw raw' : List Char}, LineEdit raw raw' →
      SourceEdit ["nop".toList, " ; top".toList, raw] ["nop".toList, " ; top".toList, raw'] id :=
    fun h => @SourceEdit.line ["nop".toList, " ; top".toList] _ _ [] h
  have h : Rewriting (lines "nop\nadda  #$g1".toList)
      ["nop".toList, " ; top".toList, "ADDA\t#$G1;x\r".toList] _ :=
    .edit (@SourceEdit.insertion ["nop".toList] _ ["adda  #$g1".toList] hfiller (by decide)) <|
      .edit (hlast hletters) <| .edit (hlast hgap) <| .edit (hlast hcomment) <|
        .edit (hlast hends) .refl
  refine ⟨_, h, rfl, ?_⟩
  have houtcome := assemble_rewriting h
  have hbefore : assemble "nop\nadda  #$g1" =
      .error (.malformedLine 2 "adda  #$g1" (.invalidLiteral "$g1") ⟨4, 10⟩) := by rfl
  rw [hbefore] at houtcome
  generalize hafter : assemble _ = outcome at houtcome
  cases houtcome with
  | refused hreason => exact ⟨_, _, _, hafter, hreason.symm⟩

end Mc6809
