/-
What lines come to. The lines before the first `END` line or malformed line are
a `Body`; the answer is the instructions of the body, or an error at the line
after it, or that the lines run out. Lines have exactly one such outcome, and it
is the one that the assembler finds (`assemblesTo_iff`).

So the lines after the one that decides do not count (`AssemblesTo.append`), and
lines that stand further on come to the same, further on (`assembleLines_below`).
-/
import Mc6809.Proofs.Assembler.Language
import Mc6809.Proofs.Text.Lines

namespace Mc6809

open Line Text
open SourceLine (place ofSource)

/-- What lines come to, by the first of them that is no skipped line and no instruction. -/
inductive AssemblesTo : List SourceLine → Except AssemblyError (List Instruction) → Prop
  | accepted {before last after is} (hbody : Body (before.map (·.raw)) is)
      (hend : IsEndDirective last.raw) : AssemblesTo (before ++ last :: after) (.ok is)
  | refused {before bad after is reason} (hbody : Body (before.map (·.raw)) is)
      (hbad : bad.read = .malformed reason) :
      AssemblesTo (before ++ bad :: after) (.error (bad.error reason))
  | unfinished {lines is} (hbody : Body (lines.map (·.raw)) is) : AssemblesTo lines (.error .missingEnd)

/-- A line with as many lines, and bytes, more above it. -/
def SourceLine.below (lines bytes : Nat) (line : SourceLine) : SourceLine :=
  ⟨line.number + lines, line.offset + bytes, line.raw⟩

/-- An error with as many lines, and bytes, more above it. -/
def AssemblyError.below (lines bytes : Nat) : AssemblyError → AssemblyError
  | malformedLine number text reason span =>
    malformedLine (number + lines) text reason ⟨span.offset + bytes, span.length⟩
  | missingEnd => missingEnd

variable {lines before : List SourceLine} {is : List Instruction}
  {result : Except AssemblyError (List Instruction)}

/-! ## Reading on -/

theorem Body.append {raws raws' : List (List Char)} {is is' : List Instruction} (h : Body raws is)
    (h' : Body raws' is') : Body (raws ++ raws') (is ++ is') := by
  induction h with
  | nil => exact h'
  | skipped h _ ih => exact .skipped h ih
  | instruction h _ ih => exact .instruction h ih

theorem Body.append_assemblesTo {rest : List SourceLine} (h : Body (before.map (·.raw)) is)
    (hrest : AssemblesTo rest result) : AssemblesTo (before ++ rest) ((is ++ ·) <$> result) := by
  cases hrest with
  | accepted hbody hend =>
    rw [← List.append_assoc]
    exact .accepted (List.map_append ▸ h.append hbody) hend
  | refused hbody hbad =>
    rw [← List.append_assoc]
    exact .refused (List.map_append ▸ h.append hbody) hbad
  | unfinished hbody => exact .unfinished (List.map_append ▸ h.append hbody)

theorem assemblesTo_assembleLines (lines : List SourceLine) : AssemblesTo lines (assembleLines lines) := by
  induction lines with
  | nil => exact .unfinished .nil
  | cons line lines ih =>
    -- A line that decides nothing is a body of its own above the lines after it.
    rw [assembleLines]
    split
    next hread =>
      have hbody : Body ([line].map (·.raw)) [] := .skipped (read_eq_skipped_iff.1 hread) .nil
      have h := hbody.append_assemblesTo ih
      simp only [List.nil_append] at h
      rwa [← id_map (assembleLines lines)]
    next hread => exact @AssemblesTo.accepted [] line lines [] .nil (read_eq_endDirective_iff.1 hread)
    next i hread =>
      have hbody : Body ([line].map (·.raw)) [i] := .instruction (read_eq_instruction_iff.1 hread) .nil
      exact hbody.append_assemblesTo ih
    next reason hread => exact @AssemblesTo.refused [] line lines [] reason .nil hread

/-- Lines have one outcome, and the assembler finds it. -/
theorem assemblesTo_iff : AssemblesTo lines result ↔ assembleLines lines = result := by
  constructor
  · intro h
    cases h with
    | accepted hbody hend => exact assembleLines_of_body hbody hend
    | refused hbody hbad =>
      rw [assembleLines_append hbody, assembleLines, hbad]
      rfl
    | unfinished hbody =>
      have h := assembleLines_append hbody []
      rwa [List.append_nil] at h
  · intro h
    subst h
    exact assemblesTo_assembleLines lines

/-- Once lines are decided, nothing after them counts. -/
theorem AssemblesTo.append (h : AssemblesTo lines result) (hdecided : result ≠ .error .missingEnd)
    (after : List SourceLine) : AssemblesTo (lines ++ after) result := by
  cases h with
  | accepted hbody hend =>
    rw [List.append_assoc]
    exact .accepted hbody hend
  | refused hbody hbad =>
    rw [List.append_assoc]
    exact .refused hbody hbad
  | unfinished => exact absurd rfl hdecided

theorem assembleLines_eq_missingEnd_iff :
    assembleLines lines = .error .missingEnd ↔ ∃ is, Body (lines.map (·.raw)) is := by
  rw [← assemblesTo_iff]
  constructor
  · intro h
    generalize hresult : Except.error AssemblyError.missingEnd = result at h
    cases h with
    | accepted => cases hresult
    | refused => cases hresult
    | unfinished hbody => exact ⟨_, hbody⟩
  · exact fun ⟨_, hbody⟩ => .unfinished hbody

/-- A source whose lines are a body runs out. -/
theorem assemble_eq_missingEnd_iff {source : String} :
    assemble source = .error .missingEnd ↔ ∃ is, Body (Text.lines source.toList) is := by
  rw [assemble_eq_error_iff, assembleLines_eq_missingEnd_iff, map_raw_ofSource]

/-- A malformed line is reported with the number, the text and the span of the
first line that is not of a body. -/
theorem exists_of_malformedLine {number : Nat} {text : String} {reason : LineError}
    {span : SourceSpan} (h : assembleLines lines = .error (.malformedLine number text reason span)) :
    ∃ before bad after is, lines = before ++ bad :: after ∧ Body (before.map (·.raw)) is ∧
      bad.read = .malformed reason ∧ bad.number = number ∧ String.ofList bad.text = text ∧
        bad.span = span := by
  have h := assemblesTo_iff.2 h
  generalize hresult : Except.error (AssemblyError.malformedLine number text reason span) = result at h
  cases h with
  | accepted => cases hresult
  | refused hbody hbad =>
    cases hresult
    exact ⟨_, _, _, _, rfl, hbody, hbad, rfl, rfl, rfl⟩
  | unfinished => cases hresult

/-- With an `END` line after it, a body is a program. -/
theorem Body.assemble_end {raws : List (List Char)} (h : Body raws is)
    (hraws : ∀ raw ∈ raws, '\n' ∉ raw) : assemble (String.ofList (fed raws) ++ "END") = .ok ⟨is⟩ := by
  have hlines : Text.lines (fed raws ++ ['E', 'N', 'D']) = raws ++ [['E', 'N', 'D']] :=
    lines_fed_append hraws _
  refine assemble_of_lines ?_ h isEndDirective_end
  rw [String.toList_append, String.toList_ofList]
  exact hlines

/-- Without one, it runs out. -/
theorem Body.assemble_fed {raws : List (List Char)} (h : Body raws is)
    (hraws : ∀ raw ∈ raws, '\n' ∉ raw) :
    assemble (String.ofList (fed raws)) = .error .missingEnd := by
  have hlines : Text.lines (fed raws) = raws ++ [[]] := by
    rw [← List.append_nil (fed raws), lines_fed_append hraws]
    rfl
  have hlast : Body [[]] [] := .skipped (read_eq_skipped_iff.1 rfl) .nil
  rw [assemble_eq_missingEnd_iff, String.toList_ofList, hlines]
  exact ⟨_, h.append hlast⟩

/-! ## Places -/

theorem error_below (n bytes : Nat) (line : SourceLine) (reason : LineError) :
    (line.below n bytes).error reason = (line.error reason).below n bytes := by
  simp only [SourceLine.below, SourceLine.error, SourceLine.span, SourceLine.text,
    AssemblyError.below, Nat.add_right_comm]

/-- Lines that stand further on come to the same, further on. -/
theorem assembleLines_below (n bytes : Nat) (lines : List SourceLine) :
    assembleLines (lines.map (·.below n bytes)) = (assembleLines lines).mapError (·.below n bytes) := by
  induction lines with
  | nil => rfl
  | cons line lines ih =>
    have hread : (line.below n bytes).read = line.read := rfl
    rw [List.map_cons, assembleLines, assembleLines, hread, ih]
    cases line.read with
    | skipped => rfl
    | endDirective => rfl
    | instruction i => cases assembleLines lines <;> rfl
    | malformed reason => exact congrArg Except.error (error_below n bytes line reason)

theorem place_below (n bytes number offset : Nat) (raws : List (List Char)) :
    place (number + n) (offset + bytes) raws =
      (place number offset raws).map (·.below n bytes) := by
  induction raws generalizing number offset with
  | nil => rfl
  | cons raw raws ih =>
    have hnumber : number + n + 1 = number + 1 + n := by omega
    have hoffset : offset + bytes + byteLength raw + 1 = offset + byteLength raw + 1 + bytes := by omega
    rw [place, place, List.map_cons, hnumber, hoffset, ih, SourceLine.below]

theorem place_append (number offset : Nat) (raws raws' : List (List Char)) :
    place number offset (raws ++ raws') =
      place number offset raws ++
        place (number + raws.length) (offset + byteLength (fed raws)) raws' := by
  induction raws generalizing number offset with
  | nil => rfl
  | cons raw raws ih =>
    have hnumber : number + (raw :: raws).length = number + 1 + raws.length := by
      rw [List.length_cons]
      omega
    have hoffset : offset + byteLength (fed (raw :: raws)) =
        offset + byteLength raw + 1 + byteLength (fed raws) := by
      rw [byteLength_fed_cons]
      omega
    rw [List.cons_append, place, place, ih, hnumber, hoffset, List.cons_append]

/-- Where a line stands, by the lines before it. -/
theorem place_eq_append {number offset : Nat} {raws : List (List Char)} {line : SourceLine}
    {after : List SourceLine} (h : place number offset raws = before ++ line :: after) :
    line.number = number + before.length ∧
      line.offset = offset + byteLength (fed (before.map (·.raw))) := by
  have hraws : raws = before.map (·.raw) ++ line.raw :: after.map (·.raw) := by
    rw [← map_raw_place number offset raws, h, List.map_append, List.map_cons]
  rw [hraws, place_append] at h
  have hlength : (place number offset (before.map (·.raw))).length = before.length := by
    rw [← List.length_map (·.raw), map_raw_place, List.length_map]
  obtain ⟨-, hline⟩ := List.append_inj h hlength
  rw [place, List.length_map] at hline
  have hline := (List.cons.inj hline).1
  exact ⟨(congrArg SourceLine.number hline).symm, (congrArg SourceLine.offset hline).symm⟩

/-- Two sources with a line feed between them. -/
theorem ofSource_append (s t : String) :
    ofSource (s ++ "\n" ++ t) =
      ofSource s ++
        (ofSource t).map (·.below (1 + s.toList.count '\n') (s.utf8ByteSize + 1)) := by
  have hlines : lines (s ++ "\n" ++ t).toList = lines s.toList ++ lines t.toList := by
    rw [← lines_append]
    simp
  rw [ofSource, hlines, place_append, length_lines, byteLength_fed_lines,
    byteLength_toList, place_below]
  rfl

end Mc6809
