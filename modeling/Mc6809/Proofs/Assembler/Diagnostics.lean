/-
Where a syntax error points. The span of the error covers the text of the error
and nothing else, counted in bytes and cut between characters; the text is a
line without the blanks around it, and the number is that of the line. Up to
that line the source is good: with an `END` in its place it assembles.
-/
import Mc6809.Proofs.Assembler.Outcome

namespace Mc6809

open Line Text

/-- A piece of the source that holds a text, whole characters of it. -/
structure SourceSpan.Covers (span : SourceSpan) (source text : String) : Prop where
  starts : String.Pos.Raw.IsValid source ⟨span.offset⟩
  ends : String.Pos.Raw.IsValid source ⟨span.offset + span.length⟩
  bytes : source.toByteArray.extract span.offset (span.offset + span.length) = text.toByteArray

/-- The text of a line that can be malformed: it has no blanks at its ends, and
it is not a comment. -/
structure IsDiagnosed (text : String) : Prop where
  ne_empty : text ≠ ""
  oneLine : '\n' ∉ text.toList
  starts : StartsSolid text.toList
  ends : StartsSolid text.toList.reverse
  not_comment : text.toList.head? ≠ some ';'

/-- A syntax error points at its text: `above` are the lines before that of the
text, `lead` is what stands before the text on its own line, and `below` is what
follows it. -/
structure PointsAt (source : String) (number : Nat) (text : String) (reason : LineError)
    (span : SourceSpan) (above lead below : String) : Prop where
  source_eq : source = above ++ lead ++ text ++ below
  offset_eq : span.offset = (above ++ lead).utf8ByteSize
  covers : span.Covers source text
  diagnosed : IsDiagnosed text
  /-- The text alone is refused for the same reason. -/
  read_eq : Line.read text.toList = .malformed reason
  number_eq : number = 1 + (above ++ lead).toList.count '\n'
  above_ends : above = "" ∨ ∃ s, above = s ++ "\n"
  lead_oneLine : '\n' ∉ lead.toList
  /-- No line above is malformed, and none is an `END` line. -/
  unfinished : assemble above = .error .missingEnd
  good : ∃ p, assemble (above ++ "END") = .ok p

theorem SourceSpan.covers_append (before text after : String) :
    Covers ⟨before.utf8ByteSize, text.utf8ByteSize⟩ (before ++ text ++ after) text where
  starts := String.Pos.Raw.isValid_iff_exists_append.2 ⟨before, text ++ after, by
    rw [String.append_assoc], rfl⟩
  ends := String.Pos.Raw.isValid_iff_exists_append.2 ⟨before ++ text, after, rfl, by
    rw [String.rawEndPos, String.utf8ByteSize_append]⟩
  bytes := by
    have hright : (before.toByteArray ++ (text.toByteArray ++ after.toByteArray)).extract
        (before.toByteArray.size + 0) (before.toByteArray.size + text.toByteArray.size) =
          (text.toByteArray ++ after.toByteArray).extract 0 text.toByteArray.size :=
      ByteArray.extract_append_size_add
    rw [String.append_assoc, String.toByteArray_append, String.toByteArray_append]
    exact hright.trans (ByteArray.extract_append_eq_left rfl)

/-! ## The text of a line -/

variable {raw core : List Char} {reason : LineError}

/-- Only the text of a line without the blanks around it is read. -/
theorem read_trims (h : Trims raw core) : Line.read core = Line.read raw := by
  have htrim := h.trim_eq
  obtain ⟨_, _, -, -, -, hs, he⟩ := h
  rw [Line.read, Line.read, htrim, (trims_self hs he).trim_eq]

theorem isDiagnosed_of_malformed (h : Trims raw core) (hfeed : '\n' ∉ raw)
    (hread : Line.read raw = .malformed reason) : IsDiagnosed (String.ofList core) := by
  have hskipped : ¬ (core = [] ∨ core.head? = some ';') := fun hcore =>
    (read_eq_malformed_iff.1 ⟨reason, hread⟩).1 ⟨core, h, hcore⟩
  obtain ⟨hempty, hcomment⟩ := not_or.1 hskipped
  obtain ⟨before, after, rfl, -, -, hs, he⟩ := h
  have hcore : '\n' ∉ core := fun hmem => hfeed (by simp [hmem])
  constructor
  · simpa using hempty
  all_goals rwa [String.toList_ofList]

/-- The text of a line starts after the bytes of the blanks before it. -/
theorem span_of_blanks {line : SourceLine} {lead tail : List Char}
    (hraw : line.raw = lead ++ line.text ++ tail) (hlead : Blanks lead)
    (hs : StartsSolid (line.text ++ tail)) :
    line.span = ⟨line.offset + byteLength lead, byteLength line.text⟩ := by
  have hstart : trimStart line.raw = line.text ++ tail := by
    rw [hraw, List.append_assoc]
    exact dropWhile_append_solid hlead hs
  have hbytes : byteLength line.raw = byteLength lead + byteLength (line.text ++ tail) := by
    rw [← byteLength_append, ← List.append_assoc, ← hraw]
  rw [SourceLine.span, hstart, hbytes, Nat.add_sub_cancel]

/-! ## The line in its source -/

/-- A malformed line that stands in a source after the lines of a body. -/
theorem pointsAt_of_body {source : String} {raws : List (List Char)} {is : List Instruction}
    {lead tail below : List Char} (hsource : source.toList = fed raws ++ raw ++ below)
    (hraw : raw = lead ++ core ++ tail) (h : Trims raw core) (hbody : Body raws is)
    (hraws : ∀ line ∈ raws, '\n' ∉ line) (hfeed : '\n' ∉ raw)
    (hread : Line.read raw = .malformed reason) :
    PointsAt source (1 + raws.length) (String.ofList core) reason
      ⟨byteLength (fed raws) + byteLength lead, byteLength core⟩
      (String.ofList (fed raws)) (String.ofList lead) (String.ofList (tail ++ below)) := by
  have hlead : '\n' ∉ lead := fun hmem => hfeed (by simp [hraw, hmem])
  have hbefore : String.ofList (fed raws) ++ String.ofList lead = String.ofList (fed raws ++ lead) :=
    String.ofList_append.symm
  have hsplit : source = String.ofList (fed raws ++ lead) ++ String.ofList core ++
      String.ofList (tail ++ below) := by
    rw [← String.toList_inj, hsource, hraw]
    simp
  -- The bytes before the text are those of the body and of the blanks.
  have hcovers := SourceSpan.covers_append (String.ofList (fed raws ++ lead)) (String.ofList core)
    (String.ofList (tail ++ below))
  rw [← hsplit, utf8ByteSize_ofList, utf8ByteSize_ofList, byteLength_append] at hcovers
  constructor
  case source_eq => rw [hbefore, ← hsplit]
  case offset_eq => rw [hbefore, utf8ByteSize_ofList, byteLength_append]
  case covers => exact hcovers
  case diagnosed => exact isDiagnosed_of_malformed h hfeed hread
  case read_eq => rw [String.toList_ofList, read_trims h, hread]
  case number_eq =>
    rw [hbefore, String.toList_ofList, List.count_append, count_fed hraws,
      List.count_eq_zero_of_not_mem hlead, Nat.add_zero]
  case above_ends =>
    rcases fed_eq_nil_or raws with hnil | ⟨above, habove⟩
    · exact .inl (by rw [hnil, String.ofList_nil])
    · exact .inr ⟨String.ofList above, by rw [habove, String.ofList_append]⟩
  case lead_oneLine => rwa [String.toList_ofList]
  case unfinished => exact hbody.assemble_fed hraws
  case good => exact ⟨⟨is⟩, hbody.assemble_end hraws⟩

/-- **Diagnostics.** A syntax error points at the first malformed line of its
source: the bytes in its span are its text, its number is that of the line, and
what stands above the line assembles when `END` comes after it. -/
theorem assemble_error_pointsAt {source text : String} {number : Nat} {span : SourceSpan}
    (h : assemble source = .error (.malformedLine number text reason span)) :
    ∃ above lead below, PointsAt source number text reason span above lead below := by
  obtain ⟨before, bad, after, is, hsource, hbody, hbad, rfl, rfl, rfl⟩ :=
    exists_of_malformedLine (assemble_eq_error_iff.1 h)
  have hlines : lines source.toList = before.map (·.raw) ++ bad.raw :: after.map (·.raw) := by
    rw [← map_raw_ofSource, hsource, List.map_append, List.map_cons]
  have hfeeds : ∀ raw ∈ before.map (·.raw) ++ bad.raw :: after.map (·.raw), '\n' ∉ raw := by
    rw [← hlines]
    exact fun _ => not_mem_of_mem_lines
  rw [List.forall_mem_append, List.forall_mem_cons] at hfeeds
  obtain ⟨hraws, hfeed, -⟩ := hfeeds
  obtain ⟨hnumber, hoffset⟩ := place_eq_append hsource
  obtain ⟨below, hbelow⟩ := exists_eq_fed_append hlines
  have htrims : Trims bad.raw bad.text := trims_trim bad.raw
  -- The text is not empty, so the blanks before it are all that trimming the start takes off.
  have hne : bad.text ≠ [] := by simpa using (isDiagnosed_of_malformed htrims hfeed hbad).ne_empty
  obtain ⟨lead, tail, hraw, hlead, -, hs, -⟩ := trims_trim bad.raw
  rw [span_of_blanks hraw hlead (hs.append hne tail), hnumber, hoffset, Nat.zero_add]
  have hpoints := pointsAt_of_body hbelow hraw htrims hbody hraws hfeed hbad
  rw [List.length_map] at hpoints
  exact ⟨_, _, _, hpoints⟩

/-- A store without an address, between blanks of three bytes and of one, below
a comment with a letter of two. -/
def storeNowhere : String := "; \u00e9\r\nNOP\n\u3000STA \r\nEND"

theorem assemble_storeNowhere :
    assemble storeNowhere = .error (.malformedLine 3 "STA" (.missingOperand "STA") ⟨13, 3⟩) ∧
      ∃ above lead below,
        PointsAt storeNowhere 3 "STA" (.missingOperand "STA") ⟨13, 3⟩ above lead below :=
  have h : assemble storeNowhere =
      .error (.malformedLine 3 "STA" (.missingOperand "STA") ⟨13, 3⟩) := by rfl
  ⟨h, assemble_error_pointsAt h⟩

end Mc6809
