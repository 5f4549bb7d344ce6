/-
Sources one after the other, with a line feed between them. A source that is
decided, by an `END` line or by a malformed line, decides the whole. One that
runs out leaves the answer to the source after it: its instructions come first,
and an error in what follows stands below all of its lines and bytes.
-/
import Mc6809.Proofs.Assembler.Outcome

namespace Mc6809

open Text
open SourceLine (ofSource)

/-- What `s` and `t` come to with a line feed between them, by what each of them
comes to alone. -/
structure Concatenation (s t : String) : Prop where
  accepted {p} (hs : assemble s = .ok p) : assemble (s ++ "\n" ++ t) = .ok p
  refused {number text reason span}
    (hs : assemble s = .error (.malformedLine number text reason span)) :
    assemble (s ++ "\n" ++ t) = .error (.malformedLine number text reason span)
  neverEnds (hs : assemble s = .error .missingEnd) (ht : assemble t = .error .missingEnd) :
    assemble (s ++ "\n" ++ t) = .error .missingEnd
  refusedBelow {number text reason span} (hs : assemble s = .error .missingEnd)
    (ht : assemble t = .error (.malformedLine number text reason span)) :
    assemble (s ++ "\n" ++ t) = .error (.malformedLine (number + (1 + s.toList.count '\n')) text reason
      ⟨span.offset + (s.utf8ByteSize + 1), span.length⟩)
  acceptedBelow {q} (hs : assemble s = .error .missingEnd) (ht : assemble t = .ok q) :
    ∃ p, assemble (s ++ "\nEND") = .ok p ∧
      assemble (s ++ "\n" ++ t) = .ok ⟨p.instructions ++ q.instructions⟩

variable {s : String} {is : List Instruction}

/-- A source that is decided decides every source that starts with its lines. -/
theorem assembleLines_of_decided {result : Except AssemblyError (List Instruction)}
    (hs : assembleLines (ofSource s) = result) (hdecided : result ≠ .error .missingEnd) (t : String) :
    assembleLines (ofSource (s ++ "\n" ++ t)) = result := by
  rw [ofSource_append]
  exact assemblesTo_iff.1 ((assemblesTo_iff.2 hs).append hdecided _)

/-- A source that runs out leaves the answer to the source after it. -/
theorem assembleLines_of_body_append (hbody : Body (lines s.toList) is) (t : String) :
    assembleLines (ofSource (s ++ "\n" ++ t)) =
      (is ++ ·) <$> (assembleLines (ofSource t)).mapError
        (·.below (1 + s.toList.count '\n') (s.utf8ByteSize + 1)) := by
  rw [← map_raw_ofSource] at hbody
  rw [ofSource_append, assembleLines_append hbody, assembleLines_below]

/-- The instructions of a source that runs out are those it has with an `END` line. -/
theorem assemble_append_end (hbody : Body (lines s.toList) is) :
    assemble (s ++ "\nEND") = .ok ⟨is⟩ := by
  have hfed : String.ofList (fed (lines s.toList)) ++ "END" = s ++ "\nEND" := by
    rw [fed_lines, String.ofList_append, String.ofList_toList, String.append_assoc]
    rfl
  rw [← hfed]
  exact hbody.assemble_end fun _ => not_mem_of_mem_lines

/-- **Concatenation.** What two sources come to, one after the other, is
determined by what each of them comes to. -/
theorem assemble_concatenation (s t : String) : Concatenation s t := by
  constructor
  case accepted =>
    intro p hs
    exact assemble_eq_ok_iff.2 (assembleLines_of_decided (assemble_eq_ok_iff.1 hs) (by simp) t)
  case refused =>
    intro number text reason span hs
    exact assemble_eq_error_iff.2
      (assembleLines_of_decided (assemble_eq_error_iff.1 hs) (by simp) t)
  case neverEnds =>
    intro hs ht
    obtain ⟨is, hbody⟩ := assemble_eq_missingEnd_iff.1 hs
    rw [assemble_eq_error_iff, assembleLines_of_body_append hbody, assemble_eq_error_iff.1 ht]
    rfl
  case refusedBelow =>
    intro number text reason span hs ht
    obtain ⟨is, hbody⟩ := assemble_eq_missingEnd_iff.1 hs
    rw [assemble_eq_error_iff, assembleLines_of_body_append hbody, assemble_eq_error_iff.1 ht]
    rfl
  case acceptedBelow =>
    intro q hs ht
    obtain ⟨is, hbody⟩ := assemble_eq_missingEnd_iff.1 hs
    refine ⟨⟨is⟩, assemble_append_end hbody, ?_⟩
    rw [assemble_eq_ok_iff, assembleLines_of_body_append hbody, assemble_eq_ok_iff.1 ht]
    rfl

/-- Below a comment with a letter of two bytes in it and an instruction, a store
without an address and an increment. -/
theorem assemble_accent_then :
    assemble ("; \u00e9\nNOP" ++ "\n" ++ " STA ; A") =
        .error (.malformedLine 3 "STA ; A" (.missingOperand "STA") ⟨10, 7⟩) ∧
      assemble ("; \u00e9\nNOP" ++ "\n" ++ "INCA\nEND") =
        .ok ⟨[⟨"NOP", .inherent⟩, ⟨"INCA", .inherent⟩]⟩ := by
  have habove : assemble "; \u00e9\nNOP" = .error .missingEnd := by rfl
  have hown : assemble ("; \u00e9\nNOP" ++ "\nEND") = .ok ⟨[⟨"NOP", .inherent⟩]⟩ := by rfl
  have hstore : assemble " STA ; A" =
      .error (.malformedLine 1 "STA ; A" (.missingOperand "STA") ⟨1, 7⟩) := by rfl
  have hincrement : assemble "INCA\nEND" = .ok ⟨[⟨"INCA", .inherent⟩]⟩ := by rfl
  refine ⟨(assemble_concatenation _ _).refusedBelow habove hstore, ?_⟩
  obtain ⟨p, hp, hboth⟩ := (assemble_concatenation _ _).acceptedBelow habove hincrement
  cases hp.symm.trans hown
  exact hboth

end Mc6809
