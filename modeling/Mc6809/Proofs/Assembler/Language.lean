/-
The language the assembler takes, source text by source text. A source is
accepted exactly when one of its lines is an `END` line and no line before it
is malformed; the program then holds the instructions of the lines before the
first `END`, in order (`Body`), and encodes each of them by its table entry
(`EncodesTo`).
-/
import Mc6809.Assembler
import Mc6809.Proofs.Assembler.LineGrammar
import Mc6809.Proofs.Program.Layout

namespace Mc6809

open Line Text

/-- Lines before an `END` line, and the instructions they hold, in order. -/
inductive Body : List (List Char) → List Instruction → Prop
  | nil : Body [] []
  | skipped {raw rest is} (h : IsSkipped raw) (hrest : Body rest is) : Body (raw :: rest) is
  | instruction {raw i rest is} (h : IsInstruction raw i) (hrest : Body rest is) :
      Body (raw :: rest) (i :: is)

/-- An instruction, and its bytes read off the encoding table. An instruction
that the table does not have starts with the byte 0 and keeps the size of its
mode. -/
inductive EncodesTo (i : Instruction) : List Byte → Prop
  | known {e} (he : e ∈ Encoding.table) (hname : e.mnemonic.name = i.mnemonic)
      (hmode : e.mode = i.operand.mode) :
      EncodesTo i (e.opcode :: Instruction.operandBytes i.operand.value (e.size - 1))
  | unknown (h : ∀ e ∈ Encoding.table, ¬ (e.mnemonic.name = i.mnemonic ∧ e.mode = i.operand.mode)) :
      EncodesTo i (0x00 :: Instruction.operandBytes i.operand.value (i.operand.mode.size - 1))

/-- Instructions, and the bytes of all of them one after the other. -/
inductive EncodeTo : List Instruction → List Byte → Prop
  | nil : EncodeTo [] []
  | cons {i is own rest} (h : EncodesTo i own) (hrest : EncodeTo is rest) :
      EncodeTo (i :: is) (own ++ rest)

/-! ## Lines up to the end -/

theorem Body.not_isMalformed {lines : List (List Char)} {is : List Instruction} (h : Body lines is) :
    ∀ raw ∈ lines, ¬ IsMalformed raw := by
  induction h with
  | nil => simp
  | skipped h _ ih =>
    intro raw hraw hbad
    rcases List.mem_cons.1 hraw with rfl | hraw
    · exact hbad.1 h
    · exact ih raw hraw hbad
  | instruction h _ ih =>
    intro raw hraw hbad
    rcases List.mem_cons.1 hraw with rfl | hraw
    · exact hbad.2.2 ⟨_, h⟩
    · exact ih raw hraw hbad

/-- Every instruction is that of a line. -/
theorem Body.exists_line {lines : List (List Char)} {is : List Instruction} (h : Body lines is) :
    ∀ i ∈ is, ∃ raw, IsInstruction raw i := by
  induction h with
  | nil => simp
  | skipped _ _ ih => exact ih
  | instruction h _ ih =>
    intro i hi
    rcases List.mem_cons.1 hi with rfl | hi
    · exact ⟨_, h⟩
    · exact ih i hi

/-- Only the operations that stand alone are without an operand. -/
theorem Body.mem_aloneNames {lines : List (List Char)} {is : List Instruction} (h : Body lines is) :
    ∀ i ∈ is, i.operand = .inherent → i.mnemonic ∈ aloneNames := by
  intro i hi hoperand
  obtain ⟨_, _, _, _, _, hwords⟩ := h.exists_line i hi
  cases hwords with
  | alone _ halone => exact halone
  | operand _ hword =>
    cases hoperand
    cases hword

/-- The lines of a body leave the answer to the lines after them. -/
theorem assembleLines_append {before : List SourceLine} {is : List Instruction}
    (h : Body (before.map (·.raw)) is) (rest : List SourceLine) :
    assembleLines (before ++ rest) = (is ++ ·) <$> assembleLines rest := by
  induction before generalizing is with
  | nil =>
    cases h
    exact (id_map _).symm
  | cons line before ih =>
    rw [List.map_cons] at h
    cases h with
    | skipped h hrest =>
      rw [List.cons_append, assembleLines, SourceLine.read, read_eq_skipped_iff.2 h]
      exact ih hrest
    | instruction h hrest =>
      rw [List.cons_append, assembleLines, SourceLine.read, read_eq_instruction_iff.2 h]
      simp only [ih hrest, Functor.map_map, List.cons_append]

theorem assembleLines_of_body {before after : List SourceLine} {last : SourceLine}
    {is : List Instruction} (h : Body (before.map (·.raw)) is) (hend : IsEndDirective last.raw) :
    assembleLines (before ++ last :: after) = .ok is := by
  rw [assembleLines_append h, assembleLines, SourceLine.read, read_eq_endDirective_iff.2 hend]
  show Except.ok (is ++ []) = Except.ok is
  rw [List.append_nil]

theorem body_of_assembleLines : ∀ {lines : List SourceLine} {is : List Instruction},
    assembleLines lines = .ok is → ∃ before last after, lines = before ++ last :: after ∧
      Body (before.map (·.raw)) is ∧ IsEndDirective last.raw
  | [], is, h => by cases h
  | line :: lines, is, h => by
    rw [assembleLines] at h
    split at h
    next hread =>
      obtain ⟨before, last, after, rfl, hbody, hend⟩ := body_of_assembleLines h
      exact ⟨line :: before, last, after, rfl, .skipped (read_eq_skipped_iff.1 hread) hbody, hend⟩
    next hread =>
      cases h
      exact ⟨[], line, lines, rfl, .nil, read_eq_endDirective_iff.1 hread⟩
    next i hread =>
      obtain ⟨is, his, rfl⟩ := map_eq_ok_iff.1 h
      obtain ⟨before, last, after, rfl, hbody, hend⟩ := body_of_assembleLines his
      exact ⟨line :: before, last, after, rfl, .instruction (read_eq_instruction_iff.1 hread) hbody, hend⟩
    next => cases h

/-- Lines are accepted when an `END` line comes before the first malformed one. -/
theorem exists_assembleLines {before after : List SourceLine} {last : SourceLine}
    (hgood : ∀ line ∈ before, ¬ IsMalformed line.raw) (hend : IsEndDirective last.raw) :
    ∃ is, assembleLines (before ++ last :: after) = .ok is := by
  induction before with
  | nil => exact ⟨[], assembleLines_of_body .nil hend⟩
  | cons line before ih =>
    obtain ⟨is, his⟩ := ih fun l hl => hgood l (by simp [hl])
    rw [List.cons_append, assembleLines]
    split
    · exact ⟨is, his⟩
    · exact ⟨[], rfl⟩
    next i _ => exact ⟨i :: is, by rw [his]; rfl⟩
    next reason hread =>
      exact absurd (read_eq_malformed_iff.1 ⟨reason, hread⟩) (hgood line (by simp))

/-! ## Sources -/

theorem map_raw_place (number offset : Nat) (lines : List (List Char)) :
    (SourceLine.place number offset lines).map (·.raw) = lines := by
  induction lines generalizing number offset with
  | nil => rfl
  | cons raw rest ih => rw [SourceLine.place, List.map_cons, ih]

theorem map_raw_ofSource (source : String) :
    (SourceLine.ofSource source).map (·.raw) = Text.lines source.toList :=
  map_raw_place _ _ _

/-- The lines of a source are cut where its placed lines are. -/
theorem lineFed_append_iff {source : String} {before after : List (List Char)} {last : List Char} :
    LineFed source.toList (before ++ last :: after) ↔
      ∃ placedBefore placedLast placedAfter,
        SourceLine.ofSource source = placedBefore ++ placedLast :: placedAfter ∧
          placedBefore.map (·.raw) = before ∧ placedLast.raw = last ∧
            placedAfter.map (·.raw) = after := by
  rw [lineFed_iff, ← map_raw_ofSource]
  constructor
  · intro h
    obtain ⟨b, rest, hsplit, hb, hrest⟩ := List.map_eq_append_iff.1 h
    obtain ⟨l, a, rfl, hl, ha⟩ := List.map_eq_cons_iff.1 hrest
    exact ⟨b, l, a, hsplit, hb, hl, ha⟩
  · intro h
    obtain ⟨b, l, a, hsplit, rfl, rfl, rfl⟩ := h
    rw [hsplit, List.map_append, List.map_cons]

theorem assemble_eq_ok_iff {source : String} {p : Program} :
    assemble source = .ok p ↔ assembleLines (SourceLine.ofSource source) = .ok p.instructions := by
  rw [assemble, map_eq_ok_iff]
  constructor
  · intro h
    obtain ⟨is, h, rfl⟩ := h
    exact h
  · exact fun h => ⟨p.instructions, h, rfl⟩

theorem assemble_eq_error_iff {source : String} {e : AssemblyError} :
    assemble source = .error e ↔ assembleLines (SourceLine.ofSource source) = .error e :=
  map_eq_error_iff

theorem isEndDirective_end : IsEndDirective ['E', 'N', 'D'] := ⟨_, code_iff.2 rfl, rfl⟩

theorem assemble_of_lines {source : String} {before : List (List Char)} {last : List Char}
    {is : List Instruction} (hlines : Text.lines source.toList = before ++ [last])
    (hbody : Body before is) (hend : IsEndDirective last) : assemble source = .ok ⟨is⟩ := by
  obtain ⟨_, _, _, hsplit, rfl, rfl, -⟩ := lineFed_append_iff.1 (lineFed_iff.2 hlines)
  rw [assemble_eq_ok_iff, hsplit]
  exact assembleLines_of_body hbody hend

/-- An assembled instruction without an operand is one of those that stand alone. -/
theorem mem_aloneNames_of_assemble {source : String} {p : Program} (h : assemble source = .ok p)
    {i : Instruction} (hi : i ∈ p.instructions) (hoperand : i.operand = .inherent) :
    i.mnemonic ∈ aloneNames := by
  obtain ⟨before, last, after, -, hbody, -⟩ := body_of_assembleLines (assemble_eq_ok_iff.1 h)
  exact hbody.mem_aloneNames i hi hoperand

/-! ## Bytes -/

theorem encodesTo_bytes (i : Instruction) : EncodesTo i i.bytes := by
  rw [Instruction.bytes_eq]
  cases h : i.encoding? with
  | some e =>
    obtain ⟨he, hname, hmode⟩ := Instruction.encoding?_eq_some_iff.1 h
    rw [Instruction.opcode_of_known h, Instruction.size_of_known h]
    exact .known he hname hmode
  | none =>
    rw [Instruction.opcode_of_unknown h, Instruction.size_of_unknown h]
    refine .unknown fun e he ⟨hname, hmode⟩ => ?_
    rw [Instruction.encoding?_eq_some_iff.2 ⟨he, hname, hmode⟩] at h
    cases h

theorem encodeTo_flatMap (is : List Instruction) : EncodeTo is (is.flatMap Instruction.bytes) := by
  induction is with
  | nil => exact .nil
  | cons i is ih => exact .cons (encodesTo_bytes i) ih

theorem encodeTo_bytes (p : Program) : EncodeTo p.instructions p.bytes := encodeTo_flatMap _

/-- **The language of the assembler.** A source assembles exactly when an
`END` line comes before its first malformed line. It assembles to `p` exactly
when `p` holds the instructions of the lines before the first `END`, in order;
and the bytes of `p` are those the encoding table gives these instructions. -/
theorem assemble_accepts_language (source : String) :
    ((∃ p, assemble source = .ok p) ↔
      ∃ before last after, LineFed source.toList (before ++ last :: after) ∧
        IsEndDirective last ∧ ∀ raw ∈ before, ¬ IsMalformed raw) ∧
    ∀ p, assemble source = .ok p ↔
      EncodeTo p.instructions p.bytes ∧
      ∃ before last after, LineFed source.toList (before ++ last :: after) ∧
        IsEndDirective last ∧ Body before p.instructions := by
  simp only [lineFed_append_iff, assemble_eq_ok_iff]
  refine ⟨⟨?_, ?_⟩, fun p => ⟨?_, ?_⟩⟩
  · intro h
    obtain ⟨p, h⟩ := h
    obtain ⟨before, last, after, hsplit, hbody, hend⟩ := body_of_assembleLines h
    exact ⟨_, _, _, ⟨before, last, after, hsplit, rfl, rfl, rfl⟩, hend, hbody.not_isMalformed⟩
  · intro h
    obtain ⟨_, _, _, ⟨before, last, after, hsplit, rfl, rfl, rfl⟩, hend, hgood⟩ := h
    have hgood : ∀ line ∈ before, ¬ IsMalformed line.raw := fun line hline =>
      hgood _ (List.mem_map_of_mem hline)
    obtain ⟨is, his⟩ := @exists_assembleLines before after last hgood hend
    exact ⟨⟨is⟩, hsplit ▸ his⟩
  · intro h
    obtain ⟨before, last, after, hsplit, hbody, hend⟩ := body_of_assembleLines h
    exact ⟨encodeTo_bytes p, _, _, _, ⟨before, last, after, hsplit, rfl, rfl, rfl⟩, hend, hbody⟩
  · intro h
    obtain ⟨-, _, _, _, ⟨before, last, after, hsplit, rfl, rfl, rfl⟩, hend, hbody⟩ := h
    rw [hsplit]
    exact assembleLines_of_body hbody hend

end Mc6809
