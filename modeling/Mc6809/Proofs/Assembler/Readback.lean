/-
The listing of an assembled program is source again. Each line of it is read as
the instruction that it shows (`IsSourced.isInstruction_text`), with one
exception: what makes an address extended is its value and not the number of
its digits, so an extended address below `$0100` is read back as a direct one
(`narrowed`). Such an address comes from a literal that was cut to 16 bits.
-/
import Mc6809.Proofs.Assembler.Language
import Mc6809.Proofs.Literal.Hexadecimal

namespace Mc6809

open Line Literal Text

/-- The operand that the text of an operand is read as. -/
def Operand.narrowed : Operand → Operand
  | .extended a => if a.toNat < 0x100 then .direct (Word.low a) else .extended a
  | operand => operand

/-- The instruction that the text of an instruction is read as. -/
def Instruction.narrowed (i : Instruction) : Instruction := ⟨i.mnemonic, i.operand.narrowed⟩

/-- The program that the listing of a program is read as. -/
def Program.narrowed (p : Program) : Program := ⟨p.instructions.map (·.narrowed)⟩

/-- A name as the assembler keeps it: an identifier in upper case. -/
def Line.IsName (name : String) : Prop := Identifier name.toList ∧ shout name.toList = name

/-- A character that neither ends a word nor starts a comment. -/
def Text.IsPlain (c : Char) : Prop := isBlank c = false ∧ c ≠ ';'

/-- A word of such characters. -/
def Text.IsPlainWord (word : List Char) : Prop := word ≠ [] ∧ ∀ c ∈ word, IsPlain c

/-- A line of one word, or of two with a space between them. -/
inductive Line.Plain : List Char → List (List Char) → Prop
  | one {word} (h : IsPlainWord word) : Plain word [word]
  | two {name word} (hname : IsPlainWord name) (hword : IsPlainWord word) :
      Plain (name ++ ' ' :: word) [name, word]

/-! ## Narrowing -/

theorem Operand.value_narrowed (operand : Operand) : operand.narrowed.value = operand.value := by
  cases operand with
  | extended a =>
    rw [narrowed]
    by_cases h : a.toNat < 0x100
    · rw [if_pos h]
      exact Word.toUInt16_low h
    · rw [if_neg h]
  | _ => rfl

/-- Only an extended address that fits a byte is narrowed. -/
theorem Operand.narrowed_eq_iff {operand : Operand} :
    operand.narrowed = operand ↔ ∀ a, operand = .extended a → 0x100 ≤ a.toNat := by
  cases operand with
  | extended a =>
    constructor
    · intro h b hb
      cases hb
      refine Nat.le_of_not_lt fun hlow => ?_
      rw [narrowed, if_pos hlow] at h
      cases h
    · exact fun h => if_neg (Nat.not_lt.2 (h a rfl))
  | _ => simp [narrowed]

theorem Instruction.narrowed_eq_iff {i : Instruction} :
    i.narrowed = i ↔ ∀ a, i.operand = .extended a → 0x100 ≤ a.toNat := by
  rw [← Operand.narrowed_eq_iff]
  exact ⟨fun h => congrArg Instruction.operand h, fun h => congrArg (Instruction.mk i.mnemonic) h⟩

/-- Narrowing leaves a program as it is when it has nothing to narrow. -/
theorem Program.narrowed_eq_iff {p : Program} :
    p.narrowed = p ↔ ∀ i ∈ p.instructions, ∀ a, i.operand = .extended a → 0x100 ≤ a.toNat := by
  simp only [← Instruction.narrowed_eq_iff]
  constructor
  · intro h
    have hmap : p.instructions.map (·.narrowed) = p.instructions.map id :=
      (congrArg Program.instructions h).trans (List.map_id _).symm
    exact List.map_inj_left.1 hmap
  · intro h
    exact congrArg Program.mk ((List.map_congr_left h).trans (List.map_id _))

/-! ## Plain words -/

namespace Text

theorem IsPlainWord.isWord {word : List Char} (h : IsPlainWord word) : IsWord word :=
  ⟨h.1, fun c hc => (h.2 c hc).1⟩

theorem IsPlainWord.not_mem {word : List Char} (h : IsPlainWord word) {c : Char} (hc : ¬ IsPlain c) :
    c ∉ word :=
  fun hmem => hc (h.2 c hmem)

theorem isPlainWord_cons {c : Char} {word : List Char} (hc : IsPlain c) (h : ∀ d ∈ word, IsPlain d) :
    IsPlainWord (c :: word) :=
  ⟨List.cons_ne_nil _ _, List.forall_mem_cons.2 ⟨hc, h⟩⟩

end Text

instance (c : Char) : Decidable (IsPlain c) := inferInstanceAs (Decidable (_ ∧ _))

theorem Literal.IsDigit.isPlain {c : Char} (h : IsDigit 16 c) : IsPlain c :=
  of_ascii (fun c => IsDigit 16 c → IsPlain c) (by decide) h.ascii h

theorem isPlainWord_dollar (width n : Nat) : IsPlainWord ('$' :: Digits.fixed 16 width n) :=
  isPlainWord_cons (by decide) fun c hc => (isDigit_of_mem_fixed c hc).isPlain

namespace Line

theorem Identifier.isIdentifierRest {word : List Char} (h : Identifier word) :
    ∀ c ∈ word, isIdentifierRest c = true := by
  cases word with
  | nil => exact fun c hc => by cases hc
  | cons c word =>
    intro d hd
    rw [isIdentifierRest_iff]
    rcases List.mem_cons.1 hd with rfl | hd
    · exact .inl h.1
    · exact h.2 d hd

theorem Identifier.isPlainWord {word : List Char} (h : Identifier word) : IsPlainWord word := by
  refine ⟨fun hnil => ?_, fun c hc => ?_⟩
  · subst hnil
    exact h
  · exact of_ascii (fun c => Line.isIdentifierRest c = true → IsPlain c) (by decide) (h.ascii c hc)
      (h.isIdentifierRest c hc)

/-- An identifier in upper case is one still. -/
theorem Identifier.isName {word : List Char} (h : Identifier word) : IsName (shout word) := by
  have hascii := h.ascii
  rw [IsName, shout, String.toList_ofList]
  constructor
  · cases word with
    | nil => exact h
    | cons c word =>
      refine ⟨?_, fun d hd => ?_⟩
      · exact isIdentifierStart_iff.1 (of_ascii
          (fun c => isIdentifierStart c = true → isIdentifierStart c.toUpper = true) (by decide)
          (hascii c (by simp)) (isIdentifierStart_iff.2 h.1))
      · obtain ⟨e, he, rfl⟩ := List.mem_map.1 hd
        exact isIdentifierRest_iff.1 (of_ascii
          (fun c => Line.isIdentifierRest c = true → Line.isIdentifierRest c.toUpper = true) (by decide)
          (hascii e (by simp [he])) (isIdentifierRest_iff.2 (h.2 e he)))
  · rw [shout, List.map_map]
    refine congrArg String.ofList (List.map_congr_left fun c hc => ?_)
    exact of_ascii (fun c => c.toUpper.toUpper = c.toUpper) (by decide) (hascii c hc)

/-! ## Plain lines -/

theorem code_self {text : List Char} (hs : StartsSolid text) (he : StartsSolid text.reverse)
    (hc : ';' ∉ text) : Code text text :=
  ⟨text, text, trims_self hs he, ⟨hc, .inl rfl⟩, trims_self hs he⟩

variable {line : List Char} {ws : List (List Char)}

/-- A plain line has no blanks to trim and no comment. -/
theorem Plain.code (h : Plain line ws) : Code line line := by
  have hsemicolon : ¬ IsPlain ';' := by decide
  cases h with
  | one h => exact code_self h.isWord.startsSolid h.isWord.reverse.startsSolid (h.not_mem hsemicolon)
  | @two name word hname hword =>
    refine code_self (hname.isWord.startsSolid.append hname.isWord.1 _) ?_ ?_
    · rw [List.reverse_append, List.reverse_cons, List.append_assoc]
      exact hword.isWord.reverse.startsSolid.append hword.isWord.reverse.1 _
    · simp [hname.not_mem hsemicolon, hword.not_mem hsemicolon]

theorem spaced_singleton {word : List Char} (h : IsWord word) : Spaced word [word] := by
  have hspaced : Spaced ([] ++ word ++ []) [word] :=
    .word (by simp [Blanks]) h (by simp [StartsBlank]) (.blanks (by simp [Blanks]))
  rwa [List.nil_append, List.append_nil] at hspaced

theorem Plain.spaced (h : Plain line ws) : Spaced line ws := by
  have hblank : isBlank ' ' = true := by decide
  cases h with
  | one h => exact spaced_singleton h.isWord
  | @two name word hname hword =>
    show Spaced ([] ++ name ++ ' ' :: word) [name, word]
    exact .word (by simp [Blanks]) hname.isWord (by simp [StartsBlank, hblank])
      ((spaced_singleton hword.isWord).cons_blank hblank)

theorem Plain.not_mem_lineFeed (h : Plain line ws) : '\n' ∉ line := by
  have hfeed : ¬ IsPlain '\n' := by decide
  cases h with
  | one h => exact h.not_mem hfeed
  | two hname hword => simp [hname.not_mem hfeed, hword.not_mem hfeed]

end Line

/-! ## Operands as words -/

theorem fits32_of_lt {n : Nat} (h : n < 0x10000) : Fits32 n := by
  rw [Fits32]
  omega

/-- An immediate value is shown with as many digits as it needs, or more. -/
theorem Operand.exists_text_immediate (v : Word) (size : Nat) :
    ∃ width, 0 < width ∧ v.toNat < Digits.capacity 16 width ∧
      ((Operand.immediate v).text size).toList = ' ' :: '#' :: '$' :: Digits.fixed 16 width v.toNat := by
  have htwo : Digits.capacity 16 2 = 0x100 := by decide
  have hthree : Digits.capacity 16 3 = 0x1000 := by decide
  have hfour : Digits.capacity 16 4 = 0x10000 := by decide
  have hv := v.toNat_lt
  rw [text]
  split
  · exact ⟨4, by decide, by omega, by simp [Word.hex]⟩
  · refine ⟨if v < 0x100 then 2 else if v < 0x1000 then 3 else 4, ?_, ?_, by simp [Word.shortHex]⟩
    · split
      · decide
      · split <;> decide
    · simp only [UInt16.lt_iff_toNat_lt, UInt16.reduceToNat]
      split
      · omega
      · split <;> omega

/-- An operand is written as a space and a word, and the word is read as the
operand, narrowed. -/
theorem Operand.exists_word {operand : Operand} (size : Nat) (h : operand ≠ .inherent) :
    ∃ word, (operand.text size).toList = ' ' :: word ∧ IsPlainWord word ∧
      OperandWord word operand.narrowed := by
  cases operand with
  | inherent => exact absurd rfl h
  | immediate v =>
    obtain ⟨width, hpos, hcapacity, htext⟩ := exists_text_immediate v size
    have hv := v.toNat_lt
    have hword := isPlainWord_dollar width v.toNat
    exact ⟨_, htext, isPlainWord_cons (by decide) hword.2,
      .immediate (denotes_fixed hpos hcapacity) (fits32_of_lt hv) (by omega)⟩
  | direct a =>
    have ha := a.toNat_lt
    have hcapacity : a.toNat < Digits.capacity 16 2 := ha
    exact ⟨'$' :: Digits.fixed 16 2 a.toNat, by simp [text, Byte.hex], isPlainWord_dollar _ _,
      .direct (denotes_fixed (by decide) hcapacity) (fits32_of_lt (by omega)) (by omega) (by omega)⟩
  | extended a =>
    have ha := a.toNat_lt
    have hcapacity : a.toNat < Digits.capacity 16 4 := ha
    have hdenotes := denotes_fixed (by decide) hcapacity
    refine ⟨'$' :: Digits.fixed 16 4 a.toNat, by simp [text, Word.hex], isPlainWord_dollar _ _, ?_⟩
    rw [narrowed]
    split
    next hlow =>
      exact .direct hdenotes (fits32_of_lt ha) (by omega) (by rw [Word.toNat_low]; omega)
    next hhigh => exact .extended hdenotes (fits32_of_lt ha) (by omega) (by omega)

/-! ## Texts of instructions -/

namespace Instruction

/-- What a line of source makes of an instruction: a name, and an operand
unless the name is of those that stand alone. -/
def IsSourced (i : Instruction) : Prop :=
  IsName i.mnemonic ∧ (i.operand = .inherent → i.mnemonic ∈ aloneNames)

theorem isSourced_of_words {ws : List (List Char)} {i : Instruction} (h : InstructionWords ws i) :
    i.IsSourced := by
  cases h with
  | alone hname halone => exact ⟨hname.isName, fun _ => halone⟩
  | operand hname hword =>
    refine ⟨hname.isName, fun hoperand => ?_⟩
    cases hoperand
    cases hword

variable {i : Instruction}

/-- The text of such an instruction is the words of an instruction. -/
theorem IsSourced.plain_text (h : i.IsSourced) :
    ∃ ws, Plain i.text.toList ws ∧ InstructionWords ws i.narrowed := by
  obtain ⟨⟨hname, hshout⟩, halone⟩ := h
  rw [text, instructionText, String.toList_append]
  by_cases hoperand : i.operand = .inherent
  · refine ⟨[i.mnemonic.toList], ?_, ?_⟩
    · rw [hoperand]
      simpa [Operand.text] using Plain.one hname.isPlainWord
    · have hwords := InstructionWords.alone hname (hshout.symm ▸ halone hoperand)
      rw [narrowed, hoperand]
      rwa [hshout] at hwords
  · obtain ⟨word, htext, hplain, hword⟩ := Operand.exists_word i.size hoperand
    refine ⟨[i.mnemonic.toList, word], ?_, ?_⟩
    · rw [htext]
      exact .two hname.isPlainWord hplain
    · have hwords := InstructionWords.operand hname hword
      rwa [hshout] at hwords

/-- The text of such an instruction is a line with the instruction, narrowed. -/
theorem IsSourced.isInstruction_text (h : i.IsSourced) : IsInstruction i.text.toList i.narrowed := by
  obtain ⟨ws, hplain, hwords⟩ := h.plain_text
  exact ⟨_, ws, hplain.code, hplain.spaced, hwords⟩

theorem IsSourced.not_mem_lineFeed (h : i.IsSourced) : '\n' ∉ i.text.toList := by
  obtain ⟨_, hplain, -⟩ := h.plain_text
  exact hplain.not_mem_lineFeed

end Instruction

/-! ## Listings -/

variable {is : List Instruction}

theorem body_texts (h : ∀ i ∈ is, i.IsSourced) :
    Body (is.map (·.text.toList)) (is.map (·.narrowed)) := by
  induction is with
  | nil => exact .nil
  | cons i is ih =>
    rw [List.forall_mem_cons] at h
    exact .instruction h.1.isInstruction_text (ih h.2)

/-- The lines of a listing are the texts of the instructions, and `END`. -/
theorem lines_listing (h : ∀ i ∈ is, i.IsSourced) :
    Text.lines (Program.listing ⟨is⟩).toList = is.map (·.text.toList) ++ [['E', 'N', 'D']] := by
  induction is with
  | nil => rfl
  | cons i is ih =>
    rw [List.forall_mem_cons] at h
    have hcons : (Program.listing ⟨i :: is⟩).toList =
        i.text.toList ++ '\n' :: (Program.listing ⟨is⟩).toList := by
      simp [Program.listing, String.join_cons]
    rw [hcons, Text.lines, pieces_append h.1.not_mem_lineFeed, ← Text.lines, ih h.2]
    rfl

theorem isSourced_of_assemble {source : String} {p : Program} (h : assemble source = .ok p) :
    ∀ i ∈ p.instructions, i.IsSourced := by
  obtain ⟨_, _, _, -, hbody, -⟩ := body_of_assembleLines (assemble_eq_ok_iff.1 h)
  intro i hi
  obtain ⟨_, _, _, _, _, hwords⟩ := hbody.exists_line i hi
  exact Instruction.isSourced_of_words hwords

/-- A listing assembles to the instructions it lists, narrowed. -/
theorem assemble_listing_eq {source : String} {p : Program} (h : assemble source = .ok p) :
    assemble p.listing = .ok p.narrowed :=
  have hsourced := isSourced_of_assemble h
  assemble_of_lines (lines_listing hsourced) (body_texts hsourced) isEndDirective_end

/-- **Reading a listing back.** The listing of an assembled program assembles.
What comes back has as many instructions, with the same names and the same
operands as words; and it is the program itself, modes and therefore bytes and
layout included, exactly when no extended address of the program is below
`$0100`. -/
theorem Program.assemble_listing {source : String} {p : Program} (h : assemble source = .ok p) :
    ∃ q, assemble p.listing = .ok q ∧
      q.instructions.length = p.instructions.length ∧
      q.instructions.map (·.mnemonic) = p.instructions.map (·.mnemonic) ∧
      q.instructions.map (·.operand.value) = p.instructions.map (·.operand.value) ∧
      (q = p ↔ ∀ i ∈ p.instructions, ∀ a, i.operand = .extended a → 0x100 ≤ a.toNat) := by
  refine ⟨p.narrowed, assemble_listing_eq h, List.length_map .., ?_, ?_, narrowed_eq_iff⟩
  · rw [narrowed, List.map_map]
    rfl
  · rw [narrowed, List.map_map]
    exact List.map_congr_left fun i _ => i.operand.value_narrowed

/-- An address that was cut to 16 bits, and a name that no operation has. -/
def cutAddress : Program := ⟨[⟨"STA", .extended 0x0020⟩, ⟨"END", .immediate 0x012C⟩]⟩

theorem Program.assemble_listing_cutAddress :
    cutAddress.listing = "STA $0020\nEND #$12C\nEND" ∧
      ∃ q, assemble "STA $0020\nEND #$12C\nEND" = .ok q ∧
        q.instructions.map (·.mnemonic) = ["STA", "END"] ∧
        q.instructions.map (·.operand.value) = [0x0020, 0x012C] ∧ q ≠ cutAddress := by
  have hlisting : cutAddress.listing = "STA $0020\nEND #$12C\nEND" := by decide
  have hassemble : assemble "sta $10020\nend #300\nend" = .ok cutAddress := by rfl
  obtain ⟨q, hq, -, hnames, hvalues, hself⟩ := assemble_listing hassemble
  rw [hlisting] at hq
  refine ⟨hlisting, q, hq, hnames, hvalues, fun h => ?_⟩
  exact absurd (hself.1 h ⟨"STA", .extended 0x0020⟩ (by decide) 0x0020 rfl) (by decide)

end Mc6809
