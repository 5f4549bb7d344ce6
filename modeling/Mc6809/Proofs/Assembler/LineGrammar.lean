/-
The grammar of a line of assembly source, as a reference would give it: what
is skipped, what ends a program, what is an instruction and which one, and
that everything else is malformed. None of it is said through the reader.

The reader agrees with the grammar on each of the four kinds of line
(`read_eq_skipped_iff`, `read_eq_endDirective_iff`, `read_eq_instruction_iff`,
`read_eq_malformed_iff`); so every line is of exactly one kind.
-/
import Mc6809.Assembler.Line
import Mc6809.Proofs.Literal.Numeral
import Mc6809.Proofs.Text.Words

namespace Mc6809

/-- A result that was mapped comes from a result. -/
theorem map_eq_ok_iff {ε α β : Type} {f : α → β} {x : Except ε α} {b : β} :
    f <$> x = .ok b ↔ ∃ a, x = .ok a ∧ f a = b := by
  cases x with
  | error e => exact ⟨fun h => (by cases h), fun ⟨_, h, _⟩ => (by cases h)⟩
  | ok a =>
    constructor
    · exact fun h => ⟨a, rfl, Except.ok.inj h⟩
    · intro h
      obtain ⟨_, h, rfl⟩ := h
      cases h
      rfl

theorem map_eq_error_iff {ε α β : Type} {f : α → β} {x : Except ε α} {e : ε} :
    f <$> x = .error e ↔ x = .error e := by
  cases x with
  | error e' =>
    have herror : f <$> (.error e' : Except ε α) = .error e' := rfl
    rw [herror, Except.error.injEq, Except.error.injEq]
  | ok a => exact ⟨fun h => (by cases h), fun h => (by cases h)⟩

namespace Line

open Literal Text

/-- A character that a mnemonic may start with. -/
def IsLetter (c : Char) : Prop := ('A' ≤ c ∧ c ≤ 'Z') ∨ ('a' ≤ c ∧ c ≤ 'z') ∨ c = '_'

/-- `[A-Za-z_][A-Za-z0-9_]*` -/
def Identifier : List Char → Prop
  | [] => False
  | c :: rest => IsLetter c ∧ ∀ d ∈ rest, IsLetter d ∨ ('0' ≤ d ∧ d ≤ '9')

/-- A word in upper case. -/
def shout (word : List Char) : String := String.ofList (word.map Char.toUpper)

/-- The operations that stand alone on their line. -/
def aloneNames : List String := ["NOP", "INCA", "INCB", "DECA", "DECB"]

/-- A second word of a line, and the operand that it is. -/
inductive OperandWord : List Char → Operand → Prop
  | immediate {literal v} {w : Word} (h : Denotes literal v) (hfits : Fits32 v)
      (hw : (w.toNat : Int) = v % 65536) : OperandWord ('#' :: literal) (.immediate w)
  | direct {literal v} {b : Byte} (h : Denotes literal v) (hfits : Fits32 v) (hle : v ≤ 255)
      (hb : (b.toNat : Int) = v % 256) : OperandWord literal (.direct b)
  | extended {literal v} {w : Word} (h : Denotes literal v) (hfits : Fits32 v) (hlt : 255 < v)
      (hw : (w.toNat : Int) = v % 65536) : OperandWord literal (.extended w)

/-- The words of a line, and the instruction that they are. -/
inductive InstructionWords : List (List Char) → Instruction → Prop
  | alone {name} (hname : Identifier name) (halone : shout name ∈ aloneNames) :
      InstructionWords [name] ⟨shout name, .inherent⟩
  | operand {name word operand} (hname : Identifier name) (h : OperandWord word operand) :
      InstructionWords [name, word] ⟨shout name, operand⟩

/-- What is left of a line without its blanks and its comment. -/
def Code (raw code : List Char) : Prop :=
  ∃ text kept, Trims raw text ∧ Uncommented text kept ∧ Trims kept code

/-- Nothing but blanks, or a comment after them. -/
def IsSkipped (raw : List Char) : Prop :=
  ∃ text, Trims raw text ∧ (text = [] ∨ text.head? = some ';')

/-- The word `END`, in any case. -/
def IsEndDirective (raw : List Char) : Prop := ∃ code, Code raw code ∧ shout code = "END"

/-- One or two words that are an instruction. -/
def IsInstruction (raw : List Char) (i : Instruction) : Prop :=
  ∃ code words, Code raw code ∧ Spaced code words ∧ InstructionWords words i

/-- None of these. -/
def IsMalformed (raw : List Char) : Prop :=
  ¬ IsSkipped raw ∧ ¬ IsEndDirective raw ∧ ¬ ∃ i, IsInstruction raw i

/-! ## Mnemonics -/

theorem isIdentifierStart_iff {c : Char} : isIdentifierStart c = true ↔ IsLetter c := by
  have halpha : c.isAlpha = (decide (c.val ≥ 'A'.val ∧ c.val ≤ 'Z'.val) ||
      (decide (c.val ≥ 'a'.val) && decide (c.val ≤ 'z'.val))) := rfl
  simp only [isIdentifierStart, halpha, Bool.or_eq_true, Bool.and_eq_true, beq_iff_eq,
    decide_eq_true_eq, IsLetter, Char.le_def]
  constructor
  · intro h
    rcases h with h | h | h
    · exact .inr (.inr h)
    · exact .inl h
    · exact .inr (.inl h)
  · intro h
    rcases h with h | h | h
    · exact .inr (.inl h)
    · exact .inr (.inr h)
    · exact .inl h

theorem isIdentifierRest_iff {c : Char} :
    isIdentifierRest c = true ↔ IsLetter c ∨ ('0' ≤ c ∧ c ≤ '9') := by
  simp only [isIdentifierRest, Bool.or_eq_true, isIdentifierStart_iff, Char.isDigit,
    Bool.and_eq_true, decide_eq_true_eq, Char.le_def, ge_iff_le]

theorem isIdentifier_iff {word : List Char} : isIdentifier word = true ↔ Identifier word := by
  cases word with
  | nil => simp [isIdentifier, Identifier]
  | cons c word =>
    simp only [isIdentifier, Identifier, Bool.and_eq_true, List.all_eq_true, isIdentifierStart_iff,
      isIdentifierRest_iff]

theorem Identifier.ascii {word : List Char} (h : Identifier word) : ∀ c ∈ word, c.toNat < 128 := by
  have hletter : ∀ {c : Char}, IsLetter c → c.toNat < 128 := by
    intro c h
    rcases h with ⟨-, h⟩ | ⟨-, h⟩ | rfl
    · exact Nat.lt_of_le_of_lt h (by decide)
    · exact Nat.lt_of_le_of_lt h (by decide)
    · decide
  cases word with
  | nil => exact fun c hc => by cases hc
  | cons c word =>
    intro d hd
    rcases List.mem_cons.1 hd with rfl | hd
    · exact hletter h.1
    · rcases h.2 d hd with hd | ⟨-, hd⟩
      · exact hletter hd
      · exact Nat.lt_of_le_of_lt hd (by decide)

/-- An ASCII word has its usual upper case. -/
theorem upper_eq_shout {word : List Char} (h : ∀ c ∈ word, c.toNat < 128) :
    upper (String.ofList word) = shout word := by
  have hmap : word.flatMap upperChar = word.map Char.toUpper := by
    induction word with
    | nil => rfl
    | cons c word ih =>
      rw [List.flatMap_cons, upperChar_ascii (h c (by simp)), ih fun d hd => h d (by simp [hd])]
      rfl
  rw [upper, String.toList_ofList, hmap, shout]

theorem standsAlone_iff {name : String} : standsAlone name = true ↔ name ∈ aloneNames := by
  constructor
  · intro h
    unfold standsAlone at h
    split at h
    next m hm =>
      obtain rfl := Mnemonic.ofName?_eq_some_iff.1 hm
      cases m <;> first | exact absurd h (by decide) | simp [aloneNames, Mnemonic.name]
    · cases h
  · intro h
    have key : ∀ name ∈ aloneNames, standsAlone name = true := by decide
    exact key name h

/-! ## Operands -/

theorem toNat_word_ofInt (v : Int) : ((UInt16.ofInt v).toNat : Int) = v % 65536 := by
  simp only [UInt16.ofInt, UInt16.toNat_ofNat']
  omega

theorem toNat_byte_ofInt (v : Int) : ((UInt8.ofInt v).toNat : Int) = v % 256 := by
  simp only [UInt8.ofInt, UInt8.toNat_ofNat']
  omega

theorem eq_word_ofInt {v : Int} {w : Word} (h : (w.toNat : Int) = v % 65536) :
    UInt16.ofInt v = w :=
  UInt16.toNat_inj.1 (Int.ofNat.inj ((toNat_word_ofInt v).trans h.symm))

theorem eq_byte_ofInt {v : Int} {b : Byte} (h : (b.toNat : Int) = v % 256) :
    UInt8.ofInt v = b :=
  UInt8.toNat_inj.1 (Int.ofNat.inj ((toNat_byte_ofInt v).trans h.symm))

theorem readLiteral_eq_ok_iff {word : List Char} {v : Int} :
    readLiteral word = .ok v ↔ Denotes word v ∧ Fits32 v := by
  rw [← readAll_eq_ok_iff]
  unfold readLiteral
  split
  next h => rw [h, Except.ok.injEq, Except.ok.injEq]
  next h => simp [h]
  next h => simp [h]

/-- No literal starts with the mark of an immediate operand. -/
theorem not_denotes_hash {literal : List Char} {v : Int} : ¬ Denotes ('#' :: literal) v := by
  intro h
  generalize ht : '#' :: literal = text at h
  cases h with
  | hexadecimal => cases ht
  | @decimal sign factor digits hs hn =>
    cases hs with
    | none =>
      rw [List.nil_append] at ht
      have hhash : IsDigit 10 '#' := hn.2 '#' (ht ▸ List.mem_cons_self)
      exact absurd hhash (by decide)
    | plus => cases ht
    | minus => cases ht

theorem readOperand_eq_ok_iff {word : List Char} {operand : Operand} :
    readOperand word = .ok operand ↔ OperandWord word operand := by
  constructor
  · intro h
    unfold readOperand at h
    split at h
    next literal =>
      obtain ⟨v, hv, rfl⟩ := map_eq_ok_iff.1 h
      obtain ⟨hd, hfits⟩ := readLiteral_eq_ok_iff.1 hv
      exact .immediate hd hfits (toNat_word_ofInt v)
    next =>
      obtain ⟨v, hv, rfl⟩ := map_eq_ok_iff.1 h
      obtain ⟨hd, hfits⟩ := readLiteral_eq_ok_iff.1 hv
      unfold Operand.address
      split
      next hle => exact .direct hd hfits hle (toNat_byte_ofInt v)
      next hlt => exact .extended hd hfits (by omega) (toNat_word_ofInt v)
  · intro h
    have hplain : ∀ {v : Int}, Denotes word v → Fits32 v → readOperand word = .ok (Operand.address v) := by
      intro v hd hfits
      unfold readOperand
      split
      next => exact absurd hd not_denotes_hash
      next => rw [readLiteral_eq_ok_iff.2 ⟨hd, hfits⟩]; rfl
    cases h with
    | immediate hd hfits hw =>
      rw [readOperand, readLiteral_eq_ok_iff.2 ⟨hd, hfits⟩, ← eq_word_ofInt hw]
      rfl
    | direct hd hfits hle hb =>
      rw [hplain hd hfits, Operand.address, if_pos hle, eq_byte_ofInt hb]
    | extended hd hfits hlt hw =>
      rw [hplain hd hfits, Operand.address, if_neg (by omega), eq_word_ofInt hw]

/-! ## Instructions -/

theorem ofName_eq {name : List Char} (h : Identifier name) (operand : Operand) :
    Instruction.ofName (String.ofList name) operand = ⟨shout name, operand⟩ := by
  rw [Instruction.ofName, upper_eq_shout h.ascii]

theorem readInstruction_eq_ok_iff {words : List (List Char)} {i : Instruction} :
    readInstruction words = .ok i ↔ InstructionWords words i := by
  constructor
  · intro h
    unfold readInstruction at h
    split at h
    · cases h
    next name operands =>
      simp only at h
      split at h
      · cases h
      next hid =>
        have hid : Identifier name := isIdentifier_iff.1 (by simpa using hid)
        split at h
        · split at h
          next halone =>
            rw [upper_eq_shout hid.ascii] at halone
            cases h
            rw [ofName_eq hid]
            exact .alone hid (standsAlone_iff.1 halone)
          · cases h
        · obtain ⟨operand, ho, rfl⟩ := map_eq_ok_iff.1 h
          rw [ofName_eq hid]
          exact .operand hid (readOperand_eq_ok_iff.1 ho)
        · cases h
  · intro h
    cases h with
    | alone hid halone =>
      rw [readInstruction, isIdentifier_iff.2 hid, upper_eq_shout hid.ascii,
        standsAlone_iff.2 halone, ofName_eq hid]
      rfl
    | operand hid ho =>
      rw [readInstruction, isIdentifier_iff.2 hid, readOperand_eq_ok_iff.2 ho, ← ofName_eq hid]
      rfl

/-! ## Lines -/

theorem code_iff {raw code : List Char} : Code raw code ↔ trim (stripComment (trim raw)) = code := by
  simp only [Code, trims_iff, uncommented_iff, stripComment]
  constructor
  · intro h
    obtain ⟨_, _, rfl, rfl, h⟩ := h
    exact h
  · exact fun h => ⟨_, _, rfl, rfl, h⟩

theorem isSkipped_iff {raw : List Char} :
    IsSkipped raw ↔ trim raw = [] ∨ (trim raw).head? = some ';' := by
  simp only [IsSkipped, trims_iff]
  constructor
  · intro h
    obtain ⟨_, rfl, h⟩ := h
    exact h
  · exact fun h => ⟨_, rfl, h⟩

theorem isEnd_iff {code : List Char} : isEnd code = true ↔ shout code = "END" := by
  rw [isEnd, beq_iff_eq, shout, ← String.toList_inj, String.toList_ofList]
  rfl

theorem Code.eq_nil_of_isSkipped {raw code : List Char} (h : Code raw code) (hs : IsSkipped raw) :
    code = [] := by
  rw [code_iff] at h
  rw [isSkipped_iff] at hs
  have hkept : stripComment (trim raw) = [] := by
    cases ht : trim raw with
    | nil => rfl
    | cons c rest =>
      rcases hs with hs | hs
      · simp [ht] at hs
      · rw [ht] at hs
        cases hs
        rfl
  rw [hkept] at h
  exact h.symm

theorem read_of_isSkipped {raw : List Char} (h : IsSkipped raw) : read raw = .skipped := by
  rw [isSkipped_iff] at h
  unfold read
  split
  · rfl
  · rfl
  next hnil hcomment =>
    rcases h with h | h
    · exact absurd h hnil
    · cases ht : trim raw with
      | nil => exact absurd ht hnil
      | cons c rest =>
        rw [ht] at h
        cases h
        exact absurd ht (hcomment rest)

theorem read_of_not_isSkipped {raw code : List Char} (h : ¬ IsSkipped raw) (hc : Code raw code) :
    read raw =
      if isEnd code then .endDirective
      else
        match readInstruction (words code) with
        | .ok i => .instruction i
        | .error reason => .malformed reason := by
  rw [isSkipped_iff, not_or] at h
  rw [code_iff] at hc
  unfold read
  split
  next hnil => exact absurd hnil h.1
  next hcomment => simp [hcomment] at h
  next =>
    subst hc
    rfl

theorem IsInstruction.not_isSkipped {raw : List Char} {i : Instruction} (h : IsInstruction raw i) :
    ¬ IsSkipped raw := by
  intro hs
  obtain ⟨code, ws, hcode, hspaced, hwords⟩ := h
  rw [hcode.eq_nil_of_isSkipped hs, spaced_iff] at hspaced
  subst hspaced
  cases hwords

theorem IsEndDirective.not_isSkipped {raw : List Char} (h : IsEndDirective raw) :
    ¬ IsSkipped raw := by
  intro hs
  obtain ⟨code, hcode, hend⟩ := h
  rw [hcode.eq_nil_of_isSkipped hs] at hend
  exact absurd hend (by decide)

/-- The word `END`, in any case, is one word. -/
theorem words_of_isEnd {code : List Char} (hend : isEnd code = true) : words code = [code] := by
  have hsolid : ∀ c ∈ code, isBlank c = false := by
    intro c hc
    have hup : c.toUpper ∈ ['E', 'N', 'D'] := by
      rw [isEnd, beq_iff_eq] at hend
      exact hend ▸ List.mem_map_of_mem hc
    have hascii : c.toUpper.toNat < 128 := by
      have hall : ∀ d ∈ ['E', 'N', 'D'], d.toNat < 128 := by simp
      exact hall _ hup
    exact of_ascii (fun c => c.toUpper ∈ ['E', 'N', 'D'] → isBlank c = false) (by decide)
      (ascii_of_toUpper hascii) hup
  have hne : code ≠ [] := by
    intro h
    subst h
    exact absurd hend (by decide)
  have h : words (code ++ []) = code :: words [] :=
    words_append_of_isWord ⟨hne, hsolid⟩ (by simp [StartsBlank])
  rw [List.append_nil] at h
  exact h

/-- The word `END` stands alone, but it is no operation that may. -/
theorem InstructionWords.isEnd_eq_false {code : List Char} {ws : List (List Char)} {i : Instruction}
    (h : InstructionWords ws i) (hspaced : Spaced code ws) : isEnd code = false := by
  refine Bool.eq_false_iff.2 fun hend => ?_
  rw [spaced_iff, words_of_isEnd hend] at hspaced
  subst hspaced
  cases h with
  | alone hname halone =>
    rw [isEnd_iff] at hend
    rw [hend] at halone
    exact absurd halone (by decide)

theorem read_eq_skipped_iff {raw : List Char} : read raw = .skipped ↔ IsSkipped raw := by
  constructor
  · intro h
    by_cases hs : IsSkipped raw
    · exact hs
    · rw [read_of_not_isSkipped hs (code_iff.2 rfl)] at h
      split at h
      · cases h
      · split at h
        · cases h
        · cases h
  · exact read_of_isSkipped

theorem read_eq_endDirective_iff {raw : List Char} : read raw = .endDirective ↔ IsEndDirective raw := by
  constructor
  · intro h
    have hs : ¬ IsSkipped raw := fun hs => by
      rw [read_of_isSkipped hs] at h
      cases h
    rw [read_of_not_isSkipped hs (code_iff.2 rfl)] at h
    split at h
    next hend => exact ⟨_, code_iff.2 rfl, isEnd_iff.1 hend⟩
    · split at h
      · cases h
      · cases h
  · intro h
    have hs := h.not_isSkipped
    obtain ⟨code, hcode, hend⟩ := h
    rw [read_of_not_isSkipped hs hcode, if_pos (isEnd_iff.2 hend)]

theorem read_eq_instruction_iff {raw : List Char} {i : Instruction} :
    read raw = .instruction i ↔ IsInstruction raw i := by
  constructor
  · intro h
    have hs : ¬ IsSkipped raw := fun hs => by
      rw [read_of_isSkipped hs] at h
      cases h
    rw [read_of_not_isSkipped hs (code_iff.2 rfl)] at h
    split at h
    · cases h
    · split at h
      next hread =>
        cases h
        exact ⟨_, _, code_iff.2 rfl, spaced_words _, readInstruction_eq_ok_iff.1 hread⟩
      · cases h
  · intro h
    have hs := h.not_isSkipped
    obtain ⟨code, ws, hcode, hspaced, hwords⟩ := h
    have hend := hwords.isEnd_eq_false hspaced
    rw [read_of_not_isSkipped hs hcode, hend, spaced_iff.1 hspaced, readInstruction_eq_ok_iff.2 hwords]
    rfl

/-- A line that is of no other kind is refused, and no other line is. -/
theorem read_eq_malformed_iff {raw : List Char} :
    (∃ reason, read raw = .malformed reason) ↔ IsMalformed raw := by
  simp only [IsMalformed, ← read_eq_skipped_iff, ← read_eq_endDirective_iff, ← read_eq_instruction_iff]
  cases read raw <;> simp

end Line

end Mc6809
