/-
The reader of a line does not see the case of letters. Each of its parts, from
the digits of a literal up to the words of an instruction, reads a text in
capitals as it reads the text itself: the value is the same, and so is the
reason for refusing it, but for the words that the reason quotes, which are in
capitals then (`readAll_capitals`, `readInstruction_capitals`).
-/
import Mc6809.Proofs.Assembler.LineGrammar
import Mc6809.Proofs.Text.Capitals

namespace Mc6809

open Text

/-! ## Literals -/

namespace Literal

def Failure.inCapitals : Failure → Failure
  | noDigits found => noDigits (capitals found)
  | outOfRange cause => outOfRange cause

/-- What was read, with the text that is left in capitals. -/
def outcomeInCapitals : Except Failure (Int × List Char) → Except Failure (Int × List Char)
  | .ok (value, rest) => .ok (value, capitals rest)
  | .error failure => .error failure.inCapitals

theorem isHexDigit_toUpper (c : Char) : isHexDigit c.toUpper = isHexDigit c :=
  apply_toUpper isHexDigit (by decide) c

theorem isDigit_toUpper (c : Char) : c.toUpper.isDigit = c.isDigit :=
  apply_toUpper Char.isDigit (by decide) c

theorem digitValue_toUpper (c : Char) : digitValue c.toUpper = digitValue c :=
  apply_toUpper digitValue (by decide) c

theorem digitsValue_capitals (base : Nat) (digits : List Char) :
    digitsValue base (capitals digits) = digitsValue base digits := by
  simp only [digitsValue, capitals, List.foldl_map, digitValue_toUpper]

theorem readDigits_capitals {isDigit : Char → Bool} (hdigit : ∀ c, isDigit c.toUpper = isDigit c)
    (base : Nat) (sign : Int) (text : List Char) :
    readDigits base isDigit sign (capitals text) =
      outcomeInCapitals (readDigits base isDigit sign text) := by
  unfold readDigits
  rw [takeWhile_capitals hdigit, dropWhile_capitals hdigit]
  cases text.takeWhile isDigit with
  | nil => rfl
  | cons c digits =>
    simp only [capitals_cons]
    rw [← capitals_cons, digitsValue_capitals]
    cases IntegerRange.signed32.check (sign * digitsValue base (c :: digits)) <;> rfl

theorem readHexadecimal_capitals (digits : List Char) :
    readHexadecimal (capitals digits) = outcomeInCapitals (readHexadecimal digits) :=
  readDigits_capitals isHexDigit_toUpper 16 1 digits

theorem readDecimal_capitals (text : List Char) :
    readDecimal (capitals text) = outcomeInCapitals (readDecimal text) := by
  have hdigits := readDigits_capitals isDigit_toUpper 10
  cases text with
  | nil => rfl
  | cons c text =>
    by_cases hplus : c = '+'
    · subst hplus
      exact hdigits 1 text
    · by_cases hminus : c = '-'
      · subst hminus
        exact hdigits (-1) text
      · have hplus' : c.toUpper ≠ '+' := fun h => hplus ((toUpper_eq_iff (by decide)).1 h)
        have hminus' : c.toUpper ≠ '-' := fun h => hminus ((toUpper_eq_iff (by decide)).1 h)
        rw [capitals_cons, readDecimal_of_ne hplus' hminus', readDecimal_of_ne hplus hminus]
        exact hdigits 1 (c :: text)

theorem read_capitals (text : List Char) : read (capitals text) = outcomeInCapitals (read text) := by
  cases text with
  | nil => rfl
  | cons c text =>
    by_cases hdollar : c = '$'
    · subst hdollar
      have hhex := readHexadecimal_capitals text
      show read ('$' :: capitals text) = outcomeInCapitals (read ('$' :: text))
      unfold read
      simp only [hhex]
      cases readHexadecimal text with
      | ok outcome => rfl
      | error failure => cases failure <;> rfl
    · have hdollar' : c.toUpper ≠ '$' := fun h => hdollar ((toUpper_eq_iff (by decide)).1 h)
      rw [capitals_cons, read_of_ne hdollar', read_of_ne hdollar]
      exact readDecimal_capitals (c :: text)

theorem readAll_capitals (text : List Char) :
    readAll (capitals text) = (readAll text).mapError Failure.inCapitals := by
  unfold readAll
  rw [read_capitals]
  cases read text with
  | error failure => rfl
  | ok outcome =>
    obtain ⟨value, rest⟩ := outcome
    cases rest <;> rfl

end Literal

/-! ## Lines -/

/-- The reason, with the word that it quotes in capitals. Reasons that are the
same in capitals are of one kind and about the same word. -/
def LineError.inCapitals : LineError → LineError
  | invalidMnemonic word => invalidMnemonic (Line.shout word.toList)
  | missingOperand mnemonic => missingOperand (Line.shout mnemonic.toList)
  | invalidLiteral literal => invalidLiteral (Line.shout literal.toList)
  | literalOutOfRange literal cause => literalOutOfRange (Line.shout literal.toList) cause
  | unexpectedToken word => unexpectedToken (Line.shout word.toList)

namespace Line

/-- What a line is, with the reason in capitals if it is malformed. -/
def inCapitals : Line → Line
  | malformed reason => malformed reason.inCapitals
  | line => line

theorem shout_capitals (word : List Char) : shout (capitals word) = shout word :=
  congrArg String.ofList (capitals_capitals word)

theorem shout_toList_ofList (word : List Char) : shout (String.ofList word).toList = shout word := by
  rw [String.toList_ofList]

theorem shout_shout (word : List Char) : shout (shout word).toList = shout word :=
  (shout_toList_ofList _).trans (shout_capitals word)

theorem isIdentifier_capitals (word : List Char) :
    isIdentifier (capitals word) = isIdentifier word := by
  cases word with
  | nil => rfl
  | cons c word =>
    have hstart : isIdentifierStart c.toUpper = isIdentifierStart c :=
      apply_toUpper isIdentifierStart (by decide) c
    rw [capitals_cons, isIdentifier, hstart,
      all_capitals fun d => apply_toUpper isIdentifierRest (by decide) d]
    rfl

theorem readLiteral_capitals (word : List Char) :
    readLiteral (capitals word) = (readLiteral word).mapError LineError.inCapitals := by
  unfold readLiteral
  rw [Literal.readAll_capitals]
  cases Literal.readAll word with
  | ok value => rfl
  | error failure =>
    cases failure with
    | noDigits found =>
      exact congrArg (fun literal => Except.error (LineError.invalidLiteral literal))
        (shout_toList_ofList word).symm
    | outOfRange cause =>
      exact congrArg (fun literal => Except.error (LineError.literalOutOfRange literal cause))
        (shout_toList_ofList word).symm

/-- A result that is mapped keeps the error it may be. -/
theorem mapError_map {ε ε' α β : Type} (f : α → β) (g : ε → ε') (x : Except ε α) :
    (f <$> x).mapError g = f <$> x.mapError g := by
  cases x <;> rfl

theorem readOperand_of_ne {c : Char} {word : List Char} (h : c ≠ '#') :
    readOperand (c :: word) = Operand.address <$> readLiteral (c :: word) := by
  unfold readOperand
  split
  next heq => exact absurd (List.cons.inj heq).1 h
  next => rfl

theorem readOperand_capitals (word : List Char) :
    readOperand (capitals word) = (readOperand word).mapError LineError.inCapitals := by
  cases word with
  | nil => rfl
  | cons c word =>
    by_cases hhash : c = '#'
    · subst hhash
      show Operand.ofImmediate <$> readLiteral (capitals word) = _
      rw [readLiteral_capitals, ← mapError_map]
      rfl
    · have hhash' : c.toUpper ≠ '#' := fun h => hhash ((toUpper_eq_iff (by decide)).1 h)
      rw [capitals_cons, readOperand_of_ne hhash', readOperand_of_ne hhash, mapError_map,
        ← readLiteral_capitals]
      rfl

theorem upper_capitals {word : List Char} (h : Identifier word) :
    upper (String.ofList (capitals word)) = upper (String.ofList word) := by
  have hcapitals : Identifier (capitals word) :=
    isIdentifier_iff.1 ((isIdentifier_capitals word).trans (isIdentifier_iff.2 h))
  rw [upper_eq_shout hcapitals.ascii, upper_eq_shout h.ascii, shout_capitals]

theorem readInstruction_capitals (ws : List (List Char)) :
    readInstruction (ws.map capitals) = (readInstruction ws).mapError LineError.inCapitals := by
  cases ws with
  | nil => rfl
  | cons mnemonic operands =>
    simp only [List.map_cons, readInstruction.eq_def, isIdentifier_capitals]
    cases hid : isIdentifier mnemonic with
    | false =>
      exact congrArg (fun word => Except.error (LineError.invalidMnemonic word))
        (shout_toList_ofList mnemonic).symm
    | true =>
      have hname := isIdentifier_iff.1 hid
      have hupper := upper_capitals hname
      have hinstruction : Instruction.ofName (String.ofList (capitals mnemonic)) =
          Instruction.ofName (String.ofList mnemonic) := by
        funext operand
        rw [Instruction.ofName, Instruction.ofName, hupper]
      simp only [hupper, hinstruction, Bool.not_true, Bool.false_eq_true, if_false]
      cases operands with
      | nil =>
        show (if standsAlone _ then _ else _) = Except.mapError _ (if standsAlone _ then _ else _)
        split
        · rfl
        · show Except.error _ = Except.error _
          rw [LineError.inCapitals, upper_eq_shout hname.ascii]
          exact congrArg (fun word => Except.error (LineError.missingOperand word))
            (shout_shout mnemonic).symm
      | cons operand rest =>
        cases rest with
        | nil =>
          show _ <$> readOperand (capitals operand) = Except.mapError _ (_ <$> readOperand operand)
          rw [readOperand_capitals, mapError_map]
        | cons extra rest =>
          exact congrArg (fun word => Except.error (LineError.unexpectedToken word))
            (shout_toList_ofList extra).symm

end Line

end Mc6809
