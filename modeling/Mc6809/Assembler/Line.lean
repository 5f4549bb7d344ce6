/-
The syntax of one line of assembly source. Blanks around a line do not count,
and neither does what follows a semicolon. What is left is nothing, the word
`END` in any case, or a mnemonic with at most one operand.
-/
import Mc6809.Assembler.Error
import Mc6809.Literal
import Mc6809.Program
import Mc6809.Text.Blank

namespace Mc6809

inductive Line where
  | skipped
  | endDirective
  | instruction (i : Instruction)
  | malformed (reason : LineError)
  deriving Repr, DecidableEq

namespace Line

def isIdentifierStart (c : Char) : Bool := c == '_' || c.isAlpha

def isIdentifierRest (c : Char) : Bool := isIdentifierStart c || c.isDigit

/-- Whether a word is an identifier: ASCII letters, digits and underscores, not
starting with a digit. -/
def isIdentifier : List Char → Bool
  | [] => false
  | c :: rest => isIdentifierStart c && rest.all isIdentifierRest

/-- The value of an operand without its `#`. -/
def readLiteral (word : List Char) : Except LineError Int :=
  match Literal.readAll word with
  | .ok value => .ok value
  | .error (.noDigits _) => .error (.invalidLiteral (String.ofList word))
  | .error (.outOfRange cause) => .error (.literalOutOfRange (String.ofList word) cause)

def readOperand : List Char → Except LineError Operand
  | '#' :: literal => Operand.ofImmediate <$> readLiteral literal
  | literal => Operand.address <$> readLiteral literal

/-- Whether an operation may stand alone on its line. -/
def standsAlone (mnemonic : String) : Bool :=
  match Mnemonic.ofName? mnemonic with
  | some m => m.isInherent
  | none => false

/-- The instruction that the words of a line make up. The mnemonic is checked
first, then the number of words, then the operand. -/
def readInstruction : List (List Char) → Except LineError Instruction
  | [] => .error (.invalidMnemonic "")
  | mnemonic :: operands =>
    let name := String.ofList mnemonic
    if !isIdentifier mnemonic then .error (.invalidMnemonic name)
    else
      match operands with
      | [] =>
        if standsAlone (Text.upper name) then .ok (Instruction.ofName name .inherent)
        else .error (.missingOperand (Text.upper name))
      | [operand] => Instruction.ofName name <$> readOperand operand
      | _ :: extra :: _ => .error (.unexpectedToken (String.ofList extra))

/-- The line up to its first semicolon. -/
def stripComment (line : List Char) : List Char := line.takeWhile (· != ';')

/-- Whether a text is the word `END`, in any case. -/
def isEnd (code : List Char) : Bool := code.map Char.toUpper == ['E', 'N', 'D']

def read (raw : List Char) : Line :=
  match Text.trim raw with
  | [] => skipped
  | ';' :: _ => skipped
  | line =>
    let code := Text.trim (stripComment line)
    if isEnd code then endDirective
    else
      match readInstruction (Text.words code) with
      | .ok i => instruction i
      | .error reason => malformed reason

end Line

end Mc6809
