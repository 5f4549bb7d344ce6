/-
What can be wrong with assembly source: one line that is no instruction, or a
program that never ends. Each is a cause; its wording is given once, here.
-/
import Mc6809.Text.Integer

namespace Mc6809

inductive LineError where
  /-- The first word is not an identifier. -/
  | invalidMnemonic (word : String)
  /-- The operation is not one of those that stand alone. -/
  | missingOperand (mnemonic : String)
  /-- The operand, less its `#`, is not a number literal. -/
  | invalidLiteral (literal : String)
  /-- The operand, less its `#`, starts with a literal too big for 32 bits. -/
  | literalOutOfRange (literal : String) (cause : IntegerError)
  | unexpectedToken (word : String)
  deriving Repr, DecidableEq

namespace LineError

def message : LineError → String
  | invalidMnemonic word => "invalid mnemonic \"" ++ word ++ "\""
  | missingOperand mnemonic => mnemonic ++ " needs an operand"
  | invalidLiteral literal => "invalid number literal \"" ++ literal ++ "\""
  | literalOutOfRange literal _ => "number literal \"" ++ literal ++ "\" is out of range"
  | unexpectedToken word => "unexpected token \"" ++ word ++ "\""

end LineError

/-- A piece of the source, in bytes of UTF-8. -/
structure SourceSpan where
  offset : Nat
  length : Nat
  deriving Repr, DecidableEq

inductive AssemblyError where
  /-- The line `number`, counted from 1, is no instruction. `text` is that line
  without the blanks around it and `span` is where it stands. -/
  | malformedLine (number : Nat) (text : String) (reason : LineError) (span : SourceSpan)
  | missingEnd
  deriving Repr, DecidableEq

namespace AssemblyError

def message : AssemblyError → String
  | malformedLine number text _ _ => "Syntax Error at line " ++ toString number ++ ": " ++ text
  | missingEnd => "Program must end with 'END' directive"

def line? : AssemblyError → Option Nat
  | malformedLine number _ _ _ => some number
  | missingEnd => none

/-- The name under which a diagnostic is reported. -/
def code : AssemblyError → String
  | malformedLine .. => "assembler::syntax"
  | missingEnd => "assembler::missing_end"

/-- What to do about it, where that is clear. -/
def help? : AssemblyError → Option String
  | malformedLine .. => none
  | missingEnd => some "add a line containing only END after the last instruction"

/-- What to write next to which piece of the source. -/
def label? : AssemblyError → Option (String × SourceSpan)
  | malformedLine _ _ reason span => some (reason.message, span)
  | missingEnd => none

end AssemblyError

end Mc6809
