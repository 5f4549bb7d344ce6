/-
What one step of the processor did. The text of a trace is what a user sees of
the step; a trace is halting exactly if the processor is halted after it.
-/
import Mc6809.Operand

namespace Mc6809

inductive Trace where
  /-- An instruction that is no branch, with the operand it was given. -/
  | executed (mnemonic : Mnemonic) (operand : Operand) (size : Nat)
  /-- A branch, with the place it goes to when it is taken. -/
  | branched (mnemonic : Mnemonic) (target : Address) (taken : Bool)
  /-- The end of the program was reached. -/
  | ended
  /-- The opcode fetched is none of the table. -/
  | invalidOpcode (opcode : Byte)
  /-- The processor was halted before, so nothing was done. -/
  | halted
  deriving Repr, DecidableEq

namespace Trace

/-- Whether the processor is halted after the step. -/
def isHalt : Trace → Bool
  | ended | invalidOpcode _ | halted => true
  | executed .. | branched .. => false

def text : Trace → String
  | executed mnemonic operand size => instructionText mnemonic.name operand size
  | branched .bra target _ => "BRA $" ++ Word.hex target
  | branched mnemonic target true => mnemonic.name ++ " $" ++ Word.hex target ++ " (taken)"
  | branched mnemonic target false => mnemonic.name ++ " $" ++ Word.hex target ++ " (not taken)"
  | ended => "END - PROGRAM HALTED"
  | invalidOpcode opcode => "INVALID OPCODE: $" ++ Byte.hex opcode
  | halted => "CPU HALTED"

end Trace

end Mc6809
