/-
What is reported of carrying out a command line: what is being done, and why
it cannot be done.
-/
import Mc6809.Log.Entry
import Mc6809.Program
import Mc6809.Registers

namespace Mc6809

/-- Why a file cannot be read. -/
inductive FileError where
  | notFound
  | notADirectory
  | isDirectory
  | nameTooLong
  deriving Repr, DecidableEq

namespace FileError

def message : FileError → String
  | notFound => "No such file or directory (os error 2)"
  | notADirectory => "Not a directory (os error 20)"
  | isDirectory => "Is a directory (os error 21)"
  | nameTooLong => "File name too long (os error 36)"

end FileError

/-- Why a command fails. -/
inductive Failure where
  | unreadable (cause : FileError)
  /-- The file is not UTF-8. -/
  | notText
  | unassembled (path : String)
  /-- What is typed is not UTF-8. -/
  | inputNotText
  deriving Repr, DecidableEq

namespace Failure

private def notUtf8 : String := "stream did not contain valid UTF-8"

def message : Failure → String
  | unreadable cause => cause.message
  | notText => notUtf8
  | unassembled path => "could not assemble " ++ path
  | inputNotText => notUtf8 ++ ": " ++ notUtf8

end Failure

/-- What is reported of a command. -/
inductive InvocationEvent where
  | reading (path : String)
  | failed (cause : Failure)
  /-- The instruction is in no table and will halt the processor. -/
  | unencodable (i : Instruction)
  | assembled (instructions bytes : Nat)
  | building
  | running
  | stepLimit (steps : Nat)
  | ended (steps : Nat) (registers : Registers)
  deriving Repr, DecidableEq

namespace InvocationEvent

open Log

def entry : InvocationEvent → Entry
  | reading path => ⟨.info, .commands, "Reading program", [⟨"path", path⟩]⟩
  | failed cause => ⟨.error, .program, cause.message, []⟩
  | unencodable i =>
    ⟨.warn, .assembling, "No encoding for this instruction, using the END opcode",
      [⟨"instruction", i.text⟩]⟩
  | assembled instructions bytes =>
    ⟨.info, .assembling, "Program assembled",
      [.ofNat "instructions" instructions, .ofNat "bytes" bytes]⟩
  | building => ⟨.debug, .running, "Building computer", []⟩
  | running => ⟨.info, .running, "Running program", []⟩
  | stepLimit steps => ⟨.warn, .running, "Step limit reached, stopping", [.ofNat "steps" steps]⟩
  | ended steps registers =>
    ⟨.info, .running, "End of program",
      [.ofNat "steps" steps, ⟨"registers", registers.text⟩]⟩

end InvocationEvent

end Mc6809
