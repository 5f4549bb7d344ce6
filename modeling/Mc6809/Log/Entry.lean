/-
What a record of the log shows: its level, the part of the program it comes
from, a message and named values. Work that takes a while opens a span, which
has the same parts but for the message; records made meanwhile name it.
-/
import Mc6809.Log.Level

namespace Mc6809

namespace Log

/-- A part of the program, as filters name it. -/
inductive Origin where
  | assembler
  | compiler
  | loader
  | processor
  | memory
  | instructions
  | program
  | commands
  | assembling
  | running
  | completing
  | debugger
  deriving Repr, DecidableEq

namespace Origin

/-- The path of the part. Every path starts with the name of the program, and
that of a part of the simulator also with the simulator's. -/
def path : Origin → String
  | assembler => "m6809_emulator::parser"
  | compiler => "m6809_emulator::compiler"
  | loader => "m6809_emulator::compiler::memory"
  | processor => "m6809_emulator::runtime"
  | memory => "m6809_emulator::runtime::memory"
  | instructions => "m6809_emulator::runtime::instructions"
  | program => "m6809"
  | commands => "m6809::commands"
  | assembling => "m6809::commands::assemble"
  | running => "m6809::commands::run"
  | completing => "m6809::commands::completion"
  | debugger => "m6809::interactive"

end Origin

/-- A value under its name. -/
structure Field where
  name : String
  value : String
  deriving Repr, DecidableEq

namespace Field

/-- A field that holds a number, in decimal. -/
def ofNat (name : String) (value : Nat) : Field := ⟨name, toString value⟩

end Field

structure Entry where
  level : Level
  origin : Origin
  message : String
  fields : List Field
  deriving Repr, DecidableEq

/-- Work during which records are made. -/
structure Span where
  level : Level
  origin : Origin
  name : String
  fields : List Field
  deriving Repr, DecidableEq

end Log

end Mc6809
