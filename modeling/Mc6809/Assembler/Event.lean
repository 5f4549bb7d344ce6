/-
What the assembler reports while it reads: every instruction, and the line
that ended the reading. A source that runs out without an `END` ends silently.
-/
import Mc6809.Assembler
import Mc6809.Log.Entry

namespace Mc6809

/-- What the assembler reports. -/
inductive AssemblerEvent where
  | parsed (line : Nat) (i : Instruction)
  | reachedEnd (line instructions : Nat)
  | refused (line : Nat) (reason : LineError)
  deriving Repr, DecidableEq

namespace AssemblerEvent

open Log

def entry : AssemblerEvent → Entry
  | parsed line i =>
    ⟨.trace, .assembler, "Parsed instruction", [.ofNat "line" line, ⟨"instruction", i.text⟩]⟩
  | reachedEnd line instructions =>
    ⟨.debug, .assembler, "Reached END directive",
      [.ofNat "line" line, .ofNat "instructions" instructions]⟩
  | refused line reason =>
    ⟨.debug, .assembler, "Syntax error", [.ofNat "line" line, ⟨"reason", reason.message⟩]⟩

end AssemblerEvent

/-- What is reported of lines that follow `count` instructions. -/
def assemblerEventsFrom (count : Nat) : List SourceLine → List AssemblerEvent
  | [] => []
  | line :: rest =>
    match line.read with
    | .skipped => assemblerEventsFrom count rest
    | .endDirective => [.reachedEnd line.number count]
    | .instruction i => .parsed line.number i :: assemblerEventsFrom (count + 1) rest
    | .malformed reason => [.refused line.number reason]

def assemblerEvents (source : String) : List AssemblerEvent :=
  assemblerEventsFrom 0 (SourceLine.ofSource source)

end Mc6809
