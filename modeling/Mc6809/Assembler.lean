/-
The assembler reads its source line by line, in one pass. The first `END` line
or the first malformed line decides: whatever comes after it is not read.
-/
import Mc6809.Assembler.Line

namespace Mc6809

/-- A line of source and where it stands. -/
structure SourceLine where
  /-- The number of the line, from 1. -/
  number : Nat
  /-- The byte of the source at which it starts. -/
  offset : Nat
  raw : List Char

namespace SourceLine

/-- Lines with their places, the first of them as given. -/
def place (number offset : Nat) : List (List Char) → List SourceLine
  | [] => []
  | raw :: rest =>
    ⟨number, offset, raw⟩ :: place (number + 1) (offset + Text.byteLength raw + 1) rest

def ofSource (source : String) : List SourceLine := place 1 0 (Text.lines source.toList)

def read (line : SourceLine) : Line := Line.read line.raw

/-- The line without the blanks around it. -/
def text (line : SourceLine) : List Char := Text.trim line.raw

/-- Where that text stands in the source. -/
def span (line : SourceLine) : SourceSpan :=
  { offset := line.offset + (Text.byteLength line.raw - Text.byteLength (Text.trimStart line.raw))
    length := Text.byteLength line.text }

def error (line : SourceLine) (reason : LineError) : AssemblyError :=
  .malformedLine line.number (String.ofList line.text) reason line.span

end SourceLine

/-- The instructions of the lines up to the first `END`. -/
def assembleLines : List SourceLine → Except AssemblyError (List Instruction)
  | [] => .error .missingEnd
  | line :: rest =>
    match line.read with
    | .skipped => assembleLines rest
    | .endDirective => .ok []
    | .instruction i => (i :: ·) <$> assembleLines rest
    | .malformed reason => .error (line.error reason)

def assemble (source : String) : Except AssemblyError Program :=
  Program.mk <$> assembleLines (SourceLine.ofSource source)

end Mc6809
