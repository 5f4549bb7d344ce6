/-
What a command writes. Records and lines go to standard output, the rest to
standard error.
-/
import Mc6809.Command.Reading
import Mc6809.Log.Layout

namespace Mc6809

inductive Output where
  /-- A record of the log, if the filter shows it. -/
  | record (r : Log.Record)
  | line (text : String)
  /-- Why a command line is refused. -/
  | refused (cause : Command.Refusal)
  /-- What is wrong with a source. -/
  | diagnosed (e : AssemblyError)
  /-- A line of help that nobody asked for. -/
  | advice (text : String)

namespace Output

def ofDebugger (e : DebuggerEvent) : Output := .record (.ofDebugger e)

def ofInvocation (e : InvocationEvent) : Output := .record (.ofInvocation e)

/-- What goes to standard output, line by line. -/
def shown (layout : Log.Layout) (outputs : List Output) : List String :=
  outputs.filterMap fun
    | record r => layout.line? r
    | line text => some text
    | refused _ | diagnosed _ | advice _ => none

/-- The lines on standard error that say why something was refused. -/
def complaints (outputs : List Output) : List String :=
  outputs.filterMap fun
    | refused cause => some ("error: " ++ cause.message)
    | record _ | line _ | diagnosed _ | advice _ => none

end Output

end Mc6809
