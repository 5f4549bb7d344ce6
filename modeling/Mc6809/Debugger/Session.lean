/-
A session with the debugger: lines are read as commands and carried out. A
blank line stands for the last line that was a command. A line that is none
is answered with help or with the reason, and changes nothing. So is one whose
words cannot be told apart because a quote is open, though what is typed comes
in lines without that (`Input.join`).
-/
import Mc6809.Debugger
import Mc6809.Debugger.CommandLine
import Mc6809.Output

namespace Mc6809

/-- A debugger, and the command that a blank line repeats. -/
structure Session where
  debugger : Debugger
  previous? : Option DebuggerCommand

/-- What a session does with a line. -/
structure Reply where
  outputs : List Output
  session : Session
  flow : Flow

namespace Session

def ofMachine (machine : Machine) : Session := ⟨.ofMachine machine, none⟩

/-- The words of a line, unless a quote is open. -/
def words? (line : String) : Option (List String) :=
  (ShellWords.split line.toList).map fun words => words.map String.ofList

def isBlankLine (line : String) : Bool := (Text.trim line.toList).isEmpty

/-- What is written for a line that is no command. Help is there on the
debugger as a whole; of a single command it says what the command does. -/
def explain : Command.Stop → List Output
  | .refused cause => [.refused cause]
  | .help [] => DebuggerCommand.help.map .line
  | .help (name :: _) => ((DebuggerCommand.spec.find? name).map fun c => .line c.about).toList
  | .usage => DebuggerCommand.help.map .advice
  | .version => []

/-- Carries out a command, which is then the one to repeat. -/
def carryOut : Session → (limit : Nat) → DebuggerCommand → Reply
  | ⟨debugger, _⟩, limit, command =>
    let (records, debugger, flow) := debugger.execute limit command
    ⟨.ofDebugger (.received command) :: records.map .record, ⟨debugger, some command⟩, flow⟩

/-- Answers a line. Execution that does not stop within `limit` instructions
is left unfinished. -/
def reply (s : Session) (limit : Nat) (line : String) : Reply :=
  if isBlankLine line then
    match s.previous? with
    | none => ⟨[], s, .prompt⟩
    | some command => s.carryOut limit command
  else
    match words? line with
    | none => ⟨[.ofDebugger .unsplit], s, .prompt⟩
    | some words =>
      match DebuggerCommand.read words with
      | .ok command => s.carryOut limit command
      | .error stop => ⟨explain stop, s, .prompt⟩

/-- Goes on with execution that was left unfinished. -/
def proceed : Session → (limit count : Nat) → Reply
  | ⟨debugger, previous?⟩, limit, count =>
    let (records, debugger, flow) := debugger.proceed limit count
    ⟨records.map .record, ⟨debugger, previous?⟩, flow⟩

/-- Answers lines until they run out or one leaves the debugger, which the
last value tells. There is no answer if execution is left unfinished. -/
def replies (s : Session) (limit : Nat) : List String → Option (List Output × Session × Bool)
  | [] => some ([], s, false)
  | line :: rest =>
    let r := s.reply limit line
    match r.flow with
    | .leave => some (r.outputs, r.session, true)
    | .resuming _ => none
    | .prompt => do
      let (outputs, session, left) ← r.session.replies limit rest
      return (r.outputs ++ outputs, session, left)

end Session

end Mc6809
