/-
The commands of the debugger.
-/
import Mc6809.Registers

namespace Mc6809

/-- What the debugger is asked to tell about itself. -/
inductive InfoTopic where
  | breakpoints
  | steps
  deriving Repr, DecidableEq

/-- A command with its arguments. -/
inductive DebuggerCommand where
  /-- Execute instructions. -/
  | step (count : Nat)
  /-- Execute until a breakpoint is reached or the processor halts. -/
  | resume
  | reset
  /-- Show one register, or all. -/
  | registers (register? : Option Register)
  | memory (address : Address) (count : Nat)
  /-- Disassemble. -/
  | list (count : Nat)
  | setBreakpoint (address : Address)
  | clearBreakpoint (address : Address)
  /-- Tell about one topic, or all. -/
  | info (topic? : Option InfoTopic)
  | leave
  deriving Repr, DecidableEq

namespace InfoTopic

def name : InfoTopic → String
  | breakpoints => "Breakpoints"
  | steps => "Steps"

end InfoTopic

namespace DebuggerCommand

private def withFields (name : String) (fields : List (String × String)) : String :=
  name ++ " \x7b " ++ ", ".intercalate (fields.map fun (name, value) => name ++ ": " ++ value) ++
    " \x7d"

private def optional : Option String → String
  | none => "None"
  | some name => "Some(" ++ name ++ ")"

private def addressRecord (address : Address) : String := "Address(" ++ toString address ++ ")"

/-- The command as a record. -/
def record : DebuggerCommand → String
  | step count => withFields "Step" [("count", toString count)]
  | resume => "Continue"
  | reset => "Reset"
  | registers register? => withFields "Registers" [("register", optional (register?.map (·.name)))]
  | memory address count =>
    withFields "Memory" [("address", addressRecord address), ("count", toString count)]
  | list count => withFields "List" [("count", toString count)]
  | setBreakpoint address => withFields "Break" [("address", addressRecord address)]
  | clearBreakpoint address => withFields "Unbreak" [("address", addressRecord address)]
  | info topic? => withFields "Info" [("topic", optional (topic?.map (·.name)))]
  | leave => "Exit"

end DebuggerCommand

end Mc6809
