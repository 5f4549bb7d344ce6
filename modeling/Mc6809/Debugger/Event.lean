/-
What the debugger tells its user.
-/
import Mc6809.Debugger.Command
import Mc6809.Disassembly
import Mc6809.Log.Entry
import Mc6809.Trace

namespace Mc6809

/-- One instruction of a listing. -/
structure ListRow where
  disassembly : Disassembly
  /-- Whether there is a breakpoint at the instruction. -/
  isBreakpoint : Bool
  /-- Whether the instruction is the next one to be executed. -/
  isNext : Bool
  deriving Repr, DecidableEq

namespace ListRow

def text (row : ListRow) : String :=
  (if row.isBreakpoint then "B" else " ") ++ (if row.isNext then ">" else " ") ++ " $" ++
    Word.hex row.disassembly.address ++ "    " ++ row.disassembly.text

end ListRow

/-- Bytes of a memory dump that are shown on one line. -/
structure DumpRow where
  address : Address
  bytes : List Byte
  deriving Repr, DecidableEq

namespace DumpRow

def text (row : DumpRow) : String :=
  "$" ++ Word.hex row.address ++ "  " ++ " ".intercalate (row.bytes.map Byte.hex)

end DumpRow

namespace Registers

/-- One register, or all, as the debugger shows them. -/
def shown (r : Registers) : Option Register → String
  | none => r.text
  | some .cc => "CC = " ++ r.cc.text ++ " (" ++ r.cc.binary ++ ")"
  | some register =>
    register.name ++ " = $" ++
      (if register.width = 8 then Byte.hex (Word.low (r.get register)) else Word.hex (r.get register))

end Registers

/-- What the debugger tells. -/
inductive DebuggerEvent where
  | entered
  | left
  /-- A quote is open in a line. -/
  | unsplit
  | received (command : DebuggerCommand)
  /-- What a step did. -/
  | traced (trace : Trace)
  | halted (pc : Address)
  | breakpointReached (pc : Address)
  /-- Nothing can be executed until the processor is reset. -/
  | stillHalted
  | resumed (count : Nat)
  | reset (pc : Address)
  | registers (r : Registers) (register? : Option Register)
  | dumped (row : DumpRow)
  | listed (row : ListRow)
  | breakpointSet (address : Address)
  | breakpointThere (address : Address)
  | breakpointCleared (address : Address)
  | breakpointMissing (address : Address)
  | noBreakpoints
  | breakpoint (instruction : Disassembly)
  | executed (steps : Nat)
  deriving Repr, DecidableEq

namespace DebuggerEvent

open Log

private def told (message : String) (fields : List Field) : Entry :=
  ⟨.info, .debugger, message, fields⟩

private def warned (message : String) (fields : List Field) : Entry :=
  ⟨.warn, .debugger, message, fields⟩

private def here (address : Address) : List Field := [.ofNat "address" address.toNat]

private def atPc (pc : Address) : List Field := [.ofNat "pc" pc.toNat]

def entry : DebuggerEvent → Entry
  | entered => told "Interactive mode, type \"help\" for the list of commands" []
  | left => told "Leaving interactive mode" []
  | unsplit => warned "Could not split input" [⟨"error", "missing closing quote"⟩]
  | received command => ⟨.debug, .debugger, "Executing command", [⟨"command", command.record⟩]⟩
  | traced trace => told trace.text []
  | halted pc => warned "Processor halted" (atPc pc)
  | breakpointReached pc => told "Breakpoint reached" (atPc pc)
  | stillHalted =>
    warned "The processor is halted, \"reset\" to start over or \"exit\" to quit" []
  | resumed count => ⟨.debug, .debugger, "Resumed execution", [.ofNat "count" count]⟩
  | reset pc => told "Processor reset" (atPc pc)
  | registers r register? => told (r.shown register?) []
  | dumped row => told row.text []
  | listed row => told row.text []
  | breakpointSet address => told "Breakpoint set" (here address)
  | breakpointThere address => warned "There already is a breakpoint here" (here address)
  | breakpointCleared address => told "Breakpoint removed" (here address)
  | breakpointMissing address => warned "There is no breakpoint here" (here address)
  | noBreakpoints => told "No breakpoints" []
  | breakpoint instruction =>
    told ("Breakpoint at $" ++ Word.hex instruction.address ++ "    " ++ instruction.text) []
  | executed steps => told (toString steps ++ " instructions executed") []

end DebuggerEvent

end Mc6809
