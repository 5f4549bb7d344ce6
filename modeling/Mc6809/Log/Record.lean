/-
The records of the log: an event and the spans it happened in. Each activity
of the simulator comes with the records that it makes.
-/
import Mc6809.Assembler.Event
import Mc6809.Debugger.Event
import Mc6809.Invocation.Event
import Mc6809.Machine.Event

namespace Mc6809

namespace Log

inductive Event where
  | assembler (e : AssemblerEvent)
  | machine (e : MachineEvent)
  | debugger (e : DebuggerEvent)
  | invocation (e : InvocationEvent)
  deriving Repr, DecidableEq

namespace Event

def entry : Event → Entry
  | assembler e => e.entry
  | machine e => e.entry
  | debugger e => e.entry
  | invocation e => e.entry

end Event

structure Record where
  /-- The spans the event happened in, the outermost first. -/
  spans : List Span
  event : Event
  deriving Repr, DecidableEq

namespace Span

def assemble (length : Nat) : Span := ⟨.info, .assembler, "assemble", [.ofNat "len" length]⟩
def compile : Span := ⟨.info, .compiler, "compile", []⟩
def load (length : Nat) : Span := ⟨.info, .loader, "load", [.ofNat "len" length]⟩
def reset : Span := ⟨.info, .processor, "reset", []⟩
def run : Span := ⟨.info, .processor, "run", []⟩
def step : Span := ⟨.debug, .processor, "step", []⟩

end Span

namespace Record

def ofDebugger (e : DebuggerEvent) : Record := ⟨[], .debugger e⟩

def ofInvocation (e : InvocationEvent) : Record := ⟨[], .invocation e⟩

/-- Events of a machine within spans. -/
def ofMachine (spans : List Span) (events : List MachineEvent) : List Record :=
  events.map fun e => ⟨spans, .machine e⟩

end Record

end Log

open Log

/-- The records of assembling a source. -/
def assembleRecords (source : String) : List Record :=
  (assemblerEvents source).map fun e => ⟨[.assemble source.utf8ByteSize], .assembler e⟩

namespace Program

/-- The records of making a machine ready to run a program. -/
def compileRecords (p : Program) : List Record :=
  let machine := Machine.ofProgram p
  Record.ofMachine [.compile, .reset] Machine.blank.resetEvents ++
    Record.ofMachine [.compile, .load p.size] p.loadEvents ++
    Record.ofMachine [.compile, .reset] machine.resetEvents ++
    Record.ofMachine [.compile] [.ready machine.pc]

end Program

namespace Machine

def resetRecorded (m : Machine) : List Record × Machine :=
  (Record.ofMachine [.reset] m.resetEvents, m.reset)

def stepRecorded (spans : List Span) (m : Machine) : List Record × Trace × Machine :=
  let (events, outcome) := m.stepReported
  (Record.ofMachine (spans ++ [.step]) events, outcome)

theorem stepRecorded_step (spans : List Span) (m : Machine) : (m.stepRecorded spans).2 = m.step :=
  m.stepReported_step

end Machine

end Mc6809
