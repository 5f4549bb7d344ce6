/-
A debugger around a machine: breakpoints, and listings that go on where the
last one stopped. Everything it does is told as records of the log.

Execution without a limit of its own, `resume`, is given one; `stopped` says
whether it came to its own end within that limit.
-/
import Mc6809.Log.Record

namespace Mc6809

structure Debugger where
  machine : Machine
  /-- In increasing order, each once. -/
  breakpoints : List Address
  /-- Where the next listing goes on, unless something was executed since. -/
  listCursor? : Option Address

/-- What the debugger does after a command. -/
inductive Flow where
  | prompt
  | leave
  /-- Execution goes on after `count` instructions. -/
  | resuming (count : Nat)
  deriving Repr, DecidableEq

/-- How far execution came. -/
structure Resumed where
  records : List Log.Record
  count : Nat
  debugger : Debugger
  /-- Whether the processor halted or a breakpoint was reached. -/
  stopped : Bool

namespace Debugger

open Log

def ofMachine (machine : Machine) : Debugger := ⟨machine, [], none⟩

/-- Puts an address in its place, unless it is there. -/
def insertAddress (address : Address) : List Address → List Address
  | [] => [address]
  | other :: rest =>
    if address < other then address :: other :: rest
    else if address = other then other :: rest
    else other :: insertAddress address rest

theorem mem_insertAddress {address other : Address} {addresses : List Address} :
    other ∈ insertAddress address addresses ↔ other = address ∨ other ∈ addresses := by
  induction addresses with
  | nil => simp [insertAddress]
  | cons first rest ih =>
    unfold insertAddress
    split
    · simp
    · split
      next h => simp [h]
      next => simp [ih, or_left_comm]

def isBreakpoint (d : Debugger) (address : Address) : Bool := d.breakpoints.contains address

def step : Debugger → List Record × Trace × Debugger
  | ⟨machine, breakpoints, _⟩ =>
    let (records, trace, machine) := machine.stepRecorded []
    let halted := if trace.isHalt then [Record.ofDebugger (.halted machine.pc)] else []
    (records ++ .ofDebugger (.traced trace) :: halted, trace, ⟨machine, breakpoints, none⟩)

/-- Executes instructions, no more once the processor halts. -/
def stepTimes : (count : Nat) → Debugger → List Record × Debugger
  | 0, d => ([], d)
  | count + 1, d =>
    let (records, trace, d) := d.step
    if trace.isHalt then (records, d)
    else
      let (more, d) := stepTimes count d
      (records ++ more, d)

/-- Executes instructions until the processor halts or comes to a breakpoint,
at most `limit` of them. A breakpoint where execution starts does not count. -/
def resume : (limit : Nat) → Debugger → Resumed
  | 0, d => ⟨[], 0, d, d.machine.isHalted⟩
  | limit + 1, d =>
    if d.machine.isHalted then ⟨[], 0, d, true⟩
    else
      let (records, _, d) := d.step
      let pc := d.machine.pc
      if d.isBreakpoint pc then ⟨records ++ [.ofDebugger (.breakpointReached pc)], 1, d, true⟩
      else
        let rest := resume limit d
        { rest with records := records ++ rest.records, count := rest.count + 1 }

/-- The instruction at an address as a listing shows it. -/
def rowAt (d : Debugger) (instruction : Disassembly) : ListRow :=
  ⟨instruction, d.isBreakpoint instruction.address, instruction.address == d.machine.pc⟩

/-- Lists instructions, from where the last listing stopped or else from the
program counter. -/
def list (d : Debugger) (count : Nat) : List ListRow × Debugger :=
  let start := d.listCursor?.getD d.machine.pc
  ((d.machine.memory.disassembleRun start count).map d.rowAt,
    { d with listCursor? := some (d.machine.memory.addressAfter start count) })

end Debugger

namespace DumpRow

/-- How many bytes are shown on a line. -/
def width : Nat := 8

/-- The bytes from an address on, as the lines of a dump. -/
def ofBytes (address : Address) (bytes : List Byte) : List DumpRow :=
  match bytes with
  | [] => []
  | b :: rest =>
    ⟨address, (b :: rest).take width⟩ ::
      ofBytes (address + width.toUInt16) (rest.drop (width - 1))
termination_by bytes.length

end DumpRow

namespace Debugger

open Log

def breakpointEvents (d : Debugger) : List DebuggerEvent :=
  if d.breakpoints.isEmpty then [.noBreakpoints]
  else d.breakpoints.map fun address => .breakpoint (d.machine.memory.disassemble address)

/-- What there is to tell about a topic, or about all. -/
def infoEvents (d : Debugger) : Option InfoTopic → List DebuggerEvent
  | none => d.breakpointEvents ++ [.executed d.machine.steps]
  | some .breakpoints => d.breakpointEvents
  | some .steps => [.executed d.machine.steps]

/-- Goes on executing after `count` instructions, for at most `limit` more. -/
def proceed (d : Debugger) (limit count : Nat) : List Record × Debugger × Flow :=
  let r := d.resume limit
  if r.stopped then
    (r.records ++ [.ofDebugger (.resumed (count + r.count))], r.debugger, .prompt)
  else (r.records, r.debugger, .resuming (count + r.count))

def execute (d : Debugger) (limit : Nat) : DebuggerCommand → List Record × Debugger × Flow
  | .leave => ([], d, .leave)
  | .step count =>
    if d.machine.isHalted then ([.ofDebugger .stillHalted], d, .prompt)
    else
      let (records, d) := d.stepTimes count
      (records, d, .prompt)
  | .resume =>
    if d.machine.isHalted then ([.ofDebugger .stillHalted], d, .prompt) else d.proceed limit 0
  | .reset =>
    let (records, machine) := d.machine.resetRecorded
    (records ++ [.ofDebugger (.reset machine.pc)], { d with machine, listCursor? := none }, .prompt)
  | .registers register? =>
    ([.ofDebugger (.registers d.machine.registers register?)], d, .prompt)
  | .memory address count =>
    let rows := DumpRow.ofBytes address (d.machine.memory.dump address count)
    (rows.map fun row => .ofDebugger (.dumped row), d, .prompt)
  | .list count =>
    let (rows, d) := d.list count
    (rows.map fun row => .ofDebugger (.listed row), d, .prompt)
  | .setBreakpoint address =>
    if d.isBreakpoint address then ([.ofDebugger (.breakpointThere address)], d, .prompt)
    else
      ([.ofDebugger (.breakpointSet address)],
        { d with breakpoints := insertAddress address d.breakpoints }, .prompt)
  | .clearBreakpoint address =>
    if d.isBreakpoint address then
      ([.ofDebugger (.breakpointCleared address)],
        { d with breakpoints := d.breakpoints.filter (· != address) }, .prompt)
    else ([.ofDebugger (.breakpointMissing address)], d, .prompt)
  | .info topic? => ((d.infoEvents topic?).map .ofDebugger, d, .prompt)

end Debugger

end Mc6809
