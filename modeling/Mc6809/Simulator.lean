/-
A machine behind a page: it assembles what is typed, steps, runs within a
limit and shows registers and memory. A source that does not assemble leaves
everything as it was; one that does replaces the machine as a whole.
-/
import Mc6809.Assembler
import Mc6809.Listing
import Mc6809.Loader

namespace Mc6809

structure Listing where
  lines : List ListingLine
  /-- The size of the program in bytes. -/
  size : Nat
  deriving Repr, DecidableEq

/-- A range of memory as it is shown; `stop` is the first address not in it. -/
structure MemoryView where
  start : UInt32
  stop : UInt32
  bytes : List Byte
  deriving Repr, DecidableEq

/-- A range of numbers that are not all addresses. -/
structure InvalidRange where
  start : UInt32
  stop : UInt32
  deriving Repr, DecidableEq

def InvalidRange.message (r : InvalidRange) : String :=
  "invalid memory range " ++ toString r.start ++ ".." ++ toString r.stop

structure Simulator where
  machine : Machine

namespace Simulator

/-- A page nothing was typed into yet. -/
def initial : Simulator := ⟨Machine.blank⟩

def halted (s : Simulator) : Bool := s.machine.isHalted

def registers (s : Simulator) : Registers := s.machine.registers

/-- Assembles a program and gets it ready to run. -/
def assemble (s : Simulator) (source : String) : Except AssemblyError Listing × Simulator :=
  match Mc6809.assemble source with
  | .ok p => (.ok ⟨p.lines, p.size⟩, ⟨Machine.ofProgram p⟩)
  | .error e => (.error e, s)

def step (s : Simulator) : Trace × Simulator :=
  let (trace, machine) := s.machine.step
  (trace, ⟨machine⟩)

/-- Steps until the processor is halted, at most `limit` times. -/
def run : (limit : Nat) → Simulator → List Trace × Simulator
  | 0, s => ([], s)
  | limit + 1, s =>
    if s.halted then ([], s)
    else
      let (trace, s) := s.step
      let (traces, s) := run limit s
      (trace :: traces, s)

def reset (s : Simulator) : Simulator := ⟨s.machine.reset⟩

/-- The bytes from `start` up to `stop`, if all of them have an address. -/
def memoryView (s : Simulator) (start stop : UInt32) : Except InvalidRange MemoryView :=
  let length := stop.toNat - start.toNat
  if 0xFFFF < start || stop < start || Memory.addressSpace < start.toNat + length then
    .error ⟨start, stop⟩
  else .ok ⟨start, stop, s.machine.memory.dump start.toUInt16 length⟩

def memoryView? (s : Simulator) (start stop : UInt32) : Option MemoryView :=
  (s.memoryView start stop).toOption

end Simulator

end Mc6809
