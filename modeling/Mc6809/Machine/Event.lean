/-
What a machine reports while it is loaded, reset and stepped. A machine that
is halted has nothing to report.

`stepReported` is `step` together with its report; `stepReported_step` says
that nothing else of the step is changed.
-/
import Mc6809.Loader
import Mc6809.Log.Entry

namespace Mc6809

/-- What a machine reports. -/
inductive MachineEvent where
  | reset (pc : Address)
  | loading (address : Address) (i : Instruction)
  /-- The program ends past the end of RAM. -/
  | doesNotFit (loadEnd : Nat)
  | loaded (instructions : Nat)
  | ready (pc : Address)
  | ignoredRomWrite (address : Address) (value : Byte)
  | added (current value : Byte)
  | subtracted (current value : Byte)
  | jumped (target : Address)
  | invalidOpcode (address : Address) (opcode : Byte)
  /-- The instruction at the address was carried out. -/
  | stepped (address : Address) (trace : Trace)
  | registers (r : Registers)
  deriving Repr, DecidableEq

namespace MachineEvent

open Log

private def addressField (name : String) (address : Address) : Field := .ofNat name address.toNat

def entry : MachineEvent → Entry
  | reset pc => ⟨.debug, .processor, "Reset", [addressField "pc" pc]⟩
  | loading address i =>
    ⟨.trace, .loader, "Loading instruction",
      [addressField "address" address, ⟨"instruction", i.text⟩]⟩
  | doesNotFit loadEnd =>
    ⟨.warn, .loader, "Program does not fit in RAM", [.ofNat "end" loadEnd]⟩
  | loaded instructions =>
    ⟨.debug, .loader, "Program loaded", [.ofNat "instructions" instructions]⟩
  | ready pc => ⟨.debug, .compiler, "Computer ready", [addressField "pc" pc]⟩
  | ignoredRomWrite address value =>
    ⟨.trace, .memory, "Ignoring write to ROM",
      [addressField "address" address, .ofNat "value" value.toNat]⟩
  | added current value =>
    ⟨.debug, .instructions,
      toString current ++ " + " ++ toString value ++ " = " ++ toString (current + value), []⟩
  | subtracted current value =>
    ⟨.debug, .instructions,
      toString current ++ " - " ++ toString value ++ " = " ++ toString (current - value), []⟩
  | jumped target =>
    ⟨.debug, .instructions, "Jumping to address 0x" ++ (Word.hex target).toLower, []⟩
  | invalidOpcode address opcode =>
    ⟨.warn, .processor, "Invalid opcode, halting",
      [addressField "address" address, .ofNat "opcode" opcode.toNat]⟩
  | stepped address trace => ⟨.info, .processor, trace.text, [addressField "address" address]⟩
  | registers r => ⟨.debug, .processor, "Register state " ++ r.text, []⟩

end MachineEvent

namespace Memory

/-- What is reported when a byte is written. -/
def writeEvents (address : Address) (value : Byte) : List MachineEvent :=
  if inRom address then [.ignoredRomWrite address value] else []

/-- What is reported when bytes are written one after the other. -/
def writeBytesEvents (address : Address) : List Byte → List MachineEvent
  | [] => []
  | b :: rest => writeEvents address b ++ writeBytesEvents (address + 1) rest

end Memory

namespace Program

/-- What is reported when a program is loaded. -/
def loadEvents (p : Program) : List MachineEvent :=
  p.layout.flatMap (fun (address, i) =>
      .loading address i :: Memory.writeBytesEvents address i.bytes) ++
    (if p.fitsInRam then [] else [.doesNotFit p.loadEnd]) ++
    [.loaded p.instructions.length]

end Program

namespace Machine

/-- What is reported when the machine is reset. -/
def resetEvents (m : Machine) : List MachineEvent := [.reset m.reset.pc]

/-- What is reported of a byte stored where an operand points. -/
def storeByteEvents (operand : Operand) (value : Byte) : List MachineEvent :=
  match operand.effectiveAddress? with
  | some address => Memory.writeEvents address value
  | none => []

/-- What is reported of a word stored where an operand points. -/
def storeWordEvents (operand : Operand) (value : Word) : List MachineEvent :=
  match operand.effectiveAddress? with
  | some address =>
    Memory.writeEvents address (Word.high value) ++ Memory.writeEvents (address + 1) (Word.low value)
  | none => []

/-- What an instruction reports of itself before it is carried out, all its
bytes having been fetched. -/
def performEvents (m : Machine) (e : Encoding) (operand : Operand) : List MachineEvent :=
  match e.mnemonic with
  | .sta => storeByteEvents operand m.registers.a
  | .stb => storeByteEvents operand m.registers.b
  | .stx => storeWordEvents operand m.registers.x
  | .adda => [.added m.registers.a (m.byteOperand operand)]
  | .addb => [.added m.registers.b (m.byteOperand operand)]
  | .suba => [.subtracted m.registers.a (m.byteOperand operand)]
  | .subb => [.subtracted m.registers.b (m.byteOperand operand)]
  | .bra | .beq | .bne => if m.takes e.mnemonic then [.jumped (m.branchTarget operand)] else []
  | .lda | .ldb | .ldx | .inca | .incb | .deca | .decb | .nop | .stop => []

/-- What the next instruction of a running processor reports of itself. -/
def nextEvents (m : Machine) : List MachineEvent :=
  let (opcode, fetched) := m.fetchByte
  match Encoding.decode? opcode with
  | some e =>
    let (operand, fetched) := fetched.fetchOperand e
    fetched.performEvents e operand
  | none => [.invalidOpcode m.pc opcode]

/-- A step, and what is reported of it. -/
def stepReported (m : Machine) : List MachineEvent × Trace × Machine :=
  if m.isHalted then ([], m.step)
  else
    let address := m.pc
    let own := m.nextEvents
    let (trace, after) := m.step
    (own ++ [.stepped address trace, .registers after.registers], trace, after)

theorem stepReported_step (m : Machine) : m.stepReported.2 = m.step := by
  unfold stepReported
  split <;> rfl

end Machine

end Mc6809
