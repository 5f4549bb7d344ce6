/-
A processor attached to its memory. A step fetches an opcode at the program
counter, then the operand bytes its table entry asks for, and carries the
instruction out; the program counter moves past each byte as it is fetched.

The end-of-program opcode and every opcode outside the table halt the
processor, and only a reset starts it again. Until then a step does nothing
and is not counted.
-/
import Mc6809.Memory
import Mc6809.Program
import Mc6809.Registers
import Mc6809.Trace

namespace Mc6809

inductive State where
  | running
  | halted
  deriving Repr, DecidableEq

def State.name : State → String
  | running => "Running"
  | halted => "Halted"

structure Machine where
  registers : Registers
  memory : Memory
  state : State
  /-- The instructions executed since the last reset. -/
  steps : Nat
  deriving DecidableEq

/-- One of the two registers arithmetic is done in. -/
inductive Accumulator where
  | a
  | b
  deriving Repr, DecidableEq

namespace Machine

/-- Puts the registers back to their first values and starts the processor at
the address in the reset vector. Memory is left as it is. -/
def reset (m : Machine) : Machine :=
  { registers := { Registers.initial with pc := m.memory.readWord Memory.resetVector }
    memory := m.memory
    state := .running
    steps := 0 }

/-- A processor just attached to a memory. -/
def ofMemory (memory : Memory) : Machine := reset ⟨.initial, memory, .running, 0⟩

def blank : Machine := ofMemory Memory.blank

def isHalted (m : Machine) : Bool := m.state == .halted

/-- The machine as a record, its memory left out. -/
def record (m : Machine) : String :=
  "Computer \x7b registers: " ++ m.registers.record ++ ", state: " ++ m.state.name ++
    ", memory: [...] \x7d"

def halt (m : Machine) : Machine := { m with state := .halted }

def pc (m : Machine) : Address := m.registers.pc

def setPc (m : Machine) (address : Address) : Machine :=
  { m with registers := { m.registers with pc := address } }

/-- The byte at the program counter, and the machine past it. -/
def fetchByte (m : Machine) : Byte × Machine := (m.memory.read m.pc, m.setPc (m.pc + 1))

/-- The word at the program counter, and the machine past it. -/
def fetchWord (m : Machine) : Word × Machine :=
  let (high, m) := m.fetchByte
  let (low, m) := m.fetchByte
  (Word.ofBytes high low, m)

/-- The operand that follows an opcode, and the machine past it. -/
def fetchOperand (m : Machine) (e : Encoding) : Operand × Machine :=
  match e.mode with
  | .inherent => (.inherent, m)
  | .immediate =>
    if e.size = 3 then
      let (value, m) := m.fetchWord
      (.immediate value, m)
    else
      let (value, m) := m.fetchByte
      (.immediate value.toUInt16, m)
  | .direct =>
    let (address, m) := m.fetchByte
    (.direct address, m)
  | .extended =>
    let (address, m) := m.fetchWord
    (.extended address, m)

end Machine

/-- The address an operand points to. A direct address is taken as it is: the
direct page register is not used. -/
def Operand.effectiveAddress? : Operand → Option Address
  | .direct address => some address.toUInt16
  | .extended address => some address
  | .inherent | .immediate _ => none

namespace Machine

def byteOperand (m : Machine) (operand : Operand) : Byte :=
  match operand.effectiveAddress? with
  | some address => m.memory.read address
  | none => Word.low operand.value

def wordOperand (m : Machine) (operand : Operand) : Word :=
  match operand.effectiveAddress? with
  | some address => m.memory.readWord address
  | none => operand.value

def accumulator (m : Machine) : Accumulator → Byte
  | .a => m.registers.a
  | .b => m.registers.b

def setAccumulator (m : Machine) (value : Byte) : Accumulator → Machine
  | .a => { m with registers := { m.registers with a := value } }
  | .b => { m with registers := { m.registers with b := value } }

def setCodes (m : Machine) (cc : ConditionCodes) : Machine :=
  { m with registers := { m.registers with cc := cc } }

/-- Stores a byte where an operand points; nowhere if it points nowhere. -/
def storeByte (m : Machine) (operand : Operand) (value : Byte) : Machine :=
  match operand.effectiveAddress? with
  | some address => { m with memory := m.memory.write address value }
  | none => m

/-- Stores a word where an operand points; nowhere if it points nowhere. -/
def storeWord (m : Machine) (operand : Operand) (value : Word) : Machine :=
  match operand.effectiveAddress? with
  | some address => { m with memory := m.memory.writeWord address value }
  | none => m

/-- Puts a result in an accumulator and sets the zero and negative flags. -/
def putResult (m : Machine) (acc : Accumulator) (result : Byte) : Machine :=
  (m.setAccumulator result acc).setCodes (m.registers.cc.ofByte result)

def load (m : Machine) (acc : Accumulator) (operand : Operand) : Machine :=
  m.putResult acc (m.byteOperand operand)

def loadX (m : Machine) (operand : Operand) : Machine :=
  let value := m.wordOperand operand
  { m with registers := { m.registers with x := value, cc := m.registers.cc.ofWord value } }

/-- Adds; the carry flag says whether the sum passed 255. -/
def add (m : Machine) (acc : Accumulator) (operand : Operand) : Machine :=
  let value := m.byteOperand operand
  let current := m.accumulator acc
  let after := m.putResult acc (current + value)
  after.setCodes (after.registers.cc.assign .carry (255 < current.toNat + value.toNat))

/-- Subtracts; the carry flag says whether a borrow was needed. -/
def subtract (m : Machine) (acc : Accumulator) (operand : Operand) : Machine :=
  let value := m.byteOperand operand
  let current := m.accumulator acc
  let after := m.putResult acc (current - value)
  after.setCodes (after.registers.cc.assign .carry (current < value))

/-- Adds 1, keeping the carry flag. -/
def increment (m : Machine) (acc : Accumulator) : Machine :=
  m.putResult acc (m.accumulator acc + 1)

/-- Subtracts 1, keeping the carry flag. -/
def decrement (m : Machine) (acc : Accumulator) : Machine :=
  m.putResult acc (m.accumulator acc - 1)

/-- Where a branch goes from the machine that has just fetched its operand. -/
def branchTarget (m : Machine) (operand : Operand) : Address :=
  Mc6809.branchTarget m.pc (Word.low operand.value)

/-- Goes to the target of a branch if it is taken. -/
def branch (m : Machine) (mnemonic : Mnemonic) (operand : Operand) (taken : Bool) :
    Trace × Machine :=
  let target := m.branchTarget operand
  (.branched mnemonic target taken, if taken then m.setPc target else m)

/-- Whether a branch is taken under the flags as they are. -/
def takes (m : Machine) : Mnemonic → Bool
  | .beq => m.registers.cc.has .zero
  | .bne => !m.registers.cc.has .zero
  | _ => true

/-- Carries out an instruction whose bytes have all been fetched. -/
def perform (m : Machine) (e : Encoding) (operand : Operand) : Trace × Machine :=
  let executed (after : Machine) := (Trace.executed e.mnemonic operand e.size, after)
  match e.mnemonic with
  | .lda => executed (m.load .a operand)
  | .ldb => executed (m.load .b operand)
  | .ldx => executed (m.loadX operand)
  | .sta => executed (m.storeByte operand m.registers.a)
  | .stb => executed (m.storeByte operand m.registers.b)
  | .stx => executed (m.storeWord operand m.registers.x)
  | .adda => executed (m.add .a operand)
  | .addb => executed (m.add .b operand)
  | .suba => executed (m.subtract .a operand)
  | .subb => executed (m.subtract .b operand)
  | .inca => executed (m.increment .a)
  | .incb => executed (m.increment .b)
  | .deca => executed (m.decrement .a)
  | .decb => executed (m.decrement .b)
  | .bra | .beq | .bne => m.branch e.mnemonic operand (m.takes e.mnemonic)
  | .nop => executed m
  | .stop => (.ended, m.halt)

/-- Executes the instruction whose opcode has just been fetched. -/
def execute (m : Machine) (e : Encoding) : Trace × Machine :=
  let (operand, m) := m.fetchOperand e
  m.perform e operand

/-- Executes the next instruction, and says what it did. -/
def step (m : Machine) : Trace × Machine :=
  if m.isHalted then (.halted, m)
  else
    let (opcode, fetched) := m.fetchByte
    let (trace, after) :=
      match Encoding.decode? opcode with
      | some e => fetched.execute e
      | none => (.invalidOpcode opcode, fetched.halt)
    (trace, { after with steps := after.steps + 1 })

def iterate : (n : Nat) → Machine → Machine
  | 0, m => m
  | n + 1, m => iterate n m.step.2

/-- Steps until the processor is halted, and counts the steps. There is no
answer if `fuel` steps are not enough for that. -/
def run (fuel : Nat) (m : Machine) : Option (Nat × Machine) :=
  if m.isHalted then some (0, m)
  else
    match fuel with
    | 0 => none
    | fuel + 1 => (run fuel m.step.2).map fun (count, final) => (count + 1, final)

theorem step_of_isHalted {m : Machine} (h : m.isHalted = true) : m.step = (.halted, m) := by
  simp [step, h]

end Machine

end Mc6809
