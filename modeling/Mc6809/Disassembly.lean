/-
An instruction read back from memory. An opcode that no instruction has is
shown as a constant byte. A branch is shown with the address it goes to, so
its text is not the one it was assembled from.
-/
import Mc6809.Memory
import Mc6809.Operand

namespace Mc6809

/-- The bytes at an address, and what their opcode stands for. -/
structure Disassembly where
  address : Address
  bytes : List Byte
  encoding? : Option Encoding
  deriving Repr, DecidableEq

namespace Disassembly

def size (d : Disassembly) : Nat := d.bytes.length

/-- The bytes after the opcode as one number, of which the last 16 bits count. -/
def operandValue (d : Disassembly) : Word :=
  d.bytes.tail.foldl (fun value b => value * 256 + b.toUInt16) 0

def operand (d : Disassembly) : Mode → Operand
  | .inherent => .inherent
  | .immediate => .immediate d.operandValue
  | .direct => .direct (Word.low d.operandValue)
  | .extended => .extended d.operandValue

/-- Where a branch goes: its offset is the byte after the opcode, 0 if that
byte is missing. -/
def target (d : Disassembly) (e : Encoding) : Address :=
  branchTarget (d.address + e.size.toUInt16) (d.bytes[1]?.getD 0)

/-- The instruction in assembly source, a branch with its target. -/
def text (d : Disassembly) : String :=
  match d.encoding? with
  | none => "FCB $" ++ Byte.hex (d.bytes.headD 0)
  | some e =>
    if e.mnemonic.isBranch then e.mnemonic.name ++ " $" ++ Word.hex (d.target e)
    else instructionText e.mnemonic.name (d.operand e.mode) e.size

end Disassembly

namespace Memory

def disassemble (m : Memory) (address : Address) : Disassembly :=
  let encoding? := Encoding.decode? (m.read address)
  { address, encoding?, bytes := m.dump address ((encoding?.map (·.size)).getD 1) }

/-- The `count` instructions stored one after the other from `address` on. -/
def disassembleRun (m : Memory) (address : Address) : (count : Nat) → List Disassembly
  | 0 => []
  | count + 1 =>
    let d := m.disassemble address
    d :: m.disassembleRun (address + d.size.toUInt16) count

/-- The address after the `count` instructions stored from `address` on. -/
def addressAfter (m : Memory) (address : Address) : (count : Nat) → Address
  | 0 => address
  | count + 1 => m.addressAfter (address + (m.disassemble address).size.toUInt16) count

end Memory

end Mc6809
