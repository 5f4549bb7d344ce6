/-
Assembled instructions and programs. An instruction is a name and an operand;
what it encodes to follows from the encoding table. A pair of name and mode
that the table does not have is no error: it encodes as the end-of-program
opcode followed by the operand bytes its mode asks for.

A program has three views: its `bytes`, its `layout` (each instruction with
the address it is loaded at) and its `listing`, which is assembly source again.
-/
import Mc6809.Operand
import Mc6809.Text.Uppercase

namespace Mc6809

structure Instruction where
  /-- The name as written, in upper case. It need not be a known one. -/
  mnemonic : String
  operand : Operand
  deriving Repr, DecidableEq

namespace Instruction

/-- The instruction of a name in any case. -/
def ofName (name : String) (operand : Operand) : Instruction := ⟨Text.upper name, operand⟩

/-- The table entry the instruction is encoded by. -/
def encoding? (i : Instruction) : Option Encoding :=
  (Mnemonic.ofName? i.mnemonic).bind (Encoding.of? · i.operand.mode)

def isKnown (i : Instruction) : Bool := i.encoding?.isSome

def opcode (i : Instruction) : Byte := (i.encoding?.map (·.opcode)).getD Encoding.sentinel

/-- The encoded size in bytes. -/
def size (i : Instruction) : Nat := (i.encoding?.map (·.size)).getD i.operand.mode.size

/-- The opcode, then the operand: both bytes, its low byte or nothing, by size. -/
def bytes (i : Instruction) : List Byte :=
  match i.size with
  | 1 => [i.opcode]
  | 2 => [i.opcode, Word.low i.operand.value]
  | _ => [i.opcode, Word.high i.operand.value, Word.low i.operand.value]

/-- The instruction in assembly source. -/
def text (i : Instruction) : String := instructionText i.mnemonic i.operand i.size

end Instruction

/-- Where a program is loaded and starts. -/
def programStart : Address := 0x0000

structure Program where
  instructions : List Instruction
  deriving Repr, DecidableEq

namespace Program

def isEmpty (p : Program) : Bool := p.instructions.isEmpty

/-- The encoded size in bytes. -/
def size (p : Program) : Nat := p.instructions.foldr (fun i total => i.size + total) 0

def bytes (p : Program) : List Byte := p.instructions.flatMap (·.bytes)

/-- Instructions with their addresses, the first one at `start`. -/
def layoutFrom (start : Address) : List Instruction → List (Address × Instruction)
  | [] => []
  | i :: rest => (start, i) :: layoutFrom (start + i.size.toUInt16) rest

/-- The instructions with the addresses they are loaded at, which wrap at 2^16. -/
def layout (p : Program) : List (Address × Instruction) := layoutFrom programStart p.instructions

/-- The program as assembly source: a line for each instruction, then `END`. -/
def listing (p : Program) : String :=
  String.join (p.instructions.map fun i => i.text ++ "\n") ++ "END"

@[simp] theorem length_layoutFrom (start : Address) (is : List Instruction) :
    (layoutFrom start is).length = is.length := by
  induction is generalizing start with
  | nil => rfl
  | cons i rest ih => simp [layoutFrom, ih]

@[simp] theorem map_snd_layoutFrom (start : Address) (is : List Instruction) :
    (layoutFrom start is).map (·.2) = is := by
  induction is generalizing start with
  | nil => rfl
  | cons i rest ih => simp [layoutFrom, ih]

end Program

end Mc6809
