/-
The encoding table: which opcode stands for which mnemonic in which addressing
mode, and how many bytes the instruction takes. It is the only such list; the
assembler, the processor and the disassembler all look instructions up here.

The table has no opcode twice and no pair of mnemonic and mode twice, so
`of?` and `decode?` undo each other (`decode?_opcode`, `of?_mnemonic_mode`).
-/
import Mc6809.Word
import Mc6809.Mnemonic

namespace Mc6809

/-- How the operand of an instruction is to be taken. -/
inductive Mode where
  /-- There is no operand. -/
  | inherent
  /-- The operand is the value itself. -/
  | immediate
  /-- The operand is an 8-bit address, or the offset of a branch. -/
  | direct
  /-- The operand is a 16-bit address. -/
  | extended
  deriving Repr, DecidableEq

namespace Mode

/-- The bytes of an instruction in this mode, opcode included. -/
def size : Mode → Nat
  | inherent => 1
  | immediate | direct => 2
  | extended => 3

def name : Mode → String
  | inherent => "INHERENT"
  | immediate => "IMMEDIATE"
  | direct => "DIRECT"
  | extended => "EXTENDED"

end Mode

/-- One entry of the encoding table. -/
structure Encoding where
  opcode : Byte
  mnemonic : Mnemonic
  mode : Mode
  /-- The bytes of the instruction, opcode included. -/
  size : Nat
  deriving Repr, DecidableEq

namespace Encoding

/-- The opcode of the end of a program. It also stands in for an instruction
that has no encoding. -/
def sentinel : Byte := 0x00

/-- An entry whose size is the usual one of its mode. -/
private def entry (opcode : Byte) (mnemonic : Mnemonic) (mode : Mode) : Encoding :=
  ⟨opcode, mnemonic, mode, mode.size⟩

/-- All encodings. `LDX` takes its immediate operand as a whole word, so that
entry is one byte longer than the other immediate ones. -/
def table : List Encoding :=
  [ entry 0x86 .lda .immediate, entry 0x96 .lda .direct, entry 0xB6 .lda .extended,
    entry 0xC6 .ldb .immediate, entry 0xD6 .ldb .direct, entry 0xF6 .ldb .extended,
    ⟨0x8E, .ldx, .immediate, 3⟩, entry 0x9E .ldx .direct, entry 0xBE .ldx .extended,
    entry 0x97 .sta .direct, entry 0xB7 .sta .extended,
    entry 0xD7 .stb .direct, entry 0xF7 .stb .extended,
    entry 0x9F .stx .direct, entry 0xBF .stx .extended,
    entry 0x8B .adda .immediate, entry 0x9B .adda .direct, entry 0xBB .adda .extended,
    entry 0xCB .addb .immediate, entry 0xDB .addb .direct, entry 0xFB .addb .extended,
    entry 0x80 .suba .immediate, entry 0x90 .suba .direct, entry 0xB0 .suba .extended,
    entry 0xC0 .subb .immediate, entry 0xD0 .subb .direct, entry 0xF0 .subb .extended,
    entry 0x4C .inca .inherent, entry 0x5C .incb .inherent,
    entry 0x4A .deca .inherent, entry 0x5A .decb .inherent,
    entry 0x20 .bra .direct, entry 0x27 .beq .direct, entry 0x26 .bne .direct,
    entry 0x12 .nop .inherent, entry sentinel .stop .inherent ]

/-- The encoding of a mnemonic in a mode. -/
def of? (mnemonic : Mnemonic) (mode : Mode) : Option Encoding :=
  table.find? fun e => e.mnemonic == mnemonic && e.mode == mode

/-- The encoding that an opcode stands for. -/
def decode? (opcode : Byte) : Option Encoding := table.find? (·.opcode == opcode)

/-- The bytes that follow the opcode. -/
def operandSize (e : Encoding) : Nat := e.size - 1

theorem mem_of_decode? {opcode : Byte} {e : Encoding} (h : decode? opcode = some e) :
    e ∈ table ∧ e.opcode = opcode :=
  ⟨List.mem_of_find?_eq_some h, by simpa using List.find?_some h⟩

theorem mem_of_of? {mnemonic : Mnemonic} {mode : Mode} {e : Encoding}
    (h : of? mnemonic mode = some e) :
    e ∈ table ∧ e.mnemonic = mnemonic ∧ e.mode = mode :=
  ⟨List.mem_of_find?_eq_some h, by simpa using List.find?_some h⟩

theorem decode?_opcode {e : Encoding} (h : e ∈ table) : decode? e.opcode = some e := by
  have key : ∀ e ∈ table, decode? e.opcode = some e := by decide
  exact key e h

theorem of?_mnemonic_mode {e : Encoding} (h : e ∈ table) : of? e.mnemonic e.mode = some e := by
  have key : ∀ e ∈ table, of? e.mnemonic e.mode = some e := by decide
  exact key e h

/-- An encoding takes the bytes its mode asks for, `LDX #` apart. -/
theorem size_eq {e : Encoding} (h : e ∈ table) :
    e.size = if e.mnemonic = .ldx ∧ e.mode = .immediate then 3 else e.mode.size := by
  have key : ∀ e ∈ table,
      e.size = if e.mnemonic = .ldx ∧ e.mode = .immediate then 3 else e.mode.size := by decide
  exact key e h

end Encoding

end Mc6809
