/-
Instruction operands and the text of an instruction. An operand written as an
address is direct or extended by its value alone, not by its number of digits.
-/
import Mc6809.Digits
import Mc6809.Encoding

namespace Mc6809

/-- An operand together with its addressing mode. -/
inductive Operand where
  | inherent
  | immediate (value : Word)
  | direct (address : Byte)
  | extended (address : Address)
  deriving Repr, DecidableEq

namespace Operand

def mode : Operand → Mode
  | inherent => .inherent
  | immediate _ => .immediate
  | direct _ => .direct
  | extended _ => .extended

/-- The operand as a word; 0 where there is none. -/
def value : Operand → Word
  | inherent => 0
  | immediate v | extended v => v
  | direct a => a.toUInt16

/-- The operand of an address literal: direct up to `$FF`, negative values
included, and extended above. What does not fit is dropped from the left. -/
def address (v : Int) : Operand :=
  if v ≤ 0xFF then direct (UInt8.ofInt v) else extended (UInt16.ofInt v)

/-- The operand of a `#` literal, cut to 16 bits. -/
def ofImmediate (v : Int) : Operand := immediate (UInt16.ofInt v)

/-- The operand in assembly source, after the mnemonic and a space. Immediate
values take four digits in a three-byte instruction and two in a shorter one,
though a value that needs more than two is shown in full. -/
def text (size : Nat) : Operand → String
  | inherent => ""
  | immediate v => if size = 3 then " #$" ++ Word.hex v else " #$" ++ Word.shortHex v
  | direct a => " $" ++ Byte.hex a
  | extended a => " $" ++ Word.hex a

end Operand

/-- An instruction in assembly source; `size` is its encoded size. -/
def instructionText (mnemonic : String) (operand : Operand) (size : Nat) : String :=
  mnemonic ++ operand.text size

end Mc6809
