/-
The register file. `D` is no register of its own but the pair of accumulators.
The condition codes are one byte, of which the subset computes three flags.
-/
import Mc6809.Digits

namespace Mc6809

inductive Flag where
  | entireState
  | firqMask
  | halfCarry
  | irqMask
  | negative
  | zero
  | overflow
  | carry
  deriving Repr, DecidableEq

namespace Flag

/-- All flags, from bit 7 down. -/
def all : List Flag :=
  [entireState, firqMask, halfCarry, irqMask, negative, zero, overflow, carry]

def mask : Flag → Byte
  | entireState => 0x80
  | firqMask => 0x40
  | halfCarry => 0x20
  | irqMask => 0x10
  | negative => 0x08
  | zero => 0x04
  | overflow => 0x02
  | carry => 0x01

def letter : Flag → Char
  | entireState => 'E'
  | firqMask => 'F'
  | halfCarry => 'H'
  | irqMask => 'I'
  | negative => 'N'
  | zero => 'Z'
  | overflow => 'V'
  | carry => 'C'

end Flag

structure ConditionCodes where
  bits : Byte
  deriving Repr, DecidableEq

namespace ConditionCodes

/-- After a reset only the interrupt mask is set. -/
def initial : ConditionCodes := ⟨0x10⟩

def has (cc : ConditionCodes) (flag : Flag) : Bool := cc.bits &&& flag.mask != 0

def assign (cc : ConditionCodes) (flag : Flag) (on : Bool) : ConditionCodes :=
  ⟨if on then cc.bits ||| flag.mask else cc.bits &&& ~~~flag.mask⟩

/-- Sets the zero and negative flags from an 8-bit result. -/
def ofByte (cc : ConditionCodes) (result : Byte) : ConditionCodes :=
  (cc.assign .zero (result == 0)).assign .negative (result &&& 0x80 != 0)

/-- Sets the zero and negative flags from a 16-bit result. -/
def ofWord (cc : ConditionCodes) (result : Word) : ConditionCodes :=
  (cc.assign .zero (result == 0)).assign .negative (result &&& 0x8000 != 0)

/-- The letters of the flags that are set, with a dash for each that is clear. -/
def text (cc : ConditionCodes) : String :=
  String.ofList (Flag.all.map fun flag => if cc.has flag then flag.letter else '-')

/-- The register as a binary number. -/
def binary (cc : ConditionCodes) : String := "0b" ++ cc.bits.binary

end ConditionCodes

structure Registers where
  a : Byte
  b : Byte
  dp : Byte
  cc : ConditionCodes
  x : Word
  y : Word
  s : Word
  u : Word
  pc : Address
  deriving Repr, DecidableEq

inductive Register where
  | a | b | d | dp | cc | x | y | s | u | pc
  deriving Repr, DecidableEq

namespace Register

def all : List Register := [a, b, d, dp, cc, x, y, s, u, pc]

def name : Register → String
  | a => "A" | b => "B" | d => "D" | dp => "DP" | cc => "CC"
  | x => "X" | y => "Y" | s => "S" | u => "U" | pc => "PC"

/-- The number of bits. -/
def width : Register → Nat
  | a | b | dp | cc => 8
  | d | x | y | s | u | pc => 16

/-- The register of a name in any case. ASCII case is enough: no other
character has one of these letters as its lower case form. -/
def ofName? (text : String) : Option Register :=
  all.find? (·.name.toList == text.toList.map Char.toUpper)

/-- What is said of a name that no register has. -/
def unknownMessage : String := "could not parse register"

end Register

namespace Registers

/-- All registers after a reset, the program counter apart: zero, with only the
interrupt mask set. -/
def initial : Registers := ⟨0, 0, 0, .initial, 0, 0, 0, 0, 0⟩

/-- The accumulators as one word, A in its high half. -/
def d (r : Registers) : Word := Word.ofBytes r.a r.b

def setD (r : Registers) (value : Word) : Registers :=
  { r with a := Word.high value, b := Word.low value }

/-- The contents of a register as a word. -/
def get (r : Registers) : Register → Word
  | .a => r.a.toUInt16
  | .b => r.b.toUInt16
  | .d => r.d
  | .dp => r.dp.toUInt16
  | .cc => r.cc.bits.toUInt16
  | .x => r.x
  | .y => r.y
  | .s => r.s
  | .u => r.u
  | .pc => r.pc

def text (r : Registers) : String :=
  "A = $" ++ Byte.hex r.a ++ " | B = $" ++ Byte.hex r.b ++ " | DP = $" ++ Byte.hex r.dp ++
    " | CC = " ++ r.cc.text ++ " | X = $" ++ Word.hex r.x ++ " | Y = $" ++ Word.hex r.y ++
    " | S = $" ++ Word.hex r.s ++ " | U = $" ++ Word.hex r.u ++ " | PC = $" ++ Word.hex r.pc

/-- All registers as a record with decimal fields. -/
def record (r : Registers) : String :=
  "Registers \x7b a: " ++ toString r.a ++ ", b: " ++ toString r.b ++ ", dp: " ++ toString r.dp ++
    ", cc: " ++ r.cc.binary ++ ", x: " ++ toString r.x ++ ", y: " ++ toString r.y ++
    ", s: " ++ toString r.s ++ ", u: " ++ toString r.u ++ ", pc: " ++ toString r.pc ++ " \x7d"

@[simp] theorem d_setD (r : Registers) (value : Word) : (r.setD value).d = value := by
  simp [d, setD]

end Registers

end Mc6809
