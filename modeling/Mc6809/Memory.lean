/-
The address space: 32 KiB of RAM from `$0000`, 32 KiB of ROM from `$8000`. A
write to ROM is ignored; the only thing that changes ROM is a reset, which
fills it and programs the reset vector at its very end. Everything that spans
more than one cell wraps from `$FFFF` to `$0000`.

The view of a memory is `read`; `read_write` says what a write does to it.
-/
import Mc6809.Word

namespace Mc6809

structure Ram where
  cells : Vector Byte 0x8000
  deriving DecidableEq

namespace Ram

def size : Nat := 0x8000

/-- RAM at power-on: all zero. -/
def blank : Ram := ⟨Vector.replicate 0x8000 0⟩

/-- The byte at an offset; 0 past the end. -/
def read (ram : Ram) (offset : Nat) : Byte := ram.cells[offset]?.getD 0

/-- Stores a byte. Past the end there is nothing to store it in. -/
def write (ram : Ram) (offset : Nat) (value : Byte) : Ram :=
  ⟨ram.cells.setIfInBounds offset value⟩

/-- The cells that differ from `fill`, with their offsets. -/
def cellsOtherThan (ram : Ram) (fill : Byte) : List (Nat × Byte) :=
  (List.range size).filterMap fun i =>
    if ram.read i = fill then none else some (i, ram.read i)

theorem read_blank (offset : Nat) : blank.read offset = 0 := by
  unfold read blank
  by_cases h : offset < 0x8000 <;> simp [h]

theorem read_write (ram : Ram) {offset : Nat} (h : offset < size) (value : Byte) (other : Nat) :
    (ram.write offset value).read other = if other = offset then value else ram.read other := by
  unfold size at h
  unfold read write
  by_cases ho : other = offset
  · subst ho
    simp [h]
  · simp [ho, Vector.getElem?_setIfInBounds_ne (Ne.symm ho)]

end Ram

structure Rom where
  cells : Vector Byte 0x8000
  deriving DecidableEq

namespace Rom

def size : Nat := 0x8000

/-- What the cells hold that were never programmed. -/
def fill : Byte := 0xFF

/-- The offset of the reset vector, whose low byte follows. -/
def resetVectorOffset : Nat := 0x7FFE

/-- ROM as it is made: unprogrammed but for the reset vector, which points at
`start`. -/
def programmed (start : Address) : Rom :=
  ⟨((Vector.replicate 0x8000 fill).setIfInBounds resetVectorOffset (Word.high start)).setIfInBounds
    (resetVectorOffset + 1) (Word.low start)⟩

/-- ROM whose reset vector points at the place programs are loaded at. -/
def blank : Rom := programmed 0x0000

/-- The byte at an offset; 0 past the end. -/
def read (rom : Rom) (offset : Nat) : Byte := rom.cells[offset]?.getD 0

/-- The cells that differ from `fill`, with their offsets. -/
def cellsOtherThan (rom : Rom) (fill : Byte) : List (Nat × Byte) :=
  (List.range size).filterMap fun i =>
    if rom.read i = fill then none else some (i, rom.read i)

theorem read_programmed (start : Address) {offset : Nat} (h : offset < size) :
    (programmed start).read offset =
      if offset = resetVectorOffset + 1 then Word.low start
      else if offset = resetVectorOffset then Word.high start
      else fill := by
  unfold size at h
  unfold read programmed
  by_cases h₁ : offset = resetVectorOffset + 1
  · subst h₁
    simp [resetVectorOffset]
  · by_cases h₂ : offset = resetVectorOffset
    · subst h₂
      simp [resetVectorOffset]
    · rw [Vector.getElem?_setIfInBounds_ne (Ne.symm h₁), Vector.getElem?_setIfInBounds_ne (Ne.symm h₂)]
      simp [h, h₁, h₂]

end Rom

structure Memory where
  ram : Ram
  rom : Rom
  deriving DecidableEq

namespace Memory

def romStart : Address := 0x8000

/-- The address of the reset vector, high byte first. -/
def resetVector : Address := 0xFFFE

def addressSpace : Nat := Ram.size + Rom.size

/-- Memory at power-on, and after a reset. -/
def blank : Memory := ⟨Ram.blank, Rom.blank⟩

def inRom (address : Address) : Bool := romStart ≤ address

def read (m : Memory) (address : Address) : Byte :=
  if inRom address then m.rom.read (address - romStart).toNat else m.ram.read address.toNat

/-- Stores a byte, unless the address is in ROM. -/
def write (m : Memory) (address : Address) (value : Byte) : Memory :=
  if inRom address then m else { m with ram := m.ram.write address.toNat value }

/-- The word at an address and the one after it. -/
def readWord (m : Memory) (address : Address) : Word :=
  Word.ofBytes (m.read address) (m.read (address + 1))

/-- Stores a word, high byte first. -/
def writeWord (m : Memory) (address : Address) (value : Word) : Memory :=
  (m.write address (Word.high value)).write (address + 1) (Word.low value)

def writeBytes (m : Memory) (address : Address) : List Byte → Memory
  | [] => m
  | b :: rest => (m.write address b).writeBytes (address + 1) rest

/-- The `length` bytes from `start` on. -/
def dump (m : Memory) (start : Address) (length : Nat) : List Byte :=
  (List.range length).map fun i => m.read (start + UInt16.ofNat i)

theorem read_write_rom (m : Memory) {address : Address} (h : inRom address) (value : Byte) :
    m.write address value = m := by
  simp [write, h]

theorem read_write (m : Memory) (address : Address) (value : Byte) (other : Address) :
    (m.write address value).read other =
      if other = address ∧ inRom address = false then value else m.read other := by
  by_cases ha : inRom address
  · simp [write, ha]
  · have hlt : address.toNat < Ram.size := by
      have : address < romStart := UInt16.not_le.1 fun h => ha (decide_eq_true h)
      simpa [UInt16.lt_iff_toNat_lt, romStart, Ram.size] using this
    simp only [write, ha, read]
    by_cases ho : inRom other
    · have : other ≠ address := fun h => ha (h ▸ ho)
      simp [ho, this]
    · simp [ho, Ram.read_write _ hlt, UInt16.toNat_inj]

theorem length_dump (m : Memory) (start : Address) (length : Nat) :
    (m.dump start length).length = length := by simp [dump]

end Memory

end Mc6809
