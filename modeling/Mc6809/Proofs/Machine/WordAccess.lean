/-
Words in memory, cell by cell. A word store is two byte stores, each of which
finds out by itself whether its cell is in RAM, and the address of the second
one wraps. So at the two borders between the regions half a word is kept
(`toNat_read_writeWord`), and everywhere else it is the whole word or nothing.

Each region is as large as the part of the address space that is sent to it:
what is read or stored is always a cell of it, and never past its end.
-/
import Mc6809.Proofs.Machine.Memory

namespace Mc6809

namespace Memory

/-- A word store reaches two cells, as far as they are in RAM. -/
theorem toNat_read_writeWord (m : Memory) (address : Address) (value : Word) (other : Address) :
    ((m.writeWord address value).read other).toNat =
      if other = address ∧ other.toNat < 0x8000 then value.toNat / 256
      else if other = address + 1 ∧ other.toNat < 0x8000 then value.toNat % 256
      else (m.read other).toNat := by
  rw [writeWord, toNat_read_write, toNat_read_write, Word.toNat_high, Word.toNat_low]
  by_cases hram : other.toNat < 0x8000
  · simp only [hram, and_true, if_true]
    by_cases hhigh : other = address
    · have hlow : other ≠ address + 1 := hhigh ▸ ne_next address
      rw [if_neg hlow, if_pos hhigh, if_pos hhigh]
    · rw [if_neg hhigh, if_neg hhigh]
  · simp only [hram, and_false, if_false]

/-- Where both cells are in RAM, the word that is stored is read again. -/
theorem readWord_writeWord (m : Memory) {address : Address} (h : address.toNat ≤ 0x7FFE) (value : Word) :
    (m.writeWord address value).readWord address = value := by
  have hnext : (address + 1).toNat = address.toNat + 1 := by
    rw [UInt16.toNat_add, UInt16.toNat_one]
    omega
  have hhigh := m.toNat_read_writeWord address value address
  rw [if_pos ⟨rfl, by omega⟩] at hhigh
  have hlow := m.toNat_read_writeWord address value (address + 1)
  rw [if_neg fun hsame => ne_next address hsame.1.symm, if_pos ⟨rfl, by omega⟩] at hlow
  apply UInt16.toNat_inj.1
  rw [toNat_readWord, hhigh, hlow]
  exact Nat.div_add_mod value.toNat 256

/-- Where both cells are in ROM, nothing changes. -/
theorem writeWord_of_rom (m : Memory) {address : Address} (h : 0x8000 ≤ address.toNat)
    (hlast : address ≠ 0xFFFF) (value : Word) : m.writeWord address value = m := by
  have hnext : 0x8000 ≤ (address + 1).toNat := by
    have hlt := address.toNat_lt
    have hne : address.toNat ≠ 0xFFFF := fun heq => hlast (UInt16.toNat_inj.1 heq)
    rw [UInt16.toNat_add, UInt16.toNat_one]
    omega
  rw [writeWord, read_write_rom _ (inRom_iff.2 h), read_write_rom _ (inRom_iff.2 hnext)]

/-! ## Inside the regions -/

/-- An address below the ROM is the offset of a cell of the RAM. -/
theorem getElem?_ram (m : Memory) {address : Address} (h : address.toNat < 0x8000) :
    m.ram.cells[address.toNat]? = some (m.read address) := by
  rw [read, inRom_eq_false_iff.2 h, if_neg Bool.false_ne_true, Ram.read, Vector.getElem?_eq_getElem h,
    Option.getD_some]

/-- Any other address is that of a cell of the ROM, counted from its start. -/
theorem getElem?_rom (m : Memory) {address : Address} (h : 0x8000 ≤ address.toNat) :
    m.rom.cells[(address - romStart).toNat]? = some (m.read address) := by
  have hlt := address.toNat_lt
  have hstart : romStart.toNat = 0x8000 := rfl
  have hle : romStart ≤ address := UInt16.le_iff_toNat_le.2 (by rwa [hstart])
  have hoffset : (address - romStart).toNat < 0x8000 := by
    rw [UInt16.toNat_sub_of_le _ _ hle, hstart]
    omega
  rw [read, inRom_iff.2 h, if_pos rfl, Rom.read, Vector.getElem?_eq_getElem hoffset, Option.getD_some]

theorem write_eq_set (m : Memory) {address : Address} (h : address.toNat < 0x8000) (value : Byte) :
    m.write address value = { m with ram := ⟨m.ram.cells.set address.toNat value h⟩ } := by
  have hcells : m.ram.cells.setIfInBounds address.toNat value = m.ram.cells.set address.toNat value h := by
    apply Vector.ext
    intro i hi
    rw [Vector.getElem_setIfInBounds, Vector.getElem_set]
  rw [write, inRom_eq_false_iff.2 h, if_neg Bool.false_ne_true, Ram.write, hcells]

/-- What words in a memory are, and what storing one does to its cells. -/
structure KeepsWords (m : Memory) : Prop where
  store : ∀ address value other, ((m.writeWord address value).read other).toNat =
    if other = address ∧ other.toNat < 0x8000 then value.toNat / 256
    else if other = address + 1 ∧ other.toNat < 0x8000 then value.toNat % 256
    else (m.read other).toNat
  /-- A word that is read is the two bytes that are there then. -/
  load : ∀ address value place, ((m.writeWord address value).readWord place).toNat =
    256 * ((m.writeWord address value).read place).toNat +
      ((m.writeWord address value).read (place + 1)).toNat
  whole : ∀ address value, address.toNat ≤ 0x7FFE → (m.writeWord address value).readWord address = value
  /-- Of a word at the last cell of the RAM the high byte is kept. -/
  lastRam : ∀ value other, ((m.writeWord 0x7FFF value).read other).toNat =
    if other = 0x7FFF then value.toNat / 256 else (m.read other).toNat
  /-- Of a word at the last address the low byte is kept, in the first cell. -/
  lastRom : ∀ value other, ((m.writeWord 0xFFFF value).read other).toNat =
    if other = 0x0000 then value.toNat % 256 else (m.read other).toNat
  rom : ∀ address value, 0x8000 ≤ address.toNat → address ≠ 0xFFFF → m.writeWord address value = m
  /-- Every access is to a cell of a region, none goes past its end. -/
  ramCell : ∀ address, address.toNat < 0x8000 → m.ram.cells[address.toNat]? = some (m.read address)
  romCell : ∀ address, 0x8000 ≤ address.toNat →
    m.rom.cells[(address - romStart).toNat]? = some (m.read address)
  ramStore : ∀ address value, (h : address.toNat < 0x8000) →
    m.write address value = { m with ram := ⟨m.ram.cells.set address.toNat value h⟩ }

/-- **Word access.** -/
theorem keeps_words (m : Memory) : m.KeepsWords where
  store := m.toNat_read_writeWord
  load := fun _ _ _ => toNat_readWord _ _
  whole := fun _ value h => m.readWord_writeWord h value
  lastRam := fun value other => by
    rw [toNat_read_writeWord]
    by_cases hhigh : other = 0x7FFF
    · rw [if_pos ⟨hhigh, by rw [hhigh]; decide⟩, if_pos hhigh]
    · have hlow : ¬ (other = 0x7FFF + 1 ∧ other.toNat < 0x8000) := by
        rintro ⟨rfl, hram⟩
        exact absurd hram (by decide)
      rw [if_neg fun h => hhigh h.1, if_neg hlow, if_neg hhigh]
  lastRom := fun value other => by
    have hnext : (0xFFFF : Address) + 1 = 0x0000 := rfl
    rw [toNat_read_writeWord, hnext]
    have hhigh : ¬ (other = 0xFFFF ∧ other.toNat < 0x8000) := by
      rintro ⟨rfl, hram⟩
      exact absurd hram (by decide)
    rw [if_neg hhigh]
    by_cases hlow : other = 0x0000
    · rw [if_pos ⟨hlow, by rw [hlow]; decide⟩, if_pos hlow]
    · rw [if_neg fun h => hlow h.1, if_neg hlow]
  rom := fun _ value h hlast => m.writeWord_of_rom h hlast value
  ramCell := fun _ => m.getElem?_ram
  romCell := fun _ => m.getElem?_rom
  ramStore := fun _ value h => m.write_eq_set h value

end Memory

end Mc6809
