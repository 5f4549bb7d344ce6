/-
Memory as what is read from it: two memories that read the same everywhere are
the same (`ext_read`), and a store is seen in one cell of RAM or nowhere
(`toNat_read_write`).
-/
import Mc6809.Memory

namespace Mc6809

theorem Ram.ext_read {ram ram' : Ram} (h : ∀ i < Ram.size, ram.read i = ram'.read i) : ram = ram' := by
  obtain ⟨cells⟩ := ram
  obtain ⟨cells'⟩ := ram'
  congr 1
  apply Vector.ext
  intro i hi
  simpa [Ram.read, hi] using h i hi

theorem Rom.ext_read {rom rom' : Rom} (h : ∀ i < Rom.size, rom.read i = rom'.read i) : rom = rom' := by
  obtain ⟨cells⟩ := rom
  obtain ⟨cells'⟩ := rom'
  congr 1
  apply Vector.ext
  intro i hi
  simpa [Rom.read, hi] using h i hi

namespace Memory

theorem inRom_iff {address : Address} : inRom address = true ↔ 0x8000 ≤ address.toNat := by
  rw [inRom, decide_eq_true_eq, UInt16.le_iff_toNat_le]
  rfl

theorem inRom_eq_false_iff {address : Address} : inRom address = false ↔ address.toNat < 0x8000 := by
  rw [← Bool.not_eq_true, inRom_iff, Nat.not_le]

theorem read_ram (m : Memory) {i : Nat} (h : i < 0x8000) :
    m.read (UInt16.ofNat i) = m.ram.read i := by
  have hsize : UInt16.size = 65536 := rfl
  have hi : (UInt16.ofNat i).toNat = i := UInt16.toNat_ofNat_of_lt (by omega)
  rw [read, if_neg (by rw [inRom_iff, hi]; omega), hi]

theorem read_rom (m : Memory) {i : Nat} (h : i < 0x8000) :
    m.read (UInt16.ofNat (0x8000 + i)) = m.rom.read i := by
  have hsize : UInt16.size = 65536 := rfl
  have hstart : romStart.toNat = 0x8000 := rfl
  have hi : (UInt16.ofNat (0x8000 + i)).toNat = 0x8000 + i := UInt16.toNat_ofNat_of_lt (by omega)
  have hle : romStart ≤ UInt16.ofNat (0x8000 + i) := by
    rw [UInt16.le_iff_toNat_le, hstart, hi]
    exact Nat.le_add_right _ _
  rw [read, if_pos (by rw [inRom_iff, hi]; omega), UInt16.toNat_sub_of_le _ _ hle, hi, hstart,
    Nat.add_sub_cancel_left]

/-- ROM that was never changed reads as unprogrammed, but for the reset vector
at its end. -/
theorem read_blank_rom {m : Memory} (hrom : m.rom = Rom.blank) {address : Address}
    (h : 0x8000 ≤ address.toNat) :
    m.read address = if 0xFFFE ≤ address.toNat then 0x00 else Rom.fill := by
  have hlt := address.toNat_lt
  obtain ⟨i, hi⟩ := Nat.exists_eq_add_of_le h
  have haddress : address = UInt16.ofNat (0x8000 + i) := by rw [← hi, UInt16.ofNat_toNat]
  rw [haddress, m.read_rom (by omega), hrom, Rom.blank,
    Rom.read_programmed _ (by unfold Rom.size; omega), ← haddress, hi]
  by_cases hvector : 0xFFFE ≤ 0x8000 + i
  · rw [if_pos hvector]
    split
    · rfl
    next hlow => rw [if_pos (by unfold Rom.resetVectorOffset at hlow ⊢; omega)]; rfl
  · rw [if_neg hvector, if_neg (by unfold Rom.resetVectorOffset; omega),
      if_neg (by unfold Rom.resetVectorOffset; omega)]

/-- A memory is what is read from it. -/
theorem ext_read {m m' : Memory} (h : ∀ address, m.read address = m'.read address) : m = m' := by
  have hram : m.ram = m'.ram := Ram.ext_read fun i hi => by
    rw [← read_ram m hi, ← read_ram m' hi, h]
  have hrom : m.rom = m'.rom := Rom.ext_read fun i hi => by
    rw [← read_rom m hi, ← read_rom m' hi, h]
  cases m
  cases m'
  simp only at hram hrom
  rw [hram, hrom]

/-- A store reaches one cell, and only in RAM. -/
theorem toNat_read_write (m : Memory) (address : Address) (value : Byte) (other : Address) :
    ((m.write address value).read other).toNat =
      if other.toNat < 0x8000 then if other = address then value.toNat else (m.read other).toNat
      else (m.read other).toNat := by
  rw [read_write]
  by_cases ho : other = address
  · subst ho
    simp only [inRom_eq_false_iff, true_and, if_true]
    split <;> rfl
  · simp only [ho, false_and, if_false, ite_self]

theorem ne_next (address : Address) : address ≠ address + 1 := by
  intro h
  have h := congrArg UInt16.toNat h
  have hlt := address.toNat_lt
  rw [UInt16.toNat_add] at h
  simp only [UInt16.reduceToNat] at h
  omega

/-- A word in memory, byte by byte. -/
theorem toNat_readWord (m : Memory) (address : Address) :
    (m.readWord address).toNat = 256 * (m.read address).toNat + (m.read (address + 1)).toNat :=
  Word.toNat_ofBytes _ _

end Memory

end Mc6809
