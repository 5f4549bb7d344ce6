/-
Where the bytes of a program end up when it is loaded. Addresses wrap at 2^16,
so a program longer than the address space comes round to cells that it has
written before. A cell of RAM holds the last byte that was addressed to it
(`read_writeBytes_last`); a cell that no byte was addressed to keeps what it
held, and so does every cell of the ROM (`read_writeBytes_of_spared`).

The warning that a program does not fit counts sizes (`overflowWarned_iff`),
while the loader goes by bytes (`addresses_iff`); they agree on which programs
leave the RAM.
-/
import Mathlib.Order.Bounds.Defs
import Mc6809.Machine.Event
import Mc6809.Proofs.Disassembly.RoundTrip

namespace Mc6809

namespace Memory

variable {start address : Address} {bytes : List Byte}

/-- A cell keeps what it holds if no byte is addressed to it, or if it is in ROM. -/
theorem read_writeBytes_of_spared (m : Memory)
    (h : ∀ k < bytes.length, start + UInt16.ofNat k = address → inRom address = true) :
    (m.writeBytes start bytes).read address = m.read address := by
  induction bytes generalizing m start with
  | nil => rfl
  | cons b rest ih =>
    have hrest : ∀ k < rest.length, start + 1 + UInt16.ofNat k = address → inRom address = true := by
      intro k hk haddress
      rw [add_next] at haddress
      exact h (k + 1) (by simpa using hk) haddress
    have hfirst : ¬ (address = start ∧ inRom start = false) := by
      rintro ⟨rfl, hram⟩
      rw [h 0 (by simp) (by simp)] at hram
      cases hram
    rw [writeBytes, ih _ hrest, read_write, if_neg hfirst]

/-- A cell of RAM holds the last byte that is addressed to it. -/
theorem read_writeBytes_last (m : Memory) {i : Nat} (hram : inRom address = false)
    (hi : i < bytes.length) (haddress : start + UInt16.ofNat i = address)
    (hlast : ∀ k < bytes.length, start + UInt16.ofNat k = address → k ≤ i) :
    (m.writeBytes start bytes).read address = bytes[i] := by
  have hsplit : bytes = bytes.take i ++ bytes[i] :: bytes.drop (i + 1) := by
    rw [← List.drop_eq_getElem_cons hi, List.take_append_drop]
  have hlength : (bytes.take i).length = i := List.length_take_of_le (Nat.le_of_lt hi)
  -- None of the bytes after it comes round to the same cell.
  have hafter : ∀ k < (bytes.drop (i + 1)).length,
      address + 1 + UInt16.ofNat k = address → inRom address = true := by
    intro k hk hround
    rw [List.length_drop] at hk
    have hindex : start + UInt16.ofNat (i + (k + 1)) = address := by
      rw [UInt16.ofNat_add, ← UInt16.add_assoc, haddress, ← add_next]
      exact hround
    have hle := hlast (i + (k + 1)) (by omega) hindex
    omega
  conv => lhs; rw [hsplit]
  rw [writeBytes_append, hlength, haddress, writeBytes, read_writeBytes_of_spared _ hafter, read_write,
    if_pos ⟨rfl, hram⟩]

theorem start_add_eq_iff {k : Nat} :
    programStart + UInt16.ofNat k = address ↔ k % 65536 = address.toNat := by
  rw [programStart, UInt16.zero_add, ← UInt16.toNat_inj, UInt16.toNat_ofNat']

section Load

variable (m : Memory) {p : Program}

theorem read_load_of_spared
    (h : ∀ i < p.size, i % 65536 = address.toNat → 0x8000 ≤ address.toNat) :
    (m.load p).read address = m.read address := by
  rw [load_eq]
  refine m.read_writeBytes_of_spared fun k hk haddress => ?_
  rw [Program.length_bytes] at hk
  exact inRom_iff.2 (h k hk (start_add_eq_iff.1 haddress))

theorem read_load_last {i : Nat} (hram : address.toNat < 0x8000)
    (hi : IsGreatest {i | i < p.size ∧ i % 65536 = address.toNat} i) :
    p.bytes[i]? = some ((m.load p).read address) := by
  obtain ⟨⟨hlt, hmod⟩, hgreatest⟩ := hi
  rw [← p.length_bytes] at hlt
  have hlast : ∀ k < p.bytes.length, programStart + UInt16.ofNat k = address → k ≤ i :=
    fun k hk h => hgreatest ⟨p.length_bytes ▸ hk, start_add_eq_iff.1 h⟩
  rw [load_eq, m.read_writeBytes_last (inRom_eq_false_iff.2 hram) hlt (start_add_eq_iff.2 hmod) hlast]
  exact List.getElem?_eq_getElem hlt

/-- A program that fits is found in memory as it was written. -/
theorem dump_load (hfits : p.size ≤ 0x8000) : (m.load p).dump programStart p.size = p.bytes := by
  rw [← p.length_bytes, (m.at_load hfits).dump]

end Load

end Memory

namespace Program

/-- Loading the program is reported with the warning that it does not fit. -/
def OverflowWarned (p : Program) : Prop :=
  ∃ event ∈ p.loadEvents,
    event.entry.level = .warn ∧ event.entry.message = "Program does not fit in RAM"

/-- Some byte of the program is addressed to a cell: it is the byte at offset
`k` of an instruction that is placed `k` cells before. -/
def Addresses (p : Program) (address : Address) : Prop :=
  ∃ placed ∈ p.layout, ∃ k < placed.2.bytes.length, placed.1 + UInt16.ofNat k = address

/-- The memory after the program was loaded, cell by cell, from the one before. -/
structure Places (p : Program) (before after : Memory) : Prop where
  rom : ∀ address : Address, 0x8000 ≤ address.toNat → after.read address = before.read address
  last : ∀ address : Address, address.toNat < 0x8000 →
    ∀ i, IsGreatest {i | i < p.size ∧ i % 65536 = address.toNat} i →
      p.bytes[i]? = some (after.read address)
  spared : ∀ address : Address, address.toNat < 0x8000 →
    (∀ i < p.size, i % 65536 ≠ address.toNat) → after.read address = before.read address
  fitting : p.size ≤ 0x8000 → after.dump programStart p.size = p.bytes ∧
    ∀ address : Address, p.size ≤ address.toNat → after.read address = before.read address

/-! ## The warning -/

theorem level_writeBytesEvents {address : Address} {bytes : List Byte} :
    ∀ event ∈ Memory.writeBytesEvents address bytes, event.entry.level = .trace := by
  induction bytes generalizing address with
  | nil => exact fun _ h => by cases h
  | cons b rest ih =>
    intro event h
    rcases List.mem_append.1 h with h | h
    · unfold Memory.writeEvents at h
      split at h
      · rw [List.mem_singleton.1 h]
        rfl
      · cases h
    · exact ih event h

/-- The program is warned of if its size is more than that of the RAM. -/
theorem overflowWarned_iff {p : Program} : p.OverflowWarned ↔ 0x8000 < p.size := by
  have hfits : p.fitsInRam = true ↔ p.size ≤ 0x8000 := by
    have hstart : programStart.toNat = 0 := rfl
    rw [fitsInRam, decide_eq_true_eq, loadEnd, hstart, Nat.zero_add]
    rfl
  constructor
  · intro h
    obtain ⟨event, hevent, hlevel, -⟩ := h
    refine Nat.lt_of_not_le fun hle => ?_
    rw [loadEvents, if_pos (hfits.2 hle), List.append_nil, List.mem_append, List.mem_flatMap] at hevent
    rcases hevent with ⟨placed, -, hevent⟩ | hevent
    · rcases List.mem_cons.1 hevent with rfl | hevent
      · cases hlevel
      · rw [level_writeBytesEvents event hevent] at hlevel
        cases hlevel
    · rw [List.mem_singleton.1 hevent] at hlevel
      cases hlevel
  · intro h
    have hnot : ¬ p.fitsInRam = true := fun hle => by
      have := hfits.1 hle
      omega
    refine ⟨.doesNotFit p.loadEnd, ?_, rfl, rfl⟩
    rw [loadEvents, if_neg hnot]
    simp

/-! ## The addresses -/

theorem exists_layoutFrom_iff {start address : Address} {is : List Instruction} :
    (∃ placed ∈ layoutFrom start is, ∃ k < placed.2.size, placed.1 + UInt16.ofNat k = address) ↔
      ∃ j < size ⟨is⟩, start + UInt16.ofNat j = address := by
  induction is generalizing start with
  | nil => simp [layoutFrom, size]
  | cons i is ih =>
    have hsize : size ⟨i :: is⟩ = i.size + size ⟨is⟩ := rfl
    have hnext : ∀ j, start + i.size.toUInt16 + UInt16.ofNat j = start + UInt16.ofNat (i.size + j) :=
      fun j => by rw [UInt16.ofNat_add, UInt16.add_assoc]
    simp only [layoutFrom, List.mem_cons, or_and_right, exists_or, exists_eq_left, ih, hsize,
      hnext]
    constructor
    · rintro (⟨k, hk, h⟩ | ⟨j, hj, h⟩)
      · exact ⟨k, by omega, h⟩
      · exact ⟨i.size + j, by omega, h⟩
    · rintro ⟨j, hj, h⟩
      by_cases hown : j < i.size
      · exact .inl ⟨j, hown, h⟩
      · refine .inr ⟨j - i.size, by omega, ?_⟩
        rwa [Nat.add_sub_cancel' (by omega)]

/-- The bytes of a program are addressed one after the other, from its start. -/
theorem addresses_iff {p : Program} {address : Address} :
    p.Addresses address ↔ ∃ j < p.size, j % 65536 = address.toNat := by
  simp only [Addresses, Instruction.length_bytes]
  rw [layout, exists_layoutFrom_iff]
  exact exists_congr fun j => and_congr_right fun _ => Memory.start_add_eq_iff

/-- A program leaves the RAM when its size is more than that of the RAM. -/
theorem exists_addresses_rom_iff {p : Program} :
    (∃ address, p.Addresses address ∧ 0x8000 ≤ address.toNat) ↔ 0x8000 < p.size := by
  simp only [addresses_iff]
  constructor
  · rintro ⟨address, ⟨j, hj, hmod⟩, hrom⟩
    have := Nat.mod_le j 65536
    omega
  · intro h
    exact ⟨0x8000, ⟨0x8000, h, rfl⟩, Nat.le_refl _⟩

/-! ## Loading -/

/-- **Loading is exact.** Of any program, loaded in any memory, each cell of RAM
holds the last byte addressed to it; nothing else changes. The warning is given
if and only if some byte is addressed outside RAM. -/
theorem load_exact (p : Program) (m : Memory) :
    p.Places m (m.load p) ∧
      (p.OverflowWarned ↔ ∃ address, p.Addresses address ∧ 0x8000 ≤ address.toNat) := by
  refine ⟨⟨?_, ?_, ?_, ?_⟩, overflowWarned_iff.trans exists_addresses_rom_iff.symm⟩
  · exact fun address hrom => m.read_load_of_spared fun _ _ _ => hrom
  · exact fun address hram i hi => m.read_load_last hram hi
  · exact fun address _ hnone => m.read_load_of_spared fun i hi h => absurd h (hnone i hi)
  · intro hfits
    refine ⟨m.dump_load hfits, fun address hpast => m.read_load_of_spared fun i hi h => ?_⟩
    have hsmall : i % 65536 = i := Nat.mod_eq_of_lt (by omega)
    omega

/-- The instruction that does nothing, `n` times. -/
def nops (n : Nat) : Program := ⟨List.replicate n ⟨"NOP", .inherent⟩⟩

theorem size_nops (n : Nat) : (nops n).size = n := by
  induction n with
  | zero => rfl
  | succ n ih =>
    have hsize : (nops (n + 1)).size = 1 + (nops n).size := rfl
    rw [hsize, ih, Nat.add_comm]

theorem bytes_nops (n : Nat) : (nops n).bytes = List.replicate n 0x12 := by
  induction n with
  | zero => rfl
  | succ n ih =>
    have hbytes : (nops (n + 1)).bytes = 0x12 :: (nops n).bytes := rfl
    rw [hbytes, ih, List.replicate_succ]

/-- The same, and then one more instruction. -/
def nopsThenIncrement (n : Nat) : Program := ⟨(nops n).instructions ++ [⟨"INCA", .inherent⟩]⟩

theorem size_nopsThenIncrement (n : Nat) : (nopsThenIncrement n).size = n + 1 := by
  rw [nopsThenIncrement, size_append, size_nops]
  rfl

theorem bytes_nopsThenIncrement (n : Nat) :
    (nopsThenIncrement n).bytes = List.replicate n 0x12 ++ [0x4C] := by
  rw [← bytes_nops, bytes, nopsThenIncrement, List.flatMap_append]
  rfl

/-- Fills the address space and comes round to its first cell. -/
def onceAround : Program := nopsThenIncrement 0x10000

theorem load_onceAround :
    (Memory.blank.load onceAround).read 0x0000 = 0x4C ∧
      (Memory.blank.load onceAround).read 0x0001 = 0x12 ∧
      (Memory.blank.load onceAround).read 0x8000 = 0xFF ∧ onceAround.OverflowWarned := by
  have hsize : onceAround.size = 0x10001 := size_nopsThenIncrement 0x10000
  have hbytes : onceAround.bytes = List.replicate 0x10000 0x12 ++ [0x4C] :=
    bytes_nopsThenIncrement 0x10000
  have hfirst : IsGreatest {i | i < onceAround.size ∧ i % 65536 = 0} 0x10000 :=
    ⟨⟨by omega, rfl⟩, fun i hi => by
      have := hi.1
      omega⟩
  have hsecond : IsGreatest {i | i < onceAround.size ∧ i % 65536 = 1} 1 :=
    ⟨⟨by omega, rfl⟩, fun i hi => by
      have := hi.1
      have : i % 65536 = 1 := hi.2
      omega⟩
  obtain ⟨hplaces, hwarned⟩ := load_exact onceAround Memory.blank
  refine ⟨?_, ?_, ?_, hwarned.2 ⟨0x8000, addresses_iff.2 ⟨0x8000, by omega, rfl⟩, by decide⟩⟩
  · have h := hplaces.last 0x0000 (by decide) _ hfirst
    rw [hbytes, List.getElem?_append_right (Nat.le_of_eq List.length_replicate), List.length_replicate] at h
    exact (Option.some.inj h).symm
  · have h := hplaces.last 0x0001 (by decide) _ hsecond
    rw [hbytes, List.getElem?_append_left (by rw [List.length_replicate]; decide),
      List.getElem?_replicate] at h
    exact (Option.some.inj h).symm
  · rw [hplaces.rom 0x8000 (by decide)]
    have hrom : Memory.blank.rom = Rom.blank := rfl
    rw [Memory.read_blank_rom hrom (by decide), if_neg (by decide)]
    rfl

end Program

end Mc6809
