/-
A program in memory. Loading writes the bytes of the program from its start on
(`load_eq`); when it fits in RAM they are found there again, followed by the
zero byte that ends it (`loaded_ofProgram`). It stays so under every change
that spares these cells (`Loaded.frame`).
-/
import Mc6809.Loader
import Mc6809.Proofs.Machine.Memory
import Mc6809.Proofs.Program.Layout

namespace Mc6809

namespace Memory

/-- The bytes stand in memory from an address on. -/
def At (m : Memory) (address : Address) : List Byte → Prop
  | [] => True
  | b :: rest => m.read address = b ∧ m.At (address + 1) rest

theorem add_next (address : Address) (n : Nat) :
    address + 1 + UInt16.ofNat n = address + UInt16.ofNat (n + 1) := by
  rw [UInt16.ofNat_add, UInt16.add_assoc, UInt16.add_comm 1]
  rfl

theorem at_append {m : Memory} {address : Address} {xs ys : List Byte} :
    m.At address (xs ++ ys) ↔ m.At address xs ∧ m.At (address + UInt16.ofNat xs.length) ys := by
  induction xs generalizing address with
  | nil => simp [At]
  | cons x xs ih => rw [List.cons_append, At, At, ih, add_next, List.length_cons, and_assoc]

/-- Bytes stay where their cells keep what they hold. -/
theorem At.frame {m m' : Memory} {address : Address} {bytes : List Byte} (h : m.At address bytes)
    (hsame : ∀ i < bytes.length, m'.read (address + UInt16.ofNat i) = m.read (address + UInt16.ofNat i)) :
    m'.At address bytes := by
  induction bytes generalizing address with
  | nil => trivial
  | cons b rest ih =>
    have hfirst : m'.read address = m.read address := by simpa using hsame 0 (by simp)
    refine ⟨hfirst.trans h.1, ih h.2 fun i hi => ?_⟩
    rw [add_next]
    exact hsame (i + 1) (by simpa using hi)

theorem writeBytes_append (m : Memory) (address : Address) (xs ys : List Byte) :
    m.writeBytes address (xs ++ ys) =
      (m.writeBytes address xs).writeBytes (address + UInt16.ofNat xs.length) ys := by
  induction xs generalizing m address with
  | nil => simp [writeBytes]
  | cons x xs ih => rw [List.cons_append, writeBytes, writeBytes, ih, add_next, List.length_cons]

theorem toNat_next {address : Address} (h : address.toNat < 0x8000) :
    (address + 1).toNat = address.toNat + 1 := by
  rw [UInt16.toNat_add]
  simp only [UInt16.reduceToNat]
  omega

/-- Bytes written to RAM change no cell outside them. -/
theorem read_writeBytes_outside (m : Memory) {address other : Address} {bytes : List Byte}
    (hram : address.toNat + bytes.length ≤ 0x8000)
    (ho : other.toNat < address.toNat ∨ address.toNat + bytes.length ≤ other.toNat) :
    (m.writeBytes address bytes).read other = m.read other := by
  induction bytes generalizing m address with
  | nil => rfl
  | cons b rest ih =>
    rw [List.length_cons] at hram ho
    have hnext : (address + 1).toNat = address.toNat + 1 := toNat_next (by omega)
    rw [writeBytes, ih _ (by omega) (by omega), read_write, if_neg]
    intro h
    obtain ⟨rfl, -⟩ := h
    omega

theorem at_writeBytes (m : Memory) {address : Address} {bytes : List Byte}
    (hram : address.toNat + bytes.length ≤ 0x8000) : (m.writeBytes address bytes).At address bytes := by
  induction bytes generalizing m address with
  | nil => trivial
  | cons b rest ih =>
    rw [List.length_cons] at hram
    have hlt : address.toNat < 0x8000 := by omega
    have hnext := toNat_next hlt
    refine ⟨?_, ih _ (by omega)⟩
    rw [writeBytes, read_writeBytes_outside _ (by omega) (by omega), read_write,
      if_pos ⟨rfl, inRom_eq_false_iff.2 hlt⟩]

theorem read_blank_ram {address : Address} (h : address.toNat < 0x8000) : blank.read address = 0 := by
  rw [read, inRom_eq_false_iff.2 h, if_neg (by decide)]
  exact Ram.read_blank _

/-- The reset vector of blank memory points at the start of programs. -/
theorem read_blank_resetVector :
    blank.read resetVector = 0 ∧ blank.read (resetVector + 1) = 0 := by
  have hhigh : resetVector = UInt16.ofNat (0x8000 + 0x7FFE) := rfl
  have hlow : resetVector + 1 = UInt16.ofNat (0x8000 + 0x7FFF) := rfl
  constructor
  · rw [hhigh, read_rom _ (by omega)]
    exact Rom.read_programmed 0 (by decide)
  · rw [hlow, read_rom _ (by omega)]
    exact Rom.read_programmed 0 (by decide)

/-! ## Loading -/

theorem foldl_layoutFrom (m : Memory) (address : Address) (is : List Instruction) :
    (Program.layoutFrom address is).foldl (fun m (address, i) => m.writeBytes address i.bytes) m =
      m.writeBytes address (is.flatMap Instruction.bytes) := by
  induction is generalizing m address with
  | nil => rfl
  | cons i is ih =>
    rw [Program.layoutFrom, List.foldl_cons, ih, List.flatMap_cons, writeBytes_append,
      Instruction.length_bytes]

theorem load_eq (m : Memory) (p : Program) : m.load p = m.writeBytes programStart p.bytes :=
  foldl_layoutFrom m programStart p.instructions

/-- A program that fits in RAM, to its last cell even, stands there once it is loaded. -/
theorem at_load (m : Memory) {p : Program} (hfits : p.size ≤ 0x8000) :
    (m.load p).At programStart p.bytes := by
  have hstart : programStart.toNat = 0 := rfl
  have hlength := p.length_bytes
  rw [load_eq]
  exact m.at_writeBytes (by omega)

end Memory

namespace Program

/-- The program stands in memory, and a zero byte after it. -/
def Loaded (p : Program) (m : Memory) : Prop := m.At programStart (p.bytes ++ [Encoding.sentinel])

/-- A program stays loaded while its own cells and the one after it are spared. -/
theorem Loaded.frame {p : Program} {m m' : Memory} (h : p.Loaded m)
    (hsame : ∀ address, address.toNat ≤ p.size → m'.read address = m.read address) : p.Loaded m' := by
  refine Memory.At.frame h fun i hi => hsame _ ?_
  rw [List.length_append, length_bytes, List.length_singleton] at hi
  rw [programStart, UInt16.zero_add, UInt16.toNat_ofNat']
  have := Nat.mod_le i (2 ^ 16)
  omega

/-- Where the bytes of a program stand, those of an instruction stand at its place. -/
theorem at_instruction {p : Program} {m : Memory} (h : m.At programStart p.bytes) {k : Nat}
    (hk : k < p.instructions.length) : m.At (UInt16.ofNat (p.offset k)) p.instructions[k].bytes := by
  obtain ⟨before, after, hbytes, hlen⟩ := p.bytes_eq_append hk
  rw [hbytes, List.append_assoc, Memory.at_append, Memory.at_append, hlen, programStart,
    UInt16.zero_add] at h
  exact h.2.1

/-- The bytes of an instruction of a loaded program, at its place. -/
theorem Loaded.instruction {p : Program} {m : Memory} (h : p.Loaded m) {k : Nat}
    (hk : k < p.instructions.length) : m.At (UInt16.ofNat (p.offset k)) p.instructions[k].bytes :=
  at_instruction (Memory.at_append.1 h).1 hk

theorem Loaded.last {p : Program} {m : Memory} (h : p.Loaded m) :
    m.read (UInt16.ofNat p.size) = Encoding.sentinel := by
  have h := (Memory.at_append.1 h).2
  rw [length_bytes, programStart, UInt16.zero_add] at h
  exact h.1

theorem ofProgram_memory (p : Program) :
    (Machine.ofProgram p).memory = Memory.blank.writeBytes programStart p.bytes :=
  Memory.load_eq _ _

theorem at_ofProgram {p : Program} (hfits : p.size ≤ 0x8000) :
    (Machine.ofProgram p).memory.At programStart p.bytes := Memory.blank.at_load hfits

/-- Past a program that fits, the RAM is as it was at power-on. -/
theorem read_ofProgram_past {p : Program} {address : Address} (hpast : p.size ≤ address.toNat)
    (hram : address.toNat < 0x8000) : (Machine.ofProgram p).memory.read address = 0 := by
  have hstart : programStart.toNat = 0 := rfl
  have hlength := p.length_bytes
  rw [ofProgram_memory, Memory.read_writeBytes_outside _ (by omega) (by omega),
    Memory.read_blank_ram hram]

theorem loaded_ofProgram {p : Program} (hsize : p.size < 0x8000) :
    p.Loaded (Machine.ofProgram p).memory := by
  have hlast : (programStart + UInt16.ofNat p.bytes.length).toNat = p.size := by
    rw [programStart, UInt16.zero_add, p.length_bytes, UInt16.toNat_ofNat']
    omega
  rw [Loaded, Memory.at_append]
  exact ⟨at_ofProgram (Nat.le_of_lt hsize), read_ofProgram_past (by omega) (by omega), trivial⟩

/-- A machine made for a program starts at the first byte of it. -/
theorem ofProgram_pc {p : Program} (hsize : p.size < 0x8000) :
    (Machine.ofProgram p).pc = programStart := by
  have hpc : (Machine.ofProgram p).pc = (Machine.ofProgram p).memory.readWord Memory.resetVector := rfl
  have hstart : programStart.toNat = 0 := rfl
  have hhigh : Memory.resetVector.toNat = 0xFFFE := rfl
  have hlow : (Memory.resetVector + 1).toNat = 0xFFFF := rfl
  have hlength := p.length_bytes
  rw [hpc, ofProgram_memory, Memory.readWord, Memory.read_writeBytes_outside _ (by omega) (by omega),
    Memory.read_writeBytes_outside _ (by omega) (by omega), Memory.read_blank_resetVector.1,
    Memory.read_blank_resetVector.2]
  rfl

end Program

end Mc6809
