/-
What a reset finds. Nothing that is done to a machine changes its ROM, the
reset vector in it included (`Reachable.rom`), so every reset starts at the
same place with the same registers, and takes nothing from the machine but its
memory (`reset_of_rom`).
-/
import Mc6809.Proofs.Machine.Reachable
import Mc6809.Proofs.Program.Placement

namespace Mc6809

/-- The ROM reads as at power-on: unprogrammed, but for a reset vector of zero. -/
structure Memory.HasPowerOnRom (m : Memory) : Prop where
  fill : ∀ address : Address, 0x8000 ≤ address.toNat → address.toNat ≤ 0xFFFD → m.read address = 0xFF
  vector : m.read 0xFFFE = 0x00 ∧ m.read 0xFFFF = 0x00

theorem Memory.hasPowerOnRom {m : Memory} (hrom : m.rom = Rom.blank) : m.HasPowerOnRom where
  fill := fun address hlow hhigh => by
    rw [read_blank_rom hrom hlow, if_neg (by omega)]
    rfl
  vector := by
    constructor
    · rw [read_blank_rom hrom (by decide), if_pos (by decide)]
    · rw [read_blank_rom hrom (by decide), if_pos (by decide)]

namespace Machine

variable {m : Machine}

/-- Only the memory of a machine outlasts a reset; all else is as at power-on. -/
structure ResetsToStart (m : Machine) : Prop where
  registers : m.reset.registers = Registers.initial
  pc : m.reset.pc = 0x0000
  state : m.reset.state = .running
  steps : m.reset.steps = 0
  memory : ∀ address, m.reset.memory.read address = m.memory.read address

theorem reset_of_rom (hrom : m.memory.rom = Rom.blank) :
    m.reset = ⟨Registers.initial, m.memory, .running, 0⟩ := by
  obtain ⟨hhigh, hlow⟩ := (Memory.hasPowerOnRom hrom).vector
  have hvector : m.memory.readWord Memory.resetVector = 0 := by
    show Word.ofBytes (m.memory.read 0xFFFE) (m.memory.read 0xFFFF) = 0
    rw [hhigh, hlow]
    rfl
  rw [reset, hvector]
  rfl

/-- A machine made for a program is a machine at its start, with the program in memory. -/
theorem ofProgram_eq (p : Program) :
    ofProgram p = ⟨Registers.initial, Memory.blank.load p, .running, 0⟩ := by
  have hrom : (Memory.blank.load p).rom = Rom.blank := Memory.rom_load Memory.blank p
  exact reset_of_rom (m := { blank with memory := Memory.blank.load p }) hrom

/-- **The ROM never changes, and every reset starts at the same place.** -/
theorem Reachable.rom_and_reset (h : m.Reachable) : m.memory.HasPowerOnRom ∧ m.ResetsToStart := by
  have hreset := reset_of_rom h.rom
  refine ⟨Memory.hasPowerOnRom h.rom, ⟨?_, ?_, ?_, ?_, fun address => ?_⟩⟩
  · rw [hreset]
  · rw [hreset]
    rfl
  · rw [hreset]
  · rw [hreset]
  · rw [hreset]

/-- Writes over the reset vector and past the RAM, loads a program that is
longer than the address space, and goes on. -/
def overrun (m : Machine) : Machine :=
  let m := { m with memory := m.memory.writeWord 0xFFFE 0x1234 }
  let m := { m with memory := m.memory.writeWord 0x7FFF 0xABCD }
  let m := { m with memory := m.memory.load Program.onceAround }
  m.step.2

theorem Reachable.overrun (h : m.Reachable) : m.overrun.Reachable :=
  (((h.writeWord 0xFFFE 0x1234).writeWord 0x7FFF 0xABCD).load Program.onceAround).step

theorem reset_overrun :
    blank.overrun.memory.read 0x8000 = 0xFF ∧ blank.overrun.memory.read 0xFFFE = 0x00 ∧
      blank.overrun.reset.pc = 0x0000 ∧ blank.overrun.reset.steps = 0 := by
  obtain ⟨hrom, hreset⟩ := Reachable.blank.overrun.rom_and_reset
  exact ⟨hrom.fill 0x8000 (by decide) (by decide), hrom.vector.1, hreset.pc, hreset.steps⟩

end Machine

end Mc6809
