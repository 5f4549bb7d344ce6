/-
The machines that can come about: a blank one, and whatever stores, programs,
steps, runs and resets make of it. None of these changes the ROM
(`Reachable.rom`), so all of it reads as unprogrammed but for the reset vector,
and no instruction can be carried out there (`step_of_rom`).
-/
import Mc6809.Proofs.Machine.Trajectory

namespace Mc6809

namespace Machine

/-- The machines made from a blank one by access to its memory, loading,
stepping, running and resetting, in any order. -/
inductive Reachable : Machine → Prop where
  | blank : Reachable blank
  | write {m : Machine} (h : Reachable m) (address : Address) (value : Byte) :
      Reachable { m with memory := m.memory.write address value }
  | writeWord {m : Machine} (h : Reachable m) (address : Address) (value : Word) :
      Reachable { m with memory := m.memory.writeWord address value }
  /-- The memory is put back to what it is at power-on. -/
  | clear {m : Machine} (h : Reachable m) : Reachable { m with memory := Memory.blank }
  | load {m : Machine} (h : Reachable m) (p : Program) :
      Reachable { m with memory := m.memory.load p }
  | step {m : Machine} (h : Reachable m) : Reachable m.step.2
  | run {m : Machine} (h : Reachable m) {fuel n : ℕ} {final : Machine}
      (hrun : m.run fuel = some (n, final)) : Reachable final
  | reset {m : Machine} (h : Reachable m) : Reachable m.reset
  /-- A processor of its own is attached to the memory. -/
  | attach {m : Machine} (h : Reachable m) : Reachable (ofMemory m.memory)

theorem reachable_ofProgram (p : Program) : (ofProgram p).Reachable := (Reachable.blank.load p).reset

end Machine

/-! ## What keeps the ROM -/

namespace Memory

@[simp] theorem rom_write (m : Memory) (address : Address) (value : Byte) :
    (m.write address value).rom = m.rom := by
  unfold write
  split <;> rfl

@[simp] theorem rom_writeWord (m : Memory) (address : Address) (value : Word) :
    (m.writeWord address value).rom = m.rom := by
  simp [writeWord]

@[simp] theorem rom_writeBytes (m : Memory) (address : Address) (bytes : List Byte) :
    (m.writeBytes address bytes).rom = m.rom := by
  induction bytes generalizing m address with
  | nil => rfl
  | cons b rest ih => rw [writeBytes, ih, rom_write]

@[simp] theorem rom_load (m : Memory) (p : Program) : (m.load p).rom = m.rom := by
  rw [load_eq, rom_writeBytes]

end Memory

namespace Machine

theorem rom_storeByte (m : Machine) (operand : Operand) (value : Byte) :
    (m.storeByte operand value).memory.rom = m.memory.rom := by
  unfold storeByte
  split
  · exact Memory.rom_write _ _ _
  · rfl

theorem rom_storeWord (m : Machine) (operand : Operand) (value : Word) :
    (m.storeWord operand value).memory.rom = m.memory.rom := by
  unfold storeWord
  split
  · exact Memory.rom_writeWord _ _ _
  · rfl

theorem rom_perform (m : Machine) (e : Encoding) (operand : Operand) :
    (m.perform e operand).2.memory.rom = m.memory.rom := by
  obtain ⟨opcode, mnemonic, mode, size⟩ := e
  cases mnemonic
  case sta | stb => exact m.rom_storeByte operand _
  case stx => exact m.rom_storeWord operand _
  case beq | bne =>
    simp only [perform, branch]
    split <;> rfl
  all_goals rfl

@[simp] theorem rom_step (m : Machine) : m.step.2.memory.rom = m.memory.rom := by
  cases hstate : m.state with
  | halted => rw [step_of_isHalted (isHalted_eq_true.2 hstate)]
  | running =>
    cases hd : Encoding.decode? (m.memory.read m.pc) with
    | none => rw [step_of_no_entry hstate hd]; rfl
    | some e =>
      rw [step_of_decode? hstate hd]
      exact rom_perform (m.past e) e _

theorem rom_iterate (n : ℕ) (m : Machine) : (iterate n m).memory.rom = m.memory.rom := by
  induction n generalizing m with
  | zero => rfl
  | succ n ih => rw [iterate, ih, rom_step]

theorem Reachable.rom {m : Machine} (h : m.Reachable) : m.memory.rom = Rom.blank := by
  induction h with
  | blank | clear => rfl
  | write _ address value ih => exact (Memory.rom_write _ address value).trans ih
  | writeWord _ address value ih => exact (Memory.rom_writeWord _ address value).trans ih
  | load _ p ih => exact (Memory.rom_load _ p).trans ih
  | step _ ih => exact (rom_step _).trans ih
  | run _ hrun ih =>
    obtain ⟨-, -, rfl⟩ := run_eq_some_iff.1 hrun
    exact (rom_iterate _ _).trans ih
  | reset _ ih | attach _ ih => exact ih

end Machine

/-! ## What is in the ROM -/

/-- Each byte of the ROM is that of unprogrammed cells, or one of the reset
vector, which points at the start of programs. -/
theorem Memory.read_rom_cases {m : Memory} (hrom : m.rom = Rom.blank) {address : Address}
    (h : 0x8000 ≤ address.toNat) :
    m.read address = Rom.fill ∨ m.read address = Encoding.sentinel := by
  rw [Memory.read_blank_rom hrom h]
  split
  · exact .inr rfl
  · exact .inl rfl

/-- A step in the ROM halts: what is there is either no opcode or the one that
ends programs. -/
theorem Machine.step_of_rom {m : Machine} (hrom : m.memory.rom = Rom.blank) (hrun : m.state = .running)
    (hpc : 0x8000 ≤ m.pc.toNat) : m.step.2.state = .halted := by
  rcases Memory.read_rom_cases hrom hpc with hread | hread
  · have hd : Encoding.decode? (m.memory.read m.pc) = none := by
      rw [hread]
      decide
    rw [step_of_no_entry hrun hd]
    rfl
  · rw [step_of_sentinel hrun hread]
    rfl

end Mc6809
