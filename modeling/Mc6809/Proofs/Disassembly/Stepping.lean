/-
The disassembler against the processor. They decode separately: the processor
fetches byte after byte as the mode of an instruction asks, the disassembler
takes as many bytes as the table says and puts the number together afterwards.
They find the same operand (`operand_disassemble`) and the same branch target
(`target_disassemble`), whatever the bytes are and wherever they wrap; so a
step does what the disassembly taken before it says.
-/
import Mc6809.Disassembly
import Mc6809.Proofs.Program.Execution

namespace Mc6809

namespace Memory

theorem dump_succ (m : Memory) (start : Address) (length : Nat) :
    m.dump start (length + 1) = m.read start :: m.dump (start + 1) length := by
  simp only [dump, List.range_succ_eq_map, List.map_cons, List.map_map]
  congr 1
  · exact congrArg m.read (UInt16.add_zero start)
  · refine List.map_congr_left fun i _ => ?_
    exact congrArg m.read (add_next start i).symm

theorem dump_two (m : Memory) (start : Address) :
    m.dump start 2 = [m.read start, m.read (start + 1)] := by
  rw [dump_succ, dump_succ]
  rfl

theorem dump_three (m : Memory) (start : Address) :
    m.dump start 3 = [m.read start, m.read (start + 1), m.read (start + 1 + 1)] := by
  rw [dump_succ, dump_two]

variable {m : Memory} {address : Address} {e : Encoding}

theorem disassemble_of_entry (h : Encoding.decode? (m.read address) = some e) :
    m.disassemble address = ⟨address, m.dump address e.size, some e⟩ := by
  simp [disassemble, h]

theorem disassemble_of_no_entry (h : Encoding.decode? (m.read address) = none) :
    m.disassemble address = ⟨address, [m.read address], none⟩ := by
  simp [disassemble, h, dump]

@[simp] theorem encoding?_disassemble (m : Memory) (address : Address) :
    (m.disassemble address).encoding? = Encoding.decode? (m.read address) := rfl

theorem size_disassemble (h : Encoding.decode? (m.read address) = some e) :
    (m.disassemble address).size = e.size := by
  simp [disassemble_of_entry h, Disassembly.size, length_dump]

/-- No instruction is longer than three bytes. -/
theorem size_disassemble_bounds (m : Memory) (address : Address) :
    1 ≤ (m.disassemble address).size ∧ (m.disassemble address).size ≤ 3 := by
  cases h : Encoding.decode? (m.read address) with
  | none => simp [disassemble_of_no_entry h, Disassembly.size]
  | some e =>
    rw [size_disassemble h]
    exact Encoding.size_bounds (Encoding.mem_of_decode? h).1

/-- One byte after the opcode is the operand itself. -/
theorem operandValue_disassemble_two (h : Encoding.decode? (m.read address) = some e)
    (hsize : e.size = 2) :
    (m.disassemble address).operandValue = (m.read (address + 1)).toUInt16 := by
  rw [disassemble_of_entry h, hsize, dump_two]
  simp [Disassembly.operandValue]

/-- Two bytes after the opcode are the operand, high byte first. -/
theorem operandValue_disassemble_three (h : Encoding.decode? (m.read address) = some e)
    (hsize : e.size = 3) :
    (m.disassemble address).operandValue = m.readWord (address + 1) := by
  rw [disassemble_of_entry h, hsize, dump_three]
  simp [Disassembly.operandValue, readWord, Word.ofBytes]

/-- The operand that is put together afterwards is the one that is fetched. -/
theorem operand_disassemble (h : Encoding.decode? (m.read address) = some e) :
    (m.disassemble address).operand e.mode = m.operandAt e address := by
  obtain ⟨-, hdirect, hextended, himmediate⟩ := Encoding.size_of_mode (Encoding.mem_of_decode? h).1
  unfold operandAt Disassembly.operand
  cases hmode : e.mode with
  | inherent => rfl
  | direct =>
    simp only [operandValue_disassemble_two h (hdirect hmode)]
    exact congrArg Operand.direct (UInt8.toUInt8_toUInt16 _)
  | extended => simp only [operandValue_disassemble_three h (hextended hmode)]
  | immediate =>
    rcases himmediate hmode with hsize | hsize
    · simp only [operandValue_disassemble_two h hsize, hsize, if_neg (by decide : ¬ 2 = 3)]
    · simp only [operandValue_disassemble_three h hsize, hsize, if_true]

/-- A branch is disassembled with the place it goes to from behind itself. -/
theorem target_disassemble (h : Encoding.decode? (m.read address) = some e)
    (hbranch : e.mnemonic.isBranch = true) :
    (m.disassemble address).target e =
      branchTarget (address + UInt16.ofNat e.size) (Word.low (m.operandAt e address).value) := by
  have hmem := (Encoding.mem_of_decode? h).1
  have hmode := Encoding.mode_of_branch hmem hbranch
  have hsize : e.size = 2 := (Encoding.size_of_mode hmem).2.1 hmode
  have hlow : Word.low (m.read (address + 1)).toUInt16 = m.read (address + 1) :=
    UInt8.toUInt8_toUInt16 _
  simp only [disassemble_of_entry h, Disassembly.target, hsize, dump_two, operandAt, hmode,
    Operand.value, hlow]
  rfl

end Memory

namespace Disassembly

theorem text_of_branch {d : Disassembly} {e : Encoding} (h : d.encoding? = some e)
    (hbranch : e.mnemonic.isBranch = true) :
    d.text = e.mnemonic.name ++ " $" ++ Word.hex (d.target e) := by
  simp [text, h, hbranch]

theorem text_of_plain {d : Disassembly} {e : Encoding} (h : d.encoding? = some e)
    (hplain : e.mnemonic.isBranch = false) :
    d.text = instructionText e.mnemonic.name (d.operand e.mode) e.size := by
  simp [text, h, hplain]

end Disassembly

namespace Machine

variable {m : Machine}

/-- A step moves past what is disassembled, unless a branch takes it elsewhere. -/
theorem pc_step (h : m.state = .running) :
    m.step.2.pc =
      m.step.1.landing?.getD (m.pc + UInt16.ofNat (m.memory.disassemble m.pc).size) := by
  cases hd : Encoding.decode? (m.memory.read m.pc) with
  | none =>
    rw [step_of_no_entry h hd, Memory.disassemble_of_no_entry hd]
    rfl
  | some e =>
    rw [step_of_decode? h hd, Memory.size_disassemble hd]
    exact pc_perform (m.past e) e _

theorem toNat_pc_step (h : m.state = .running) (hplain : m.step.1.landing? = none) :
    m.step.2.pc.toNat = (m.pc.toNat + (m.memory.disassemble m.pc).size) % 65536 := by
  rw [pc_step h, hplain, Option.getD_none, UInt16.toNat_add, UInt16.toNat_ofNat', Nat.add_mod_mod]

theorem pc_step_of_landing {target : Address} (h : m.state = .running)
    (hlanding : m.step.1.landing? = some target) : m.step.2.pc = target := by
  rw [pc_step h, hlanding, Option.getD_some]

/-- What is traced of the instruction at the program counter. -/
theorem trace_step {e : Encoding} (h : m.state = .running)
    (hd : Encoding.decode? (m.memory.read m.pc) = some e) :
    m.step.1 =
      if e.mnemonic = .stop then .ended
      else if e.mnemonic.isBranch then
        .branched e.mnemonic ((m.memory.disassemble m.pc).target e) (m.takes e.mnemonic)
      else .executed e.mnemonic ((m.memory.disassemble m.pc).operand e.mode) e.size := by
  rw [step_of_decode? h hd, perform_trace, Memory.operand_disassemble hd]
  split
  · rfl
  · split
    next hbranch =>
      rw [Memory.target_disassemble hd hbranch]
      have htakes : (m.past e).takes e.mnemonic = m.takes e.mnemonic := by
        cases e.mnemonic <;> rfl
      rw [htakes]
      rfl
    next => rfl

/-- The next step is the one that `d` lists: it has its kind, shows its text or
its branch target, and moves past its bytes unless a branch is taken. -/
structure StepsAsListed (m : Machine) (d : Disassembly) : Prop where
  invalid : (∃ b, m.step.1 = .invalidOpcode b) ↔ d.encoding? = none
  opcode : ∀ b, m.step.1 = .invalidOpcode b → d.bytes = [b]
  ended : m.step.1 = .ended ↔ ∃ e, d.encoding? = some e ∧ e.mnemonic = .stop
  branched : (∃ mnemonic target taken, m.step.1 = .branched mnemonic target taken) ↔
    ∃ e, d.encoding? = some e ∧ e.mnemonic.isBranch = true
  target : ∀ mnemonic target taken, m.step.1 = .branched mnemonic target taken →
    d.text = mnemonic.name ++ " $" ++ Word.hex target
  executed : ∀ e, d.encoding? = some e → e.mnemonic ≠ .stop → e.mnemonic.isBranch = false →
    (∃ operand, m.step.1 = .executed e.mnemonic operand d.size) ∧ m.step.1.text = d.text
  past : m.step.1.landing? = none → m.step.2.pc.toNat = (m.pc.toNat + d.size) % 65536
  landing : ∀ target, m.step.1.landing? = some target → m.step.2.pc = target

/-- **The processor and the disassembler agree.** Whatever is in its registers
and memory, a running processor does next what is disassembled at its program
counter before the step. -/
theorem step_as_listed (h : m.state = .running) :
    m.StepsAsListed (m.memory.disassemble m.pc) := by
  cases hd : Encoding.decode? (m.memory.read m.pc) with
  | none =>
    have htrace : m.step.1 = .invalidOpcode (m.memory.read m.pc) := by rw [step_of_no_entry h hd]
    have hlisted := Memory.disassemble_of_no_entry hd
    exact
      { invalid := by simp [htrace, hd]
        opcode := by simp [htrace, hlisted]
        ended := by simp [htrace, hd]
        branched := by simp [htrace, hd]
        target := by simp [htrace]
        executed := by simp [hd]
        past := toNat_pc_step h
        landing := fun _ => pc_step_of_landing h }
  | some e =>
    have hentry : (m.memory.disassemble m.pc).encoding? = some e := hd
    have htrace := trace_step h hd
    by_cases hstop : e.mnemonic = .stop
    · have hplain : e.mnemonic.isBranch = false := by rw [hstop]; rfl
      rw [if_pos hstop] at htrace
      exact
        { invalid := by simp [htrace, hd]
          opcode := by simp [htrace]
          ended := by simp [htrace, hd, hstop]
          branched := by simp [htrace, hd, hplain]
          target := by simp [htrace]
          executed := by simp [hd, hstop]
          past := toNat_pc_step h
          landing := fun _ => pc_step_of_landing h }
    · cases hbranch : e.mnemonic.isBranch with
      | true =>
        rw [if_neg hstop, if_pos hbranch] at htrace
        have htext := Disassembly.text_of_branch hentry hbranch
        exact
          { invalid := by simp [htrace, hd]
            opcode := by simp [htrace]
            ended := by simp [htrace, hd, hstop]
            branched := by simp [htrace, hd, hbranch]
            target := by
              intro mnemonic target taken ht
              rw [htrace] at ht
              obtain ⟨rfl, rfl, -⟩ := Trace.branched.inj ht
              exact htext
            executed := by simp [hd, hbranch]
            past := toNat_pc_step h
            landing := fun _ => pc_step_of_landing h }
      | false =>
        rw [if_neg hstop, hbranch, if_neg (by decide)] at htrace
        have htext := Disassembly.text_of_plain hentry hbranch
        exact
          { invalid := by simp [htrace, hd]
            opcode := by simp [htrace]
            ended := by simp [htrace, hd, hstop]
            branched := by simp [htrace, hd, hbranch]
            target := by simp [htrace]
            executed := by
              intro e' he' _ _
              obtain rfl : e = e' := Option.some.inj (hd.symm.trans he')
              rw [htrace, Memory.size_disassemble hd]
              exact ⟨⟨_, rfl⟩, htext.symm⟩
            past := toNat_pc_step h
            landing := fun _ => pc_step_of_landing h }

/-- A store that is next to the ROM, takes its last byte from there and
overwrites the byte before that. -/
def selfStore : Machine :=
  ⟨{ Registers.initial with pc := 0x7FFE }, Memory.blank.writeBytes 0x7FFE [0xB7, 0x7F], .running, 0⟩

theorem step_selfStore :
    selfStore.state = .running ∧ selfStore.step.1.text = "STA $7FFF" ∧
      selfStore.step.2.pc.toNat = 0x8001 := by
  have hat : selfStore.memory.At 0x7FFE [0xB7, 0x7F] := Memory.at_writeBytes _ (by decide)
  have hlow : selfStore.memory.read 0x8000 = 0xFF := by
    refine (Memory.read_writeBytes_outside _ (by decide) (by decide)).trans ?_
    exact (Memory.read_rom Memory.blank (i := 0) (by decide)).trans (Rom.read_programmed 0 (by decide))
  have hd : Encoding.decode? (selfStore.memory.read selfStore.pc) = some ⟨0xB7, .sta, .extended, 3⟩ := by
    rw [show selfStore.pc = 0x7FFE from rfl, hat.1]
    rfl
  have hbytes : selfStore.memory.dump selfStore.pc 3 = [0xB7, 0x7F, 0xFF] := by
    have hhigh : selfStore.memory.read (selfStore.pc + 1) = 0x7F := hat.2.1
    have hlow : selfStore.memory.read (selfStore.pc + 1 + 1) = 0xFF := hlow
    rw [Memory.dump_three, hhigh, hlow, show selfStore.memory.read selfStore.pc = 0xB7 from hat.1]
  have hlisted : selfStore.memory.disassemble selfStore.pc =
      ⟨0x7FFE, [0xB7, 0x7F, 0xFF], some ⟨0xB7, .sta, .extended, 3⟩⟩ := by
    rw [Memory.disassemble_of_entry hd, hbytes]
    rfl
  have hsteps := step_as_listed (m := selfStore) rfl
  rw [hlisted] at hsteps
  obtain ⟨⟨operand, htrace⟩, htext⟩ := hsteps.executed _ rfl (by decide) rfl
  exact ⟨rfl, htext.trans (by decide), hsteps.past (by rw [htrace]; rfl)⟩

end Machine

end Mc6809
