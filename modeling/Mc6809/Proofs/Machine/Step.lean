/-
One step of the processor, taken apart. Fetching an instruction moves the
program counter past all its bytes and yields the operand found in memory
(`fetchOperand_eq`), so a step is what the instruction does from there
(`step_of_decode?`), or a halt (`step_of_no_entry`).

What an instruction does to each part of the machine is said once, mnemonic by
mnemonic: `perform_trace`, `perform_pc`, `perform_state`, `perform_steps` and,
for memory, `read_perform`: only the cells it stores to change.
-/
import Mc6809.Machine
import Mc6809.Proofs.Program.Layout

namespace Mc6809

/-- The operand of an instruction stored at an address. -/
def Memory.operandAt (m : Memory) (e : Encoding) (address : Address) : Operand :=
  match e.mode with
  | .inherent => .inherent
  | .immediate =>
    if e.size = 3 then .immediate (m.readWord (address + 1))
    else .immediate (m.read (address + 1)).toUInt16
  | .direct => .direct (m.read (address + 1))
  | .extended => .extended (m.readWord (address + 1))

/-- The cells that an operation stores to. -/
def Mnemonic.storedCells : Mnemonic → Operand → List Address
  | .sta, operand | .stb, operand => operand.effectiveAddress?.toList
  | .stx, operand => operand.effectiveAddress?.toList.flatMap fun address => [address, address + 1]
  | _, _ => []

namespace Encoding

/-- The mode of an entry settles its size, but for immediate operands. -/
theorem size_of_mode {e : Encoding} (h : e ∈ table) :
    (e.mode = .inherent → e.size = 1) ∧ (e.mode = .direct → e.size = 2) ∧
      (e.mode = .extended → e.size = 3) ∧ (e.mode = .immediate → e.size = 2 ∨ e.size = 3) := by
  have key : ∀ e ∈ table,
      (e.mode = .inherent → e.size = 1) ∧ (e.mode = .direct → e.size = 2) ∧
        (e.mode = .extended → e.size = 3) ∧ (e.mode = .immediate → e.size = 2 ∨ e.size = 3) := by decide
  exact key e h

theorem mode_of_value {e : Encoding} (h : e ∈ table)
    (hm : e.mnemonic ∈ [.lda, .ldb, .ldx, .adda, .addb, .suba, .subb]) : e.mode ≠ .inherent := by
  have key : ∀ e ∈ table, e.mnemonic ∈ [.lda, .ldb, .ldx, .adda, .addb, .suba, .subb] →
      e.mode ≠ .inherent := by decide
  exact key e h hm

theorem mode_of_store {e : Encoding} (h : e ∈ table) (hm : e.mnemonic ∈ [.sta, .stb, .stx]) :
    e.mode = .direct ∨ e.mode = .extended := by
  have key : ∀ e ∈ table, e.mnemonic ∈ [.sta, .stb, .stx] →
      e.mode = .direct ∨ e.mode = .extended := by decide
  exact key e h hm

theorem mode_of_branch {e : Encoding} (h : e ∈ table) (hm : e.mnemonic.isBranch = true) :
    e.mode = .direct := by
  have key : ∀ e ∈ table, e.mnemonic.isBranch = true → e.mode = .direct := by decide
  exact key e h hm

theorem mode_cases {e : Encoding} (h : e.mode ≠ .inherent) :
    e.mode = .immediate ∨ e.mode = .direct ∨ e.mode = .extended := by
  cases hmode : e.mode with
  | inherent => exact absurd hmode h
  | immediate => exact .inl rfl
  | direct => exact .inr (.inl rfl)
  | extended => exact .inr (.inr rfl)

theorem mode_of_stop {e : Encoding} (h : e ∈ table) (hm : e.mnemonic = .stop) : e.mode = .inherent := by
  have key : ∀ e ∈ table, e.mnemonic = .stop → e.mode = .inherent := by decide
  exact key e h hm

end Encoding

namespace Machine

@[simp] theorem setPc_pc (m : Machine) (address : Address) : (m.setPc address).pc = address := rfl
@[simp] theorem setPc_memory (m : Machine) (address : Address) : (m.setPc address).memory = m.memory := rfl
@[simp] theorem setPc_setPc (m : Machine) (a b : Address) : (m.setPc a).setPc b = m.setPc b := rfl

/-- The machine past the instruction at the program counter. -/
def past (m : Machine) (e : Encoding) : Machine := m.setPc (m.pc + UInt16.ofNat e.size)

/-- The machine with one more step on its count. -/
def counted (m : Machine) : Machine := { m with steps := m.steps + 1 }

theorem fetchWord_eq (m : Machine) : m.fetchWord = (m.memory.readWord m.pc, m.setPc (m.pc + 1 + 1)) := rfl

/-- Fetching an operand takes it from the bytes after the opcode and moves past them. -/
theorem fetchOperand_eq (m : Machine) {e : Encoding} (he : e ∈ Encoding.table) :
    (m.setPc (m.pc + 1)).fetchOperand e = (m.memory.operandAt e m.pc, m.past e) := by
  obtain ⟨hinherent, hdirect, hextended, himmediate⟩ := Encoding.size_of_mode he
  have h2 : m.pc + 1 + 1 = m.pc + UInt16.ofNat 2 := by rw [UInt16.add_assoc]; rfl
  have h3 : m.pc + 1 + 1 + 1 = m.pc + UInt16.ofNat 3 := by rw [UInt16.add_assoc, UInt16.add_assoc]; rfl
  unfold fetchOperand Memory.operandAt past
  cases hmode : e.mode with
  | inherent => rw [hinherent hmode]; rfl
  | direct =>
    rw [hdirect hmode]
    simp only [fetchByte, setPc_pc, setPc_memory, setPc_setPc, h2]
  | extended =>
    rw [hextended hmode]
    simp only [fetchWord_eq, setPc_pc, setPc_memory, setPc_setPc, h3]
  | immediate =>
    rcases himmediate hmode with h | h
    · simp only [h, fetchByte, setPc_pc, setPc_memory, setPc_setPc, h2, if_neg (by decide : ¬ 2 = 3)]
    · simp only [h, fetchWord_eq, setPc_pc, setPc_memory, setPc_setPc, h3, if_true]

theorem isHalted_eq_false {m : Machine} : m.isHalted = false ↔ m.state = .running := by
  unfold isHalted
  cases m.state <;> decide

theorem isHalted_eq_true {m : Machine} : m.isHalted = true ↔ m.state = .halted := by
  unfold isHalted
  cases m.state <;> decide

/-- A step of a running processor carries out the instruction at its program counter. -/
theorem step_of_decode? {m : Machine} {e : Encoding} (h : m.state = .running)
    (hd : Encoding.decode? (m.memory.read m.pc) = some e) :
    m.step = (((m.past e).perform e (m.memory.operandAt e m.pc)).1,
      ((m.past e).perform e (m.memory.operandAt e m.pc)).2.counted) := by
  have hfetch := m.fetchOperand_eq (Encoding.mem_of_decode? hd).1
  simp only [step, isHalted_eq_false.2 h, fetchByte, hd, execute, hfetch, counted, Bool.false_eq_true,
    if_false]

/-- A step of a running processor halts at an opcode that is not in the table. -/
theorem step_of_no_entry {m : Machine} (h : m.state = .running)
    (hd : Encoding.decode? (m.memory.read m.pc) = none) :
    m.step = (.invalidOpcode (m.memory.read m.pc), (m.setPc (m.pc + 1)).halt.counted) := by
  simp only [step, isHalted_eq_false.2 h, fetchByte, hd, counted, Bool.false_eq_true, if_false]

/-! ## Carrying out an instruction -/

theorem perform_trace (m : Machine) (e : Encoding) (operand : Operand) :
    (m.perform e operand).1 =
      if e.mnemonic = .stop then .ended
      else if e.mnemonic.isBranch then
        .branched e.mnemonic (m.branchTarget operand) (m.takes e.mnemonic)
      else .executed e.mnemonic operand e.size := by
  obtain ⟨opcode, mnemonic, mode, size⟩ := e
  cases mnemonic <;> rfl

/-- Only a branch that is taken moves the program counter once all is fetched. -/
theorem perform_pc (m : Machine) (e : Encoding) (operand : Operand) :
    (m.perform e operand).2.pc =
      if e.mnemonic.isBranch && m.takes e.mnemonic then m.branchTarget operand else m.pc := by
  obtain ⟨opcode, mnemonic, mode, size⟩ := e
  cases mnemonic
  case sta | stb | stx => cases operand <;> rfl
  case bra => rfl
  case beq =>
    simp only [perform, branch, Mnemonic.isBranch, Bool.true_and]
    split <;> rfl
  case bne =>
    simp only [perform, branch, Mnemonic.isBranch, Bool.true_and]
    split <;> rfl
  all_goals rfl

/-- Only the end of a program halts the processor. -/
theorem perform_state (m : Machine) (e : Encoding) (operand : Operand) :
    (m.perform e operand).2.state = if e.mnemonic = .stop then .halted else m.state := by
  obtain ⟨opcode, mnemonic, mode, size⟩ := e
  cases mnemonic
  case sta | stb | stx => cases operand <;> rfl
  case beq | bne =>
    simp only [perform, branch]
    split <;> rfl
  all_goals rfl

theorem perform_steps (m : Machine) (e : Encoding) (operand : Operand) :
    (m.perform e operand).2.steps = m.steps := by
  obtain ⟨opcode, mnemonic, mode, size⟩ := e
  cases mnemonic
  case sta | stb | stx => cases operand <;> rfl
  case beq | bne =>
    simp only [perform, branch]
    split <;> rfl
  all_goals rfl

theorem read_storeByte (m : Machine) {operand : Operand} {a : Address}
    (h : a ∉ operand.effectiveAddress?.toList) (value : Byte) :
    (m.storeByte operand value).memory.read a = m.memory.read a := by
  unfold storeByte
  split
  next address heq =>
    rw [heq, Option.toList_some, List.mem_singleton] at h
    rw [Memory.read_write, if_neg fun hw => h hw.1]
  next => rfl

theorem read_storeWord (m : Machine) {operand : Operand} {a : Address}
    (h : a ∉ operand.effectiveAddress?.toList.flatMap fun address => [address, address + 1])
    (value : Word) : (m.storeWord operand value).memory.read a = m.memory.read a := by
  unfold storeWord
  split
  next address heq =>
    simp only [heq, Option.toList_some, List.flatMap_singleton, List.mem_cons, not_or] at h
    rw [Memory.writeWord, Memory.read_write, if_neg fun hw => h.2.1 hw.1, Memory.read_write,
      if_neg fun hw => h.1 hw.1]
  next => rfl

/-- An instruction changes no cell but those it stores to. -/
theorem read_perform (m : Machine) {e : Encoding} {operand : Operand} {a : Address}
    (h : a ∉ e.mnemonic.storedCells operand) :
    (m.perform e operand).2.memory.read a = m.memory.read a := by
  obtain ⟨opcode, mnemonic, mode, size⟩ := e
  cases mnemonic
  case sta | stb => exact m.read_storeByte h _
  case stx => exact m.read_storeWord h _
  case beq | bne =>
    simp only [perform, branch]
    split <;> rfl
  all_goals rfl

end Machine

end Mc6809
