/-
What a run depends on. A step reads the bytes of its instruction and the cells
that the instruction takes its value from (`Machine.readCells`), and a store
reads nothing. Two machines that are the same but for their memories make the
same step if they agree on these cells (`Machine.step_agree`), and afterwards
they agree wherever they did and wherever the step wrote. So a run depends on
the cells that it reads before it has written them, and on no other
(`Machine.runs_alike`).
-/
import Mc6809.Proofs.Program.Execution

namespace Mc6809

/-- The cells that an operation takes its value from. -/
def Mnemonic.loadedCells : Mnemonic → Operand → List Address
  | .lda, operand | .ldb, operand | .adda, operand | .addb, operand | .suba, operand
  | .subb, operand => operand.effectiveAddress?.toList
  | .ldx, operand => operand.effectiveAddress?.toList.flatMap fun address => [address, address + 1]
  | _, _ => []

/-- The cells that a step read as data. -/
def Trace.loadedCells : Trace → List Address
  | executed mnemonic operand _ => mnemonic.loadedCells operand
  | _ => []

namespace Machine

/-- The cells that the next instruction is fetched from: its opcode, and the
operand bytes that the table gives it. -/
def fetchedCells (m : Machine) : List Address :=
  let size := ((Encoding.decode? (m.memory.read m.pc)).map (·.size)).getD 1
  (List.range size).map fun i => m.pc + UInt16.ofNat i

/-- The cells that the next step reads. -/
def readCells (m : Machine) : List Address :=
  if m.isHalted then [] else m.fetchedCells ++ m.step.1.loadedCells

/-- The cells that the next step writes, those of RAM that it stores to. -/
def writtenCells (m : Machine) : List Address := m.step.1.storedCells.filter (!Memory.inRom ·)

/-- Some of the next `n` steps writes a cell. -/
def Writes (m : Machine) (n : Nat) (address : Address) : Prop :=
  ∃ k < n, address ∈ (iterate k m).writtenCells

/-- Some of the next `n` steps reads a cell that none before it has written. -/
def ReadsFirst (m : Machine) (n : Nat) (address : Address) : Prop :=
  ∃ k < n, address ∈ (iterate k m).readCells ∧ ¬ m.Writes k address

/-- Two machines that are the same but for what is in their memories. -/
structure SameProcessor (m m' : Machine) : Prop where
  registers : m.registers = m'.registers
  state : m.state = m'.state
  steps : m.steps = m'.steps

/-- Two machines read the same at an address. -/
def Agree (m m' : Machine) (address : Address) : Prop := m.memory.read address = m'.memory.read address

variable {m m' : Machine}

/-! ## Fetching -/

theorem SameProcessor.pc (h : SameProcessor m m') : m.pc = m'.pc := congrArg Registers.pc h.registers

theorem SameProcessor.past (h : SameProcessor m m') (e : Encoding) :
    SameProcessor (m.past e) (m'.past e) := by
  refine ⟨?_, h.state, h.steps⟩
  simp only [Machine.past, setPc, h.pc, h.registers]

/-- The operand is read from the bytes that are fetched. -/
theorem operandAt_agree {memory memory' : Memory} {e : Encoding} (he : e ∈ Encoding.table)
    {address : Address} (h : ∀ i < e.size, memory.read (address + UInt16.ofNat i) =
      memory'.read (address + UInt16.ofNat i)) :
    memory.operandAt e address = memory'.operandAt e address := by
  obtain ⟨-, hdirect, hextended, himmediate⟩ := Encoding.size_of_mode he
  have hnext : address + 1 + 1 = address + UInt16.ofNat 2 := by rw [UInt16.add_assoc]; rfl
  have hbyte : 2 ≤ e.size → memory.read (address + 1) = memory'.read (address + 1) := fun hsize =>
    h 1 hsize
  have hword : 3 ≤ e.size → memory.readWord (address + 1) = memory'.readWord (address + 1) := by
    intro hsize
    rw [Memory.readWord, Memory.readWord, hnext, hbyte (by omega), h 2 hsize]
  unfold Memory.operandAt
  cases hmode : e.mode with
  | inherent => rfl
  | direct =>
    have hsize := hdirect hmode
    simp only [hbyte (by omega)]
  | extended =>
    have hsize := hextended hmode
    simp only [hword (by omega)]
  | immediate =>
    rcases himmediate hmode with hsize | hsize
    · simp only [hsize, hbyte (by omega), if_neg (by decide : ¬ 2 = 3)]
    · simp only [hsize, hword (by omega), if_true]

/-! ## Carrying out an instruction -/

theorem byteOperand_agree {operand : Operand}
    (h : ∀ a ∈ operand.effectiveAddress?.toList, Agree m m' a) :
    m.byteOperand operand = m'.byteOperand operand := by
  unfold byteOperand
  cases haddress : operand.effectiveAddress? with
  | none => rfl
  | some address => exact h address (by simp [haddress])

theorem wordOperand_agree {operand : Operand}
    (h : ∀ a ∈ operand.effectiveAddress?.toList.flatMap fun address => [address, address + 1],
      Agree m m' a) :
    m.wordOperand operand = m'.wordOperand operand := by
  unfold wordOperand
  cases haddress : operand.effectiveAddress? with
  | none => rfl
  | some address =>
    have hhigh : Agree m m' address := h address (by simp [haddress])
    have hlow : Agree m m' (address + 1) := h (address + 1) (by simp [haddress])
    simp only [Memory.readWord]
    rw [hhigh, hlow]

theorem write_agree {memory memory' : Memory} {a : Address} (address : Address) (value : Byte)
    (h : memory.read a = memory'.read a ∨ a = address ∧ Memory.inRom a = false) :
    (memory.write address value).read a = (memory'.write address value).read a := by
  rw [Memory.read_write, Memory.read_write]
  split
  next => rfl
  next hother =>
    rcases h with h | ⟨rfl, hram⟩
    · exact h
    · exact absurd ⟨rfl, hram⟩ hother

theorem writeWord_agree {memory memory' : Memory} {a : Address} (address : Address) (value : Word)
    (h : memory.read a = memory'.read a ∨ a ∈ [address, address + 1] ∧ Memory.inRom a = false) :
    (memory.writeWord address value).read a = (memory'.writeWord address value).read a := by
  refine write_agree _ _ ?_
  by_cases hlow : a = address + 1 ∧ Memory.inRom a = false
  · exact .inr hlow
  · refine .inl (write_agree _ _ (h.imp_right fun ⟨hmem, hram⟩ => ⟨?_, hram⟩))
    rcases List.mem_cons.1 hmem with rfl | hmem
    · rfl
    · exact absurd ⟨List.mem_singleton.1 hmem, hram⟩ hlow

/-- What two machines did is the same, and they agree where they did before and
in the cells of RAM that were stored to. -/
structure StepsAlike (stored : List Address) (m m' : Machine) (after after' : Trace × Machine) :
    Prop where
  trace : after.1 = after'.1
  processor : SameProcessor after.2 after'.2
  memory : ∀ a, Agree m m' a ∨ a ∈ stored ∧ Memory.inRom a = false → Agree after.2 after'.2 a

theorem storeByte_agree {operand : Operand} (value : Byte) {a : Address}
    (h : Agree m m' a ∨ a ∈ operand.effectiveAddress?.toList ∧ Memory.inRom a = false) :
    Agree (m.storeByte operand value) (m'.storeByte operand value) a := by
  unfold storeByte
  cases haddress : operand.effectiveAddress? with
  | none => exact h.resolve_right fun hmem => by simp [haddress] at hmem
  | some address =>
    exact write_agree address value (h.imp_right fun hmem => by simpa [haddress] using hmem)

theorem storeWord_agree {operand : Operand} (value : Word) {a : Address}
    (h : Agree m m' a ∨
      (a ∈ operand.effectiveAddress?.toList.flatMap fun address => [address, address + 1]) ∧
        Memory.inRom a = false) :
    Agree (m.storeWord operand value) (m'.storeWord operand value) a := by
  unfold storeWord
  cases haddress : operand.effectiveAddress? with
  | none => exact h.resolve_right fun hmem => by simp [haddress] at hmem
  | some address =>
    exact writeWord_agree address value (h.imp_right fun hmem => by simpa [haddress] using hmem)

theorem StepsAlike.of_kept {after after' : Trace × Machine} (htrace : after.1 = after'.1)
    (hprocessor : SameProcessor after.2 after'.2) (hmemory : after.2.memory = m.memory)
    (hmemory' : after'.2.memory = m'.memory) : StepsAlike [] m m' after after' where
  trace := htrace
  processor := hprocessor
  memory := fun a ha => by
    rw [Agree, hmemory, hmemory']
    exact ha.resolve_right fun hnil => by cases hnil.1

theorem StepsAlike.counted {stored : List Address} {after after' : Trace × Machine}
    (h : StepsAlike stored m m' after after') :
    StepsAlike stored m m' (after.1, after.2.counted) (after'.1, after'.2.counted) where
  trace := h.trace
  processor := ⟨h.processor.registers, h.processor.state, congrArg (· + 1) h.processor.steps⟩
  memory := h.memory

theorem branch_agree (h : SameProcessor m m') (mnemonic : Mnemonic) (operand : Operand) (taken : Bool) :
    StepsAlike [] m m' (m.branch mnemonic operand taken) (m'.branch mnemonic operand taken) := by
  have htarget : m.branchTarget operand = m'.branchTarget operand := by
    rw [branchTarget, branchTarget, h.pc]
  cases taken with
  | false => exact .of_kept (by simp only [branch, htarget]) h rfl rfl
  | true =>
    refine .of_kept (by simp only [branch, htarget]) ⟨?_, h.state, h.steps⟩ rfl rfl
    simp only [branch, if_true, setPc, htarget, h.registers]

section SameProcessor

variable (h : SameProcessor m m')
include h

theorem SameProcessor.accumulator (acc : Accumulator) : m.accumulator acc = m'.accumulator acc := by
  cases acc with
  | a => exact congrArg Registers.a h.registers
  | b => exact congrArg Registers.b h.registers

theorem SameProcessor.setCodes (cc : ConditionCodes) : SameProcessor (m.setCodes cc) (m'.setCodes cc) := by
  refine ⟨?_, h.state, h.steps⟩
  simp only [Machine.setCodes, h.registers]

theorem SameProcessor.setAccumulator (value : Byte) (acc : Accumulator) :
    SameProcessor (m.setAccumulator value acc) (m'.setAccumulator value acc) := by
  cases acc with
  | a =>
    refine ⟨?_, h.state, h.steps⟩
    simp only [Machine.setAccumulator, h.registers]
  | b =>
    refine ⟨?_, h.state, h.steps⟩
    simp only [Machine.setAccumulator, h.registers]

theorem SameProcessor.putResult (acc : Accumulator) (result : Byte) :
    SameProcessor (m.putResult acc result) (m'.putResult acc result) := by
  rw [Machine.putResult, Machine.putResult, h.registers]
  exact (h.setAccumulator result acc).setCodes _

theorem SameProcessor.add (acc : Accumulator) {operand : Operand}
    (hvalue : m.byteOperand operand = m'.byteOperand operand) :
    SameProcessor (m.add acc operand) (m'.add acc operand) := by
  simp only [Machine.add, hvalue, h.accumulator acc]
  rw [(h.putResult acc _).registers]
  exact (h.putResult acc _).setCodes _

theorem SameProcessor.subtract (acc : Accumulator) {operand : Operand}
    (hvalue : m.byteOperand operand = m'.byteOperand operand) :
    SameProcessor (m.subtract acc operand) (m'.subtract acc operand) := by
  simp only [Machine.subtract, hvalue, h.accumulator acc]
  rw [(h.putResult acc _).registers]
  exact (h.putResult acc _).setCodes _

theorem SameProcessor.storeByte (operand : Operand) (value : Byte) :
    SameProcessor (m.storeByte operand value) (m'.storeByte operand value) := by
  unfold Machine.storeByte
  split <;> exact ⟨h.registers, h.state, h.steps⟩

theorem SameProcessor.storeWord (operand : Operand) (value : Word) :
    SameProcessor (m.storeWord operand value) (m'.storeWord operand value) := by
  unfold Machine.storeWord
  split <;> exact ⟨h.registers, h.state, h.steps⟩

theorem SameProcessor.takes (mnemonic : Mnemonic) : m.takes mnemonic = m'.takes mnemonic := by
  unfold Machine.takes
  rw [h.registers]

end SameProcessor

/-- What an instruction does depends on the cells that it takes its value from. -/
theorem perform_agree (h : SameProcessor m m') (e : Encoding) (operand : Operand)
    (hloaded : ∀ a ∈ e.mnemonic.loadedCells operand, Agree m m' a) :
    StepsAlike (e.mnemonic.storedCells operand) m m' (m.perform e operand) (m'.perform e operand) := by
  obtain ⟨opcode, mnemonic, mode, size⟩ := e
  cases mnemonic
  case lda | ldb =>
    have hvalue := byteOperand_agree hloaded
    refine .of_kept rfl ?_ rfl rfl
    simp only [perform, load, hvalue]
    exact h.putResult _ _
  case ldx =>
    have hvalue := wordOperand_agree hloaded
    refine .of_kept rfl ⟨?_, h.state, h.steps⟩ rfl rfl
    simp only [perform, loadX, hvalue, h.registers]
  case sta | stb =>
    simp only [perform, h.registers]
    exact ⟨rfl, h.storeByte operand _, fun a ha => storeByte_agree _ ha⟩
  case stx =>
    simp only [perform, h.registers]
    exact ⟨rfl, h.storeWord operand _, fun a ha => storeWord_agree _ ha⟩
  case adda | addb => exact .of_kept rfl (h.add _ (byteOperand_agree hloaded)) rfl rfl
  case suba | subb => exact .of_kept rfl (h.subtract _ (byteOperand_agree hloaded)) rfl rfl
  case inca | incb | deca | decb =>
    refine .of_kept rfl ?_ rfl rfl
    simp only [perform, increment, decrement, h.accumulator]
    exact h.putResult _ _
  case bra | beq | bne =>
    simp only [perform, h.takes]
    exact branch_agree h _ operand _
  case nop => exact .of_kept rfl h rfl rfl
  case stop => exact .of_kept rfl ⟨h.registers, rfl, h.steps⟩ rfl rfl

theorem loadedCells_perform (m : Machine) (e : Encoding) (operand : Operand) :
    (m.perform e operand).1.loadedCells = e.mnemonic.loadedCells operand := by
  obtain ⟨opcode, mnemonic, mode, size⟩ := e
  cases mnemonic <;> rfl

/-! ## Steps and runs -/

theorem readCells_of_no_entry (h : m.state = .running)
    (hd : Encoding.decode? (m.memory.read m.pc) = none) : m.readCells = [m.pc] := by
  rw [readCells, isHalted_eq_false.2 h, fetchedCells, hd, step_of_no_entry h hd]
  exact congrArg (fun a => [a]) (UInt16.add_zero m.pc)

theorem readCells_of_decode? {e : Encoding} (h : m.state = .running)
    (hd : Encoding.decode? (m.memory.read m.pc) = some e) :
    m.readCells = ((List.range e.size).map fun i => m.pc + UInt16.ofNat i) ++
      e.mnemonic.loadedCells (m.memory.operandAt e m.pc) := by
  rw [readCells, isHalted_eq_false.2 h, fetchedCells, hd, step_of_decode? h hd, loadedCells_perform]
  rfl

/-- Where a program is loaded, what a step reads is written there. -/
theorem readCells_of_loaded {p : Program} {k : Nat} {i : Instruction} {e : Encoding}
    (h : p.Loaded m.memory) (hrun : m.state = .running) (hpc : m.pc = UInt16.ofNat (p.offset k))
    (hi : p.instructions[k]? = some i) (he : i.encoding? = some e) :
    m.readCells = ((List.range e.size).map fun j => m.pc + UInt16.ofNat j) ++
      e.mnemonic.loadedCells (i.operand.cut i.size) := by
  obtain ⟨hk, rfl⟩ := List.getElem?_eq_some_iff.1 hi
  have hat := h.instruction hk
  rw [← hpc] at hat
  rw [readCells_of_decode? hrun (hat.decode? he), hat.operandAt he]

/-- **A step depends on the cells that it reads**, and on no other. -/
theorem step_agree (h : SameProcessor m m') (hread : ∀ a ∈ m.readCells, Agree m m' a) :
    StepsAlike m.step.1.storedCells m m' m.step m'.step := by
  cases hstate : m.state with
  | halted =>
    rw [step_of_isHalted (isHalted_eq_true.2 hstate),
      step_of_isHalted (isHalted_eq_true.2 (h.state ▸ hstate))]
    exact .of_kept rfl h rfl rfl
  | running =>
    have hstate' : m'.state = .running := h.state ▸ hstate
    cases hd : Encoding.decode? (m.memory.read m.pc) with
    | none =>
      rw [readCells_of_no_entry hstate hd] at hread
      have hopcode : m.memory.read m.pc = m'.memory.read m'.pc := h.pc ▸ hread _ (List.mem_singleton_self _)
      rw [step_of_no_entry hstate hd, step_of_no_entry hstate' (hopcode ▸ hd), ← hopcode]
      refine .of_kept rfl ⟨?_, rfl, congrArg (· + 1) h.steps⟩ rfl rfl
      simp only [Machine.counted, halt, setPc, h.pc, h.registers]
    | some e =>
      have he := (Encoding.mem_of_decode? hd).1
      rw [readCells_of_decode? hstate hd] at hread
      have hfetched : ∀ i < e.size, Agree m m' (m.pc + UInt16.ofNat i) := fun i hi =>
        hread _ (List.mem_append_left _ (List.mem_map_of_mem (List.mem_range.2 hi)))
      have hopcode : m.memory.read m.pc = m'.memory.read m'.pc := by
        have hfirst := hfetched 0 (Encoding.size_bounds he).1
        rw [show m.pc + UInt16.ofNat 0 = m.pc from UInt16.add_zero _] at hfirst
        exact h.pc ▸ hfirst
      have hoperand : m.memory.operandAt e m.pc = m'.memory.operandAt e m'.pc := by
        rw [← h.pc]
        exact operandAt_agree he hfetched
      rw [step_of_decode? hstate hd, step_of_decode? hstate' (hopcode ▸ hd), ← hoperand,
        storedCells_perform]
      have hdone := (perform_agree (h.past e) e _ fun a ha =>
        hread a (List.mem_append_right _ ha)).counted
      exact ⟨hdone.trace, hdone.processor, hdone.memory⟩

/-- The next `n` steps of two machines are the same, and lead to memories that
agree wherever they did at first and wherever a step wrote. -/
structure RunsAlike (n : Nat) (m m' : Machine) : Prop where
  trace : ∀ k < n, (iterate k m).step.1 = (iterate k m').step.1
  processor : ∀ k ≤ n, SameProcessor (iterate k m) (iterate k m')
  memory : ∀ a, Agree m m' a ∨ m.Writes n a → Agree (iterate n m) (iterate n m') a

theorem Writes.mono {n k : Nat} {a : Address} (h : m.Writes n a) (hle : n ≤ k) : m.Writes k a :=
  let ⟨j, hj, hmem⟩ := h
  ⟨j, by omega, hmem⟩

theorem ReadsFirst.mono {n k : Nat} {a : Address} (h : m.ReadsFirst n a) (hle : n ≤ k) :
    m.ReadsFirst k a :=
  let ⟨j, hj, hmem⟩ := h
  ⟨j, by omega, hmem⟩

/-- The last of some steps writes a cell unless one of the others did. -/
theorem writes_succ_iff {n : Nat} {a : Address} :
    m.Writes (n + 1) a ↔ m.Writes n a ∨ a ∈ (iterate n m).writtenCells := by
  constructor
  · rintro ⟨k, hk, hmem⟩
    rcases Nat.lt_or_eq_of_le (Nat.le_of_lt_succ hk) with hlt | rfl
    · exact .inl ⟨k, hlt, hmem⟩
    · exact .inr hmem
  · rintro (h | hmem)
    · exact h.mono (Nat.le_succ n)
    · exact ⟨n, Nat.lt_succ_self n, hmem⟩

/-- **Execution depends only on what it reads.** Take two machines that are the
same but for their memories, and any number of steps. If the memories agree on
each cell that one of these steps of the first machine reads before any of them
has written it, the two make the same steps. -/
theorem runs_alike {n : Nat} (h : SameProcessor m m')
    (hread : ∀ a, m.ReadsFirst n a → Agree m m' a) : RunsAlike n m m' := by
  induction n with
  | zero =>
    refine ⟨fun k hk => absurd hk (Nat.not_lt_zero k), fun k hk => ?_, fun a ha => ?_⟩
    · obtain rfl := Nat.le_zero.1 hk
      exact h
    · exact ha.resolve_right fun ⟨k, hk, _⟩ => Nat.not_lt_zero k hk
  | succ n ih =>
    have hbefore := ih fun a ha => hread a (ha.mono (Nat.le_succ n))
    -- What the last step reads was written on the way, or is read here first.
    have hlast : ∀ a ∈ (iterate n m).readCells, Agree (iterate n m) (iterate n m') a := by
      intro a ha
      by_cases hwritten : m.Writes n a
      · exact hbefore.memory a (.inr hwritten)
      · exact hbefore.memory a (.inl (hread a ⟨n, Nat.lt_succ_self n, ha, hwritten⟩))
    have hstep := step_agree (hbefore.processor n (Nat.le_refl n)) hlast
    refine ⟨fun k hk => ?_, fun k hk => ?_, fun a ha => ?_⟩
    · rcases Nat.lt_or_eq_of_le (Nat.le_of_lt_succ hk) with hlt | rfl
      · exact hbefore.trace k hlt
      · exact hstep.trace
    · rcases Nat.lt_or_eq_of_le hk with hlt | rfl
      · exact hbefore.processor k (Nat.le_of_lt_succ hlt)
      · rw [iterate_succ, iterate_succ]
        exact hstep.processor
    · rw [iterate_succ, iterate_succ]
      refine hstep.memory a ?_
      rw [writes_succ_iff, ← or_assoc] at ha
      refine ha.imp (hbefore.memory a) fun hmem => ?_
      simpa [writtenCells] using hmem

/-- Stores A in a cell, and loads B from there. -/
def storeThenLoad : Program := ⟨[⟨"STA", .direct 0x30⟩, ⟨"LDB", .direct 0x30⟩]⟩

/-- The same program over other data. -/
def staleData : Machine :=
  { ofProgram storeThenLoad with
    memory := ((ofProgram storeThenLoad).memory.write 0x30 0x55).write 0x1000 0x77 }

theorem storeThenLoad_runs_alike : RunsAlike 2 (ofProgram storeThenLoad) staleData := by
  have hsize : storeThenLoad.size < 0x8000 := by decide
  have hpc := Program.ofProgram_pc hsize
  have hloaded := Program.loaded_ofProgram hsize
  have hstep := hloaded.step (k := 0) (e := ⟨0x97, .sta, .direct, 2⟩) rfl hpc rfl rfl
  have hnext := hloaded.next (k := 0) (e := ⟨0x97, .sta, .direct, 2⟩) rfl hpc rfl rfl
  have hread : (ofProgram storeThenLoad).readCells = [0, 1] := by
    rw [readCells_of_loaded (k := 0) (e := ⟨0x97, .sta, .direct, 2⟩) hloaded rfl hpc rfl rfl, hpc]
    rfl
  have hstored : (ofProgram storeThenLoad).step.1.storedCells = [0x30] := by rw [hstep]; rfl
  have hread' : (ofProgram storeThenLoad).step.2.readCells = [2, 3, 0x30] := by
    have hspared : storeThenLoad.Loaded (ofProgram storeThenLoad).step.2.memory :=
      hloaded.spared (by rw [hstored]; exact List.forall_mem_singleton.2 (by decide))
    rw [show (ofProgram storeThenLoad).step.1.landing? = none by rw [hstep]; rfl] at hnext
    have hpc' : (ofProgram storeThenLoad).step.2.pc = 2 := (Option.some.inj hnext).symm
    rw [readCells_of_loaded (k := 1) (e := ⟨0xD6, .ldb, .direct, 2⟩) hspared (by rw [hstep]; rfl) hpc'
      rfl rfl, hpc']
    rfl
  refine runs_alike ⟨rfl, rfl, rfl⟩ fun a ⟨k, hk, hmem, hunwritten⟩ => ?_
  have hother : a ≠ 0x30 ∧ a ≠ 0x1000 := by
    rcases (by omega : k = 0 ∨ k = 1) with rfl | rfl
    · rw [iterate, hread] at hmem
      constructor <;> rintro rfl <;> exact absurd hmem (by decide)
    · have hram : a ≠ 0x30 := by
        rintro rfl
        refine hunwritten ⟨0, Nat.one_pos, ?_⟩
        rw [iterate, writtenCells, hstored]
        decide
      rw [iterate, iterate, hread'] at hmem
      refine ⟨hram, ?_⟩
      rintro rfl
      exact absurd hmem (by decide)
  rw [Agree, staleData, Memory.read_write, if_neg fun h => hother.2 h.1, Memory.read_write,
    if_neg fun h => hother.1 h.1]

end Machine

end Mc6809
