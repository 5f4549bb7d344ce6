/-
Assembled programs, run as they are written. While the stores of a run spare
the program and its branches land on its instructions (`Program.Respects`),
the program stays loaded and the program counter stays on the boundaries
between instructions (`Program.OnTrack`), step by step and so for the whole
run. On a boundary a step is the instruction written there (`Loaded.step`).
-/
import Mc6809.Proofs.Assembler.Language
import Mc6809.Proofs.Machine.Step
import Mc6809.Proofs.Program.Loading

namespace Mc6809

/-- The operand as an instruction of this size carries it: two bytes leave
room for the low byte of an immediate value only. -/
def Operand.cut (size : Nat) : Operand → Operand
  | .immediate v => .immediate (if size = 3 then v else (Word.low v).toUInt16)
  | operand => operand

namespace Trace

/-- The cells that a step stored to. -/
def storedCells : Trace → List Address
  | executed mnemonic operand _ => mnemonic.storedCells operand
  | _ => []

/-- Where a branch went, if it was taken. -/
def landing? : Trace → Option Address
  | branched _ target true => some target
  | _ => none

end Trace

/-- The traces of an instruction at an address. -/
inductive Instruction.Traces (i : Instruction) (address : Address) : Trace → Prop
  | executed {mnemonic : Mnemonic} (hname : mnemonic.name = i.mnemonic)
      (hplain : mnemonic.isBranch = false) :
      Traces i address (.executed mnemonic (i.operand.cut i.size) i.size)
  | branched {mnemonic : Mnemonic} (hname : mnemonic.name = i.mnemonic)
      (hbranch : mnemonic.isBranch = true) (taken : Bool) :
      Traces i address
        (.branched mnemonic (address + 2 + Word.signExtend (Word.low i.operand.value)) taken)

/-- A step stores to no cell of the program, nor to the one after it, and lands
on a boundary if it branches. -/
def Program.Respects (p : Program) (t : Trace) : Prop :=
  (∀ cell ∈ t.storedCells, p.size < cell.toNat) ∧ ∀ target, t.landing? = some target → target ∈ p.boundaries

/-! ## Fetching what was written -/

/-- The opcode found in memory is that of the entry the instruction was encoded by. -/
theorem Memory.At.decode? {m : Memory} {address : Address} {i : Instruction} {e : Encoding}
    (h : m.At address i.bytes) (he : i.encoding? = some e) :
    Encoding.decode? (m.read address) = some e := by
  rw [Instruction.bytes_eq, Instruction.opcode_of_known he] at h
  rw [h.1]
  exact Encoding.decode?_opcode (Instruction.encoding?_eq_some_iff.1 he).1

/-- The operand found in memory is the one written, as far as it was encoded. -/
theorem Memory.At.operandAt {m : Memory} {address : Address} {i : Instruction} {e : Encoding}
    (h : m.At address i.bytes) (he : i.encoding? = some e) :
    m.operandAt e address = i.operand.cut i.size := by
  obtain ⟨hmem, -, hmode⟩ := Instruction.encoding?_eq_some_iff.1 he
  obtain ⟨hinherent, hdirect, hextended, himmediate⟩ := Encoding.size_of_mode hmem
  rw [Instruction.bytes_eq, Instruction.size_of_known he] at h
  rw [Instruction.size_of_known he]
  unfold Memory.operandAt
  cases hoperand : i.operand with
  | inherent =>
    rw [hoperand] at hmode
    rw [hmode]
    rfl
  | direct a =>
    rw [hoperand] at hmode h
    rw [hdirect hmode] at h
    have hread : m.read (address + 1) = Word.low a.toUInt16 := h.2.1
    have hlow : Word.low a.toUInt16 = a := UInt8.toUInt8_toUInt16 a
    rw [hmode, hread, hlow]
    rfl
  | extended a =>
    rw [hoperand] at hmode h
    rw [hextended hmode] at h
    have hhigh : m.read (address + 1) = Word.high a := h.2.1
    have hlow : m.read (address + 1 + 1) = Word.low a := h.2.2.1
    rw [hmode]
    simp only [Memory.readWord, hhigh, hlow, Word.ofBytes_high_low]
    rfl
  | immediate v =>
    rw [hoperand] at hmode h
    rw [hmode]
    rcases himmediate hmode with hsize | hsize
    · rw [hsize] at h
      have hread : m.read (address + 1) = Word.low v := h.2.1
      simp only [Operand.mode, hsize, hread, Operand.cut, if_neg (by decide : ¬ 2 = 3)]
    · rw [hsize] at h
      have hhigh : m.read (address + 1) = Word.high v := h.2.1
      have hlow : m.read (address + 1 + 1) = Word.low v := h.2.2.1
      simp only [Operand.mode, hsize, Memory.readWord, hhigh, hlow, Word.ofBytes_high_low,
        Operand.cut, if_true]

namespace Machine

/-- At the byte that ends programs, a step halts past it. -/
theorem step_of_sentinel {m : Machine} (h : m.state = .running)
    (hread : m.memory.read m.pc = Encoding.sentinel) :
    m.step = (.ended, (m.setPc (m.pc + 1)).halt.counted) := by
  have hd : Encoding.decode? (m.memory.read m.pc) = some ⟨Encoding.sentinel, .stop, .inherent, 1⟩ := by
    rw [hread]
    rfl
  rw [step_of_decode? h hd]
  rfl

theorem storedCells_perform (m : Machine) (e : Encoding) (operand : Operand) :
    (m.perform e operand).1.storedCells = e.mnemonic.storedCells operand := by
  obtain ⟨opcode, mnemonic, mode, size⟩ := e
  cases mnemonic <;> rfl

/-- A step changes no cell but those its trace stores to. -/
theorem read_step {m : Machine} {address : Address} (h : address ∉ m.step.1.storedCells) :
    m.step.2.memory.read address = m.memory.read address := by
  cases hstate : m.state with
  | halted => rw [step_of_isHalted (isHalted_eq_true.2 hstate)]
  | running =>
    cases hd : Encoding.decode? (m.memory.read m.pc) with
    | none => rw [step_of_no_entry hstate hd]; rfl
    | some e =>
      rw [step_of_decode? hstate hd, storedCells_perform] at h
      rw [step_of_decode? hstate hd]
      exact read_perform (m.past e) h

/-- An instruction is followed by the place its branch landed at, or by the next one. -/
theorem pc_perform (m : Machine) (e : Encoding) (operand : Operand) :
    (m.perform e operand).2.pc = (m.perform e operand).1.landing?.getD m.pc := by
  rw [perform_pc, perform_trace]
  by_cases hstop : e.mnemonic = .stop
  · rw [hstop, if_pos rfl]
    rfl
  · rw [if_neg hstop]
    cases hbranch : e.mnemonic.isBranch with
    | false => rfl
    | true =>
      rw [Bool.true_and, if_pos rfl]
      cases m.takes e.mnemonic <;> rfl

end Machine

namespace Program

variable {p : Program} {m : Machine} {k : Nat} {i : Instruction} {e : Encoding}

/-- A step on an instruction of a loaded program carries out that instruction. -/
theorem Loaded.step (h : p.Loaded m.memory) (hrun : m.state = .running)
    (hpc : m.pc = UInt16.ofNat (p.offset k)) (hi : p.instructions[k]? = some i)
    (he : i.encoding? = some e) :
    m.step = (((m.past e).perform e (i.operand.cut i.size)).1,
      ((m.past e).perform e (i.operand.cut i.size)).2.counted) := by
  obtain ⟨hk, rfl⟩ := List.getElem?_eq_some_iff.1 hi
  have hat := h.instruction hk
  rw [← hpc] at hat
  rw [Machine.step_of_decode? hrun (hat.decode? he), hat.operandAt he]

/-- A step on an instruction that the table does not have ends the program. -/
theorem Loaded.step_unknown (h : p.Loaded m.memory) (hrun : m.state = .running)
    (hpc : m.pc = UInt16.ofNat (p.offset k)) (hi : p.instructions[k]? = some i)
    (he : i.encoding? = none) : m.step = (.ended, (m.setPc (m.pc + 1)).halt.counted) := by
  obtain ⟨hk, rfl⟩ := List.getElem?_eq_some_iff.1 hi
  have hat := h.instruction hk
  rw [← hpc, Instruction.bytes_eq, Instruction.opcode_of_unknown he] at hat
  exact Machine.step_of_sentinel hrun hat.1

theorem Loaded.step_last (h : p.Loaded m.memory) (hrun : m.state = .running)
    (hpc : m.pc = UInt16.ofNat p.size) : m.step = (.ended, (m.setPc (m.pc + 1)).halt.counted) :=
  Machine.step_of_sentinel hrun (hpc ▸ h.last)

/-- A program stays loaded when a step spares it. -/
theorem Loaded.spared (h : p.Loaded m.memory)
    (hspares : ∀ cell ∈ m.step.1.storedCells, p.size < cell.toNat) : p.Loaded m.step.2.memory := by
  refine h.frame fun address hle => Machine.read_step fun hmem => ?_
  have := hspares address hmem
  omega

theorem past_pc (hpc : m.pc = UInt16.ofNat (p.offset k)) (hi : p.instructions[k]? = some i)
    (he : i.encoding? = some e) : (m.past e).pc = UInt16.ofNat (p.offset (k + 1)) := by
  obtain ⟨hk, rfl⟩ := List.getElem?_eq_some_iff.1 hi
  rw [Machine.past, Machine.setPc_pc, hpc, p.offset_succ hk, UInt16.ofNat_add,
    Instruction.size_of_known he]

theorem low_value_cut (size : Nat) (operand : Operand) :
    Word.low (operand.cut size).value = Word.low operand.value := by
  cases operand with
  | immediate v =>
    by_cases hsize : size = 3
    · rw [Operand.cut, if_pos hsize]
    · rw [Operand.cut, if_neg hsize]
      exact UInt8.toUInt8_toUInt16 _
  | _ => rfl

theorem Loaded.traces (h : p.Loaded m.memory) (hrun : m.state = .running)
    (hpc : m.pc = UInt16.ofNat (p.offset k)) (hi : p.instructions[k]? = some i)
    (he : i.encoding? = some e) (hstop : e.mnemonic ≠ .stop) : i.Traces m.pc m.step.1 := by
  obtain ⟨hmem, hname, -⟩ := Instruction.encoding?_eq_some_iff.1 he
  rw [h.step hrun hpc hi he, Machine.perform_trace, if_neg hstop]
  cases hbranch : e.mnemonic.isBranch with
  | false =>
    rw [if_neg (by decide), ← Instruction.size_of_known he]
    exact .executed hname hbranch
  | true =>
    have hsize : e.size = 2 := (Encoding.size_of_mode hmem).2.1 (Encoding.mode_of_branch hmem hbranch)
    rw [if_pos rfl, Machine.branchTarget, branchTarget, low_value_cut, Machine.past, Machine.setPc_pc,
      hsize]
    exact .branched hname hbranch _

/-- A step on an instruction goes where its branch landed, or to the next boundary. -/
theorem Loaded.next (h : p.Loaded m.memory) (hrun : m.state = .running)
    (hpc : m.pc = UInt16.ofNat (p.offset k)) (hi : p.instructions[k]? = some i)
    (he : i.encoding? = some e) :
    m.step.1.landing?.or p.boundaries[k + 1]? = some m.step.2.pc := by
  have hlt : k < p.instructions.length := (List.getElem?_eq_some_iff.1 hi).1
  have hnext : m.step.2.pc = m.step.1.landing?.getD (UInt16.ofNat (p.offset (k + 1))) := by
    rw [h.step hrun hpc hi he, ← past_pc hpc hi he]
    exact Machine.pc_perform _ _ _
  rw [hnext, getElem?_boundaries p hlt]
  cases m.step.1.landing? <;> rfl

/-! ## Staying on track -/

/-- Every instruction can be carried out, and none of them ends the program. -/
def Encodable (p : Program) : Prop :=
  ∀ i ∈ p.instructions, ∃ e, i.encoding? = some e ∧ e.mnemonic ≠ .stop

/-- The program is loaded, and the processor is at a boundary of it unless it is halted. -/
structure OnTrack (p : Program) (m : Machine) : Prop where
  loaded : p.Loaded m.memory
  pc : m.state = .running → ∃ k ≤ p.instructions.length, m.pc = UInt16.ofNat (p.offset k)

theorem onTrack_ofProgram (hsize : p.size < 0x8000) : p.OnTrack (Machine.ofProgram p) where
  loaded := loaded_ofProgram hsize
  pc := fun _ => ⟨0, Nat.zero_le _, ofProgram_pc hsize⟩

/-- A step that respects the program stays on track. -/
theorem OnTrack.step (hp : p.Encodable) (h : p.OnTrack m) (hrespects : p.Respects m.step.1) :
    p.OnTrack m.step.2 := by
  refine ⟨h.loaded.spared hrespects.1, fun hrun => ?_⟩
  cases hstate : m.state with
  | halted =>
    rw [Machine.step_of_isHalted (Machine.isHalted_eq_true.2 hstate), hstate] at hrun
    cases hrun
  | running =>
    obtain ⟨k, hk, hpc⟩ := h.pc hstate
    rcases Nat.lt_or_eq_of_le hk with hlt | rfl
    · have hi : p.instructions[k]? = some p.instructions[k] := List.getElem?_eq_getElem hlt
      obtain ⟨e, he, -⟩ := hp _ (List.mem_of_getElem? hi)
      have hnext := h.loaded.next hstate hpc hi he
      rw [← mem_boundaries_iff]
      cases hlanding : m.step.1.landing? with
      | some target =>
        rw [hlanding, Option.some_or] at hnext
        exact Option.some.inj hnext ▸ hrespects.2 target hlanding
      | none =>
        rw [hlanding, Option.none_or] at hnext
        exact List.mem_of_getElem? hnext
    · -- The step off the end halts the processor.
      rw [offset_length] at hpc
      rw [h.loaded.step_last hstate hpc] at hrun
      cases hrun

end Program

namespace Machine

theorem iterate_succ (n : Nat) (m : Machine) : iterate (n + 1) m = (iterate n m).step.2 := by
  induction n generalizing m with
  | zero => rfl
  | succ n ih => rw [iterate, ih, ← iterate]

end Machine

namespace Program

variable {p : Program}

theorem onTrack_iterate (hp : p.Encodable) (hsize : p.size < 0x8000) {n : Nat}
    (hrespects : ∀ k < n, p.Respects (Machine.iterate k (.ofProgram p)).step.1) :
    p.OnTrack (Machine.iterate n (.ofProgram p)) := by
  induction n with
  | zero => exact onTrack_ofProgram hsize
  | succ n ih =>
    rw [Machine.iterate_succ]
    exact (ih fun k hk => hrespects k (by omega)).step hp (hrespects n (by omega))

/-- No line of a source is the end of the program and an instruction of it. -/
theorem not_stop_of_assemble {source : String} (h : assemble source = .ok p) {i : Instruction}
    (hi : i ∈ p.instructions) {e : Encoding} (he : i.encoding? = some e) : e.mnemonic ≠ .stop := by
  intro hstop
  obtain ⟨hmem, hname, hmode⟩ := Instruction.encoding?_eq_some_iff.1 he
  have hinherent : e.mode = .inherent := Encoding.mode_of_stop hmem hstop
  have hoperand : i.operand = .inherent := by
    rw [hinherent] at hmode
    cases hop : i.operand <;> first | rfl | (rw [hop] at hmode; cases hmode)
  have halone := mem_aloneNames_of_assemble h hi hoperand
  rw [← hname, hstop] at halone
  revert halone
  decide

theorem encodable_of_assemble {source : String} (h : assemble source = .ok p)
    (hknown : ∀ i ∈ p.instructions, i.isKnown = true) : p.Encodable := fun i hi =>
  let ⟨e, he⟩ := Instruction.isKnown_iff.1 (hknown i hi)
  ⟨e, he, not_stop_of_assemble h hi he⟩

/-- The next step is the one written where the processor is: an instruction,
which is traced as it stands and leads to its branch target or to the boundary
after it, or the end of the program. -/
structure StepsAsWritten (p : Program) (m : Machine) : Prop where
  boundary : m.pc ∈ p.boundaries
  instruction : ∀ k address i, p.layout[k]? = some (address, i) → m.pc = address →
    i.Traces address m.step.1 ∧ m.step.1.landing?.or p.boundaries[k + 1]? = some m.step.2.pc
  last : m.pc = UInt16.ofNat p.size → m.step.1 = .ended

theorem OnTrack.stepsAsWritten {m : Machine} (hp : p.Encodable) (h : p.OnTrack m)
    (hrun : m.state = .running) : p.StepsAsWritten m where
  boundary := p.mem_boundaries_iff.2 (h.pc hrun)
  instruction := fun k address i hlayout haddress => by
    have hk : k < p.instructions.length := p.length_layout ▸ (List.getElem?_eq_some_iff.1 hlayout).1
    rw [p.getElem?_layout hk] at hlayout
    cases hlayout
    have hi : p.instructions[k]? = some p.instructions[k] := List.getElem?_eq_getElem hk
    obtain ⟨e, he, hstop⟩ := hp _ (List.mem_of_getElem? hi)
    refine ⟨?_, h.loaded.next hrun haddress hi he⟩
    rw [← haddress]
    exact h.loaded.traces hrun haddress hi he hstop
  last := fun hpc => by rw [h.loaded.step_last hrun hpc]

/-- **Assembled programs execute as written.** Take any source that assembles
to instructions that are all in the table and fit in RAM, and any number of
steps from its start, each of which respects the program. Unless the processor
is halted by then, the next step is the one written where it is. -/
theorem executes_as_written {source : String} (h : assemble source = .ok p)
    (hknown : ∀ i ∈ p.instructions, i.isKnown = true) (hsize : p.size < 0x8000) {n : Nat}
    (hrespects : ∀ k < n, p.Respects (Machine.iterate k (.ofProgram p)).step.1)
    (hrun : (Machine.iterate n (.ofProgram p)).state = .running) :
    p.StepsAsWritten (Machine.iterate n (.ofProgram p)) :=
  have hp := encodable_of_assemble h hknown
  (onTrack_iterate hp hsize hrespects).stepsAsWritten hp hrun

/-- Stores A after the program, again and again. -/
def storeLoop : Program := ⟨[⟨"STA", .direct 0x80⟩, ⟨"BRA", .direct 0xFC⟩]⟩

theorem storeLoop_executes_as_written :
    storeLoop.StepsAsWritten (Machine.iterate 1 (.ofProgram storeLoop)) := by
  have hassemble : assemble "STA $80\nBRA $FC\nEND" = .ok storeLoop := rfl
  have hsize : storeLoop.size < 0x8000 := by decide
  have hstep := (loaded_ofProgram hsize).step (k := 0) (e := ⟨0x97, .sta, .direct, 2⟩) rfl
    (ofProgram_pc hsize) rfl rfl
  refine executes_as_written hassemble (by decide) hsize (fun k hk => ?_) ?_
  · obtain rfl : k = 0 := by omega
    rw [Machine.iterate, hstep]
    refine ⟨fun cell hcell => ?_, fun target htarget => by cases htarget⟩
    obtain rfl : cell = 0x80 := List.mem_singleton.1 hcell
    decide
  · rw [Machine.iterate_succ, Machine.iterate, hstep]
    rfl

end Program

end Mc6809
