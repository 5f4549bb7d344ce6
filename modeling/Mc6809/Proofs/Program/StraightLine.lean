/-
Programs without branches. Up to the first instruction that the table does not
have, a program that neither branches nor stores into itself carries out one
instruction a step, in order (`Arrived.step`); there, or past its last
instruction, it ends. So it is known how long it runs and where it halts.
-/
import Mc6809.Proofs.Machine.Trajectory

namespace Mc6809

namespace Machine

/-- A processor that is halted by its step `k + 1`, and not before, runs for
that many steps, however many more it is given. -/
theorem run_eq {m : Machine} {k fuel : Nat} (hfuel : k < fuel)
    (hrun : ∀ j ≤ k, (iterate j m).state = .running)
    (hhalt : (iterate (k + 1) m).state = .halted) :
    run fuel m = some (k + 1, iterate (k + 1) m) := by
  have hlate : ((k + 1 : ℕ) : ℕ∞) ≤ m.haltTime := by
    rw [Nat.cast_succ, ENat.natCast_add_one_le_iff, lt_haltTime_iff]
    exact isHalted_eq_false.2 (hrun k (Nat.le_refl k))
  have hsoon : m.haltTime ≤ (k + 1 : ℕ) := haltTime_le_iff.2 (isHalted_eq_true.2 hhalt)
  exact run_eq_some_iff.2 ⟨le_antisymm hlate hsoon, hfuel, rfl⟩

end Machine

/-- An instruction that is no branch and stores past `limit` only, if at all. -/
def Instruction.IsStraight (limit : Nat) (i : Instruction) : Prop :=
  ∀ mnemonic, Mnemonic.ofName? i.mnemonic = some mnemonic →
    mnemonic.isBranch = false ∧ ∀ cell ∈ mnemonic.storedCells i.operand, limit < cell.toNat

namespace Program

/-- The number of the first instruction that the table does not have, or the
number of all instructions. -/
def firstUnknown (p : Program) : Nat := p.instructions.findIdx fun i => !i.isKnown

variable {p : Program} {m : Machine} {k : Nat}

theorem firstUnknown_le (p : Program) : p.firstUnknown ≤ p.instructions.length :=
  List.findIdx_le_length

theorem known_of_lt_firstUnknown {i : Instruction} (hk : k < p.firstUnknown)
    (hi : p.instructions[k]? = some i) : ∃ e, i.encoding? = some e := by
  obtain ⟨hlt, rfl⟩ := List.getElem?_eq_some_iff.1 hi
  have h := List.not_of_lt_findIdx hk
  rw [Bool.not_eq_false'] at h
  exact Instruction.isKnown_iff.1 h

theorem unknown_at_firstUnknown {i : Instruction} (hi : p.instructions[p.firstUnknown]? = some i) :
    i.encoding? = none := by
  obtain ⟨hlt, rfl⟩ := List.getElem?_eq_some_iff.1 hi
  have h : (!Instruction.isKnown p.instructions[p.firstUnknown]) = true :=
    List.findIdx_getElem (p := fun i => !Instruction.isKnown i) (w := hlt)
  rw [Bool.not_eq_true', Instruction.isKnown, Option.isSome_eq_false_iff, Option.isNone_iff_eq_none] at h
  exact h

/-- The processor has carried out the first `k` instructions, one a step. -/
structure Arrived (p : Program) (k : Nat) (m : Machine) : Prop where
  loaded : p.Loaded m.memory
  running : m.state = .running
  pc : m.pc = UInt16.ofNat (p.offset k)
  steps : m.steps = k

theorem arrived_ofProgram (hsize : p.size < 0x8000) : p.Arrived 0 (.ofProgram p) where
  loaded := loaded_ofProgram hsize
  running := rfl
  pc := ofProgram_pc hsize
  steps := rfl

theorem storedCells_cut (mnemonic : Mnemonic) (size : Nat) (operand : Operand) :
    mnemonic.storedCells (operand.cut size) = mnemonic.storedCells operand := by
  cases operand <;> cases mnemonic <;> rfl

/-- A straight instruction is carried out, and the next one is arrived at. -/
theorem Arrived.step {i : Instruction} {e : Encoding} (h : p.Arrived k m)
    (hi : p.instructions[k]? = some i) (he : i.encoding? = some e) (hstop : e.mnemonic ≠ .stop)
    (hstraight : i.IsStraight p.size) :
    m.step.1 = .executed e.mnemonic (i.operand.cut i.size) i.size ∧ p.Arrived (k + 1) m.step.2 := by
  have hname : Mnemonic.ofName? i.mnemonic = some e.mnemonic :=
    Mnemonic.ofName?_eq_some_iff.2 (Instruction.encoding?_eq_some_iff.1 he).2.1
  obtain ⟨hbranch, hspares⟩ := hstraight e.mnemonic hname
  have hstep := h.loaded.step h.running h.pc hi he
  have htrace : m.step.1 = .executed e.mnemonic (i.operand.cut i.size) i.size := by
    rw [hstep, Machine.perform_trace, if_neg hstop, hbranch, if_neg (by decide),
      Instruction.size_of_known he]
  have hstate : m.step.2.state = ((m.past e).perform e (i.operand.cut i.size)).2.state := by
    rw [hstep]; rfl
  have hpc : m.step.2.pc = ((m.past e).perform e (i.operand.cut i.size)).2.pc := by rw [hstep]; rfl
  have hsteps : m.step.2.steps = ((m.past e).perform e (i.operand.cut i.size)).2.steps + 1 := by
    rw [hstep]; rfl
  refine ⟨htrace, ?_, ?_, ?_, ?_⟩
  · refine h.loaded.spared fun cell hcell => hspares cell ?_
    rw [htrace] at hcell
    rwa [Trace.storedCells, storedCells_cut] at hcell
  · rw [hstate, Machine.perform_state, if_neg hstop]
    exact h.running
  · rw [hpc, Machine.perform_pc, hbranch, Bool.false_and, if_neg (by decide), past_pc h.pc hi he]
  · rw [hsteps, Machine.perform_steps]
    exact congrArg (· + 1) h.steps

/-- Where the instructions are unknown, or there are none left, the program ends. -/
theorem Arrived.step_ended (h : p.Arrived p.firstUnknown m) :
    m.step = (.ended, (m.setPc (m.pc + 1)).halt.counted) := by
  rcases Nat.lt_or_eq_of_le p.firstUnknown_le with hlt | heq
  · have hi := List.getElem?_eq_getElem hlt
    exact h.loaded.step_unknown h.running h.pc hi (unknown_at_firstUnknown hi)
  · refine h.loaded.step_last h.running ?_
    rw [h.pc, heq, offset_length]

/-- Before the first unknown instruction, a step is traced as the instruction
arrived at. -/
theorem Arrived.step_straight {source : String} {i : Instruction} (h : assemble source = .ok p)
    (hstraight : ∀ i ∈ p.instructions.take p.firstUnknown, i.IsStraight p.size)
    (ha : p.Arrived k m) (hk : k < p.firstUnknown) (hi : p.instructions[k]? = some i) :
    (∃ mnemonic, mnemonic.name = i.mnemonic ∧
      m.step.1 = .executed mnemonic (i.operand.cut i.size) i.size) ∧ p.Arrived (k + 1) m.step.2 := by
  have htake : i ∈ p.instructions.take p.firstUnknown :=
    List.mem_of_getElem? ((List.getElem?_take_of_lt hk).trans hi)
  obtain ⟨e, he⟩ := known_of_lt_firstUnknown hk hi
  have hstop := not_stop_of_assemble h (List.mem_of_getElem? hi) he
  obtain ⟨htrace, hnext⟩ := ha.step hi he hstop (hstraight i htake)
  exact ⟨⟨e.mnemonic, (Instruction.encoding?_eq_some_iff.1 he).2.1, htrace⟩, hnext⟩

/-- Straight instructions are arrived at one after the other, up to the first
unknown one. -/
theorem arrived_iterate {source : String} (h : assemble source = .ok p) (hsize : p.size < 0x8000)
    (hstraight : ∀ i ∈ p.instructions.take p.firstUnknown, i.IsStraight p.size)
    (hk : k ≤ p.firstUnknown) : p.Arrived k (Machine.iterate k (.ofProgram p)) := by
  induction k with
  | zero => exact arrived_ofProgram hsize
  | succ k ih =>
    have hlt : k < p.instructions.length := Nat.lt_of_lt_of_le hk p.firstUnknown_le
    rw [Machine.iterate_succ]
    exact ((ih (by omega)).step_straight h hstraight hk (List.getElem?_eq_getElem hlt)).2

/-- **Straight-line programs.** Take any source that assembles to a program
that fits in RAM, and let `k` be the number of its instructions before the
first one that the table does not have. If these neither branch nor store into
the program or the byte after it, the program runs for `k + 1` steps: one for
each of them, in order, then the end, past the first byte of what follows. -/
theorem run_straight_line {source : String} (h : assemble source = .ok p) (hsize : p.size < 0x8000)
    (hstraight : ∀ i ∈ p.instructions.take p.firstUnknown, i.IsStraight p.size) :
    ∃ final,
      (∀ fuel, p.firstUnknown < fuel →
        Machine.run fuel (.ofProgram p) = some (p.firstUnknown + 1, final)) ∧
      (∀ k i, k < p.firstUnknown → p.instructions[k]? = some i → ∃ mnemonic,
        mnemonic.name = i.mnemonic ∧ (Machine.iterate k (.ofProgram p)).step.1 =
          .executed mnemonic (i.operand.cut i.size) i.size) ∧
      (Machine.iterate p.firstUnknown (.ofProgram p)).step = (.ended, final) ∧
      final.steps = p.firstUnknown + 1 ∧
      p.boundaries[p.firstUnknown]?.map (· + 1) = some final.pc := by
  have harrived : ∀ k ≤ p.firstUnknown, p.Arrived k (Machine.iterate k (.ofProgram p)) := fun k hk =>
    arrived_iterate h hsize hstraight hk
  have hlast := harrived _ (Nat.le_refl _)
  have hfinal : Machine.iterate (p.firstUnknown + 1) (.ofProgram p) =
      ((Machine.iterate p.firstUnknown (.ofProgram p)).setPc
        ((Machine.iterate p.firstUnknown (.ofProgram p)).pc + 1)).halt.counted := by
    rw [Machine.iterate_succ, hlast.step_ended]
  refine ⟨_, fun fuel hfuel => ?_, fun k i hk hi => ?_, hlast.step_ended, ?_, ?_⟩
  · rw [← hfinal]
    refine Machine.run_eq hfuel (fun j hj => (harrived j hj).running) ?_
    rw [hfinal]
    rfl
  · exact ((harrived k (Nat.le_of_lt hk)).step_straight h hstraight hk hi).1
  · exact congrArg (· + 1) hlast.steps
  · rw [getElem?_boundaries p p.firstUnknown_le, ← hlast.pc]
    rfl

/-- `FOO` is no operation, so this loads A and ends there. -/
def loadThenUnknown : Program := ⟨[⟨"LDA", .immediate 5⟩, ⟨"FOO", .direct 0x10⟩]⟩

theorem run_loadThenUnknown : ∃ final, Machine.run 2 (.ofProgram loadThenUnknown) = some (2, final) ∧
    final.steps = 2 ∧ final.pc = 3 := by
  have hassemble : assemble "LDA #$05\nFOO $10\nEND" = .ok loadThenUnknown := rfl
  have hstraight : ∀ i ∈ loadThenUnknown.instructions.take loadThenUnknown.firstUnknown,
      i.IsStraight loadThenUnknown.size := by
    intro i hi mnemonic hname
    obtain rfl : i = ⟨"LDA", .immediate 5⟩ := List.mem_singleton.1 hi
    obtain rfl : .lda = mnemonic := Option.some.inj hname
    exact ⟨rfl, fun cell hcell => by cases hcell⟩
  obtain ⟨final, hrun, -, -, hsteps, hpc⟩ := run_straight_line hassemble (by decide) hstraight
  exact ⟨final, hrun 2 (by decide), hsteps, (Option.some.inj hpc).symm⟩

end Program

end Mc6809
