/-
The life of a machine between resets. A machine runs from the time it is built
or reset until one step stops it; from then on a step does nothing, whatever is
done to its memory in the meantime, until the next reset. `History` keeps the
steps made so far, and `History.period` says what they look like: that is the
invariant from which the rest follows, the count of steps included.
-/
import Mc6809.Proofs.Machine.Trajectory

namespace Mc6809

/-- A step that found the end of the program or no instruction at all. -/
def Trace.stops : Trace → Bool
  | ended | invalidOpcode _ => true
  | executed .. | branched .. | halted => false

namespace Machine

/-- The steps made with a machine since it was built or last reset, each given
by the machine before it, and the machine as it is now. Between steps its
memory may be changed to any other: by stores, by loading a program. -/
inductive History : List Machine → Machine → Prop
  | built (memory : Memory) : History [] (ofMemory memory)
  | reset {made m} (h : History made m) : History [] m.reset
  | step {made m} (h : History made m) : History (made ++ [m]) m.step.2
  | access {made m} (h : History made m) (memory : Memory) : History made { m with memory := memory }

/-- The steps between two resets, in order, and the state they lead to: steps
that carry out instructions, then at most one that stops the processor, then
steps that do nothing. -/
inductive Period : List Machine → State → Prop
  | running {made} (hrunning : ∀ m ∈ made, m.step.1.isHalt = false) : Period made .running
  | halted {before stop after} (hbefore : ∀ m ∈ before, m.step.1.isHalt = false)
      (hstop : stop.step.1.stops = true) (hafter : ∀ m ∈ after, m.step = (.halted, m)) :
      Period (before ++ stop :: after) .halted

/-- The number of steps among some that were made by a running processor. -/
def stepsMade (made : List Machine) : Nat := made.countP fun m => m.step.1 != .halted

/-- What holds of the steps made since a reset and of the machine they lead to. -/
structure HaltsOnce (made : List Machine) (m : Machine) : Prop where
  /-- A step says whether it leaves the processor halted. -/
  trace : ∀ before ∈ made, before.step.1.isHalt = true ↔ before.step.2.state = .halted
  period : Period made m.state
  run : m.state = .halted → ∀ fuel, m.run fuel = some (0, m)
  steps : m.steps = stepsMade made

variable {m : Machine} {made : List Machine}

/-! ## One step -/

theorem stops_of_isHalt {t : Trace} (h : t.isHalt = true) (hne : t ≠ .halted) : t.stops = true := by
  cases t with
  | executed | branched => cases h
  | ended | invalidOpcode => rfl
  | halted => exact absurd rfl hne

/-- Only a halted processor does nothing. -/
theorem trace_ne_halted (hrun : m.state = .running) : m.step.1 ≠ .halted := by
  cases hd : Encoding.decode? (m.memory.read m.pc) with
  | none =>
    rw [step_of_no_entry hrun hd]
    simp
  | some e =>
    rw [step_of_decode? hrun hd, perform_trace]
    split
    · simp
    · split <;> simp

theorem steps_step_of_running (hrun : m.state = .running) : m.step.2.steps = m.steps + 1 := by
  cases hd : Encoding.decode? (m.memory.read m.pc) with
  | none =>
    rw [step_of_no_entry hrun hd]
    rfl
  | some e =>
    rw [step_of_decode? hrun hd]
    exact congrArg (· + 1) (perform_steps (m.past e) e _)

theorem isHalt_step_iff : m.step.1.isHalt = true ↔ m.step.2.state = .halted := by
  cases hhalted : m.isHalted with
  | true =>
    rw [step_of_isHalted hhalted, isHalted_eq_true.1 hhalted]
    simp [Trace.isHalt]
  | false => rw [isHalt_step hhalted, isHalted_eq_true]

theorem run_of_isHalted (h : m.isHalted = true) (fuel : Nat) : m.run fuel = some (0, m) := by
  cases fuel <;> rw [run, if_pos h]

/-! ## All steps since a reset -/

theorem stepsMade_append (made : List Machine) (m : Machine) :
    stepsMade (made ++ [m]) = stepsMade made + if m.step.1 = .halted then 0 else 1 := by
  rw [stepsMade, List.countP_append, List.countP_singleton]
  by_cases h : m.step.1 = .halted <;> simp [h, stepsMade]

/-- A step either goes on with a period or comes after its end. -/
theorem Period.step (h : Period made m.state) : Period (made ++ [m]) m.step.2.state := by
  cases hstate : m.state with
  | running =>
    rw [hstate] at h
    cases h with
    | running hrunning =>
      have hnext := isHalt_step (isHalted_eq_false.2 hstate)
      cases htrace : m.step.1.isHalt with
      | false =>
        rw [isHalted_eq_false.1 (hnext.symm.trans htrace)]
        refine .running fun b hb => ?_
        rcases List.mem_append.1 hb with hb | hb
        · exact hrunning b hb
        · rw [List.mem_singleton.1 hb]
          exact htrace
      | true =>
        rw [isHalted_eq_true.1 (hnext.symm.trans htrace)]
        exact .halted hrunning (stops_of_isHalt htrace (trace_ne_halted hstate)) (by simp)
  | halted =>
    have hstep := step_of_isHalted (isHalted_eq_true.2 hstate)
    rw [hstate] at h
    rw [hstep, hstate]
    cases h with
    | halted hbefore hstop hafter =>
      rw [List.append_assoc, List.cons_append]
      refine .halted hbefore hstop fun b hb => ?_
      rcases List.mem_append.1 hb with hb | hb
      · exact hafter b hb
      · rw [List.mem_singleton.1 hb]
        exact hstep

theorem History.period (h : History made m) : Period made m.state := by
  induction h with
  | built | reset => exact .running (by simp)
  | step _ ih => exact ih.step
  | access _ _ ih => exact ih

theorem History.steps_eq (h : History made m) : m.steps = stepsMade made := by
  induction h with
  | built | reset => rfl
  | @step made m _ ih =>
    rw [stepsMade_append]
    cases hstate : m.state with
    | running => rw [if_neg (trace_ne_halted hstate), steps_step_of_running hstate, ih]
    | halted =>
      rw [step_of_isHalted (isHalted_eq_true.2 hstate), if_pos rfl]
      exact ih
  | access _ _ ih => exact ih

theorem history_blank : History [] blank := .built Memory.blank

theorem history_ofProgram (p : Program) : History [] (ofProgram p) :=
  (history_blank.access (blank.memory.load p)).reset

/-- **The halting protocol.** Whatever was done to a machine since it was built,
each step told whether it left the processor halted, the steps since the last
reset make up a period, they are counted while the processor is running, and a
halted machine has nothing to run. -/
theorem History.haltsOnce (h : History made m) : HaltsOnce made m where
  trace := fun _ _ => isHalt_step_iff
  period := h.period
  run := fun hhalted => run_of_isHalted (isHalted_eq_true.2 hhalted)
  steps := h.steps_eq

/-- A machine that came to the end of an empty program and then was given an instruction. -/
def lateStore : Machine :=
  { (ofProgram ⟨[]⟩).step.2 with memory := (ofProgram ⟨[]⟩).step.2.memory.write 0x0001 0x12 }

/-- The instruction comes too late to be carried out. -/
theorem step_lateStore :
    lateStore.state = .halted ∧ lateStore.step = (.halted, lateStore) ∧ lateStore.steps = 1 ∧
      ∀ fuel, lateStore.run fuel = some (0, lateStore) := by
  have hsize : (⟨[]⟩ : Program).size < 0x8000 := by decide
  have hended := (Program.loaded_ofProgram hsize).step_last rfl (Program.ofProgram_pc hsize)
  have hhalted : lateStore.state = .halted := by
    rw [lateStore, hended]
    rfl
  obtain ⟨-, -, hrun, hsteps⟩ :=
    ((history_ofProgram ⟨[]⟩).step.access (lateStore.memory)).haltsOnce
  refine ⟨hhalted, step_of_isHalted (isHalted_eq_true.2 hhalted), hsteps.trans ?_, hrun hhalted⟩
  simp [stepsMade, hended]

end Machine

end Mc6809
