/-
What the log says of a stop. A command to go on stops at the halt or at a
breakpoint. It says that the processor halted just when it did, and that a
breakpoint was reached just when the program counter is at one
(`stop_reasons`).

The two do not exclude one another: a processor that halts is already past the
opcode that halted it, and the breakpoints are looked up all the same. So a
breakpoint on the byte after the end of a program is told of as well
(`breakPastEnd_told_twice`); any other stop has one reason.
-/
import Mc6809.Proofs.Debugger.Continuation
import Mc6809.Proofs.Machine.Halting
import Mc6809.Proofs.Program.Terminator

namespace Mc6809

/-! ## What records say -/

namespace Log

/-- Some record says this. -/
def Says (records : List Record) (message : String) : Prop :=
  ∃ r ∈ records, r.event.entry.message = message

/-- What is said of a stop. -/
def stopMessages : List String := ["Processor halted", "Breakpoint reached"]

/-- A text with a character that is in none of the messages on a stop. -/
def IsOther (text : String) : Prop := ∃ c ∈ text.toList, ∀ message ∈ stopMessages, c ∉ message.toList

instance (text : String) : Decidable (IsOther text) := List.decidableBEx _ text.toList

variable {records more : List Record} {message text : String}

theorem IsOther.append (h : IsOther text) (after : String) : IsOther (text ++ after) := by
  obtain ⟨c, hc, hother⟩ := h
  refine ⟨c, ?_, hother⟩
  rw [String.toList_append]
  exact List.mem_append_left _ hc

theorem IsOther.append_left (h : IsOther text) (before : String) : IsOther (before ++ text) := by
  obtain ⟨c, hc, hother⟩ := h
  refine ⟨c, ?_, hother⟩
  rw [String.toList_append]
  exact List.mem_append_right _ hc

theorem IsOther.ne (h : IsOther text) (hmessage : message ∈ stopMessages) : text ≠ message := by
  rintro rfl
  obtain ⟨c, hc, hother⟩ := h
  exact hother _ hmessage hc

theorem not_says_nil : ¬ Says [] message := by simp [Says]

theorem says_cons {r : Record} :
    Says (r :: records) message ↔ r.event.entry.message = message ∨ Says records message := by
  simp only [Says, List.mem_cons, or_and_right, exists_or, exists_eq_left]

theorem says_append : Says (records ++ more) message ↔ Says records message ∨ Says more message := by
  simp only [Says, List.mem_append, or_and_right, exists_or]

theorem says_flatMap {α : Type} {xs : List α} {f : α → List Record} :
    Says (xs.flatMap f) message ↔ ∃ x ∈ xs, Says (f x) message := by
  induction xs with
  | nil => simp [Says]
  | cons x xs ih => rw [List.flatMap_cons, says_append, ih, List.exists_mem_cons_iff]

end Log

open Log

/-- Every text of a trace has an upper-case letter other than `B` and `P`. -/
theorem Trace.isOther_text (t : Trace) : IsOther t.text := by
  have hname : ∀ mnemonic : Mnemonic, IsOther mnemonic.name := by
    intro mnemonic
    cases mnemonic <;> decide
  cases t with
  | executed mnemonic operand size => exact (hname mnemonic).append _
  | branched mnemonic target taken =>
    have htext : ∃ more, text (.branched mnemonic target taken) = mnemonic.name ++ " $" ++ more := by
      cases mnemonic with
      | bra => exact ⟨Word.hex target, rfl⟩
      | _ => cases taken <;> exact ⟨_, String.append_assoc⟩
    obtain ⟨more, htext⟩ := htext
    rw [htext]
    exact ((hname mnemonic).append _).append more
  | ended | halted => decide
  | invalidOpcode opcode => exact IsOther.append (by decide) _

/-- No machine speaks of stops as the debugger does. -/
theorem MachineEvent.isOther_message (e : MachineEvent) : IsOther e.entry.message := by
  have hfixed : ∀ text ∈ ["Reset", "Loading instruction", "Program does not fit in RAM",
      "Program loaded", "Computer ready", "Ignoring write to ROM", "Invalid opcode, halting"],
      IsOther text := by decide
  cases e with
  | reset | loading | doesNotFit | loaded | ready | ignoredRomWrite | invalidOpcode =>
    exact hfixed _ (by simp [entry])
  | added current value =>
    have hsign : IsOther (toString current ++ " + ") := IsOther.append_left (by decide) _
    exact ((hsign.append _).append _).append _
  | subtracted current value =>
    have hsign : IsOther (toString current ++ " - ") := IsOther.append_left (by decide) _
    exact ((hsign.append _).append _).append _
  | jumped target => exact IsOther.append (by decide) _
  | stepped address trace => exact trace.isOther_text
  | registers r => exact IsOther.append (by decide) _

namespace Machine

variable {m : Machine}

/-- A processor that halts is past the opcode that halted it, and that is one byte. -/
theorem pc_of_halts (hrun : m.isHalted = false) (h : m.step.2.isHalted = true) :
    m.step.2.pc = m.pc + 1 := by
  have hstate := isHalted_eq_false.1 hrun
  rw [isHalted_eq_true] at h
  cases hd : Encoding.decode? (m.memory.read m.pc) with
  | none =>
    rw [step_of_no_entry hstate hd]
    rfl
  | some e =>
    have hmem := (Encoding.mem_of_decode? hd).1
    have hstops := perform_state (m.past e) e (m.memory.operandAt e m.pc)
    rw [step_of_decode? hstate hd] at h ⊢
    have hstop : e.mnemonic = .stop := by
      by_contra hne
      rw [if_neg hne] at hstops
      cases (hstops.symm.trans h).symm.trans hstate
    have hsize : e.size = 1 := (Encoding.size_of_mode hmem).1 (Encoding.mode_of_stop hmem hstop)
    have hpc : ((m.past e).perform e (m.memory.operandAt e m.pc)).2.pc = (m.past e).pc := by
      rw [perform_pc, hstop]
      rfl
    refine hpc.trans ?_
    rw [past, hsize]
    rfl

end Machine

namespace Debugger

open Machine (iterate trail)

variable {d d' : Debugger} {m : Machine} {k limit : ℕ} {records : List Record} {message : String}

/-! ## What a stop says -/

theorem not_says_ofMachine (hmessage : message ∈ stopMessages) (spans : List Span)
    (events : List MachineEvent) : ¬ Says (Record.ofMachine spans events) message := by
  rintro ⟨r, hr, hsays⟩
  obtain ⟨e, -, rfl⟩ := List.mem_map.1 hr
  exact e.isOther_message.ne hmessage hsays

theorem says_stepRecords (hmessage : message ∈ stopMessages) :
    Says (stepRecords m) message ↔ message = "Processor halted" ∧ m.step.2.isHalted = true := by
  have hmachine : ¬ Says (m.stepRecorded []).1 message := not_says_ofMachine hmessage _ _
  have htrace : (Record.ofDebugger (.traced m.step.1)).event.entry.message ≠ message :=
    m.step.1.isOther_text.ne hmessage
  rw [stepRecords, says_append, says_cons, or_iff_right hmachine, or_iff_right htrace]
  cases hhalt : m.step.1.isHalt with
  | true =>
    have hhalted := Machine.isHalted_eq_true.2 (Machine.isHalt_step_iff.1 hhalt)
    rw [if_pos rfl, says_cons, or_iff_left not_says_nil, and_iff_left hhalted]
    exact eq_comm
  | false =>
    have hrun : m.step.2.isHalted ≠ true := fun h =>
      Bool.false_ne_true (hhalt.symm.trans (Machine.isHalt_step_iff.2 (Machine.isHalted_eq_true.1 h)))
    rw [if_neg Bool.false_ne_true]
    exact iff_of_false not_says_nil fun h => hrun h.2

/-- Steps say of a stop only that the last of them halted the processor. -/
theorem says_trail (hmessage : message ∈ stopMessages) (hk : 0 < k) :
    Says ((trail k m).flatMap stepRecords) message ↔
      message = "Processor halted" ∧ (iterate k m).isHalted = true := by
  simp only [says_flatMap, says_stepRecords hmessage, trail, List.mem_map, List.mem_range,
    exists_exists_and_eq_and, ← Machine.iterate_succ]
  constructor
  · rintro ⟨j, hj, rfl, hhalted⟩
    exact ⟨rfl, Machine.isHalted_iterate_of_le hhalted hj⟩
  · rintro ⟨rfl, hhalted⟩
    obtain ⟨j, rfl⟩ := Nat.exists_eq_add_one.2 hk
    exact ⟨j, Nat.lt_succ_self j, rfl, hhalted⟩

theorem says_breakpointRecords :
    Says d.breakpointRecords message ↔ message = "Breakpoint reached" ∧ d.machine.pc ∈ d.breakpoints := by
  rw [breakpointRecords, ← isBreakpoint_iff]
  split
  next hat =>
    rw [says_cons, or_iff_left not_says_nil, and_iff_left hat]
    exact eq_comm
  next hat => exact iff_of_false not_says_nil fun h => hat h.2

theorem says_stopRecords (hmessage : message ∈ stopMessages) (hk : 0 < k) :
    Says (d.stopRecords k) message ↔
      message = "Processor halted" ∧ (d.after k).machine.isHalted = true ∨
        message = "Breakpoint reached" ∧ (d.after k).machine.pc ∈ d.breakpoints := by
  have hresumed : ¬ Says [.ofDebugger (.resumed k)] message := by
    have hother : IsOther "Resumed execution" := by decide
    rw [says_cons, or_iff_left not_says_nil]
    exact hother.ne hmessage
  rw [stopRecords, says_append, says_append, or_iff_left hresumed, says_trail hmessage hk,
    says_breakpointRecords]
  rfl

/-- What a command to go on says when it comes to its end, and what it leads to. -/
structure StopReasons (d d' : Debugger) (records : List Record) : Prop where
  breakpoints : d'.breakpoints = d.breakpoints
  halted : Says records "Processor halted" ↔ d'.machine.isHalted = true
  reached : Says records "Breakpoint reached" ↔ d'.machine.pc ∈ d'.breakpoints
  told : Says records "Processor halted" ∨ Says records "Breakpoint reached"
  /-- A halt is told of the byte after the opcode that halted the processor. -/
  past : d'.machine.isHalted = true → ∃ n, (iterate n d.machine).isHalted = false ∧
    d'.machine = (iterate n d.machine).step.2 ∧ d'.machine.pc = (iterate n d.machine).pc + 1
  /-- If there is no breakpoint at that byte, the stop has one reason. -/
  single : (d'.machine.isHalted = true → d'.machine.pc ∉ d'.breakpoints) →
    (Says records "Breakpoint reached" ↔
        d'.machine.isHalted = false ∧ d'.machine.pc ∈ d'.breakpoints) ∧
      ¬ (Says records "Processor halted" ∧ Says records "Breakpoint reached")

/-- **What is said of a stop** is what it is. -/
theorem stop_reasons (hrun : d.machine.isHalted = false)
    (h : d.execute limit .resume = (records, d', .prompt)) : StopReasons d d' records := by
  obtain ⟨k, hk, rfl, rfl⟩ := exists_isLeast_of_execute hrun h
  have hpos : 0 < k := hk.1.1
  have hhalted : Says (d.stopRecords k) "Processor halted" ↔ (d.after k).machine.isHalted = true := by
    rw [says_stopRecords (by decide) hpos]
    simp
  have hreached : Says (d.stopRecords k) "Breakpoint reached" ↔
      (d.after k).machine.pc ∈ (d.after k).breakpoints := by
    rw [says_stopRecords (by decide) hpos]
    simp [after]
  refine ⟨rfl, hhalted, hreached, ?_, fun hhalt => ?_, fun hsingle => ⟨?_, ?_⟩⟩
  · rw [hhalted, hreached]
    exact hk.1.2
  · obtain ⟨n, rfl⟩ := Nat.exists_eq_add_one.2 hpos
    have hbefore : (iterate n d.machine).isHalted = false := by
      refine Bool.eq_false_iff.2 fun hearly => ?_
      rcases Nat.eq_zero_or_pos n with rfl | hn
      · exact Bool.false_ne_true (hrun.symm.trans hearly)
      · exact absurd (hk.2 ⟨hn, .inl hearly⟩) (by omega)
    rw [machine_after, Machine.iterate_succ] at hhalt ⊢
    exact ⟨n, hbefore, rfl, Machine.pc_of_halts hbefore hhalt⟩
  · rw [hreached]
    exact ⟨fun hat => ⟨Bool.eq_false_iff.2 fun hhalt => hsingle hhalt hat, hat⟩, And.right⟩
  · rw [hhalted, hreached]
    exact fun hboth => hsingle hboth.1 hboth.2

/-! ## The first step -/

/-- A stop with the first step is the first one. -/
theorem isLeast_one (h : (d.after 1).AtStop) : IsLeast {n | d.StopsAfter n} 1 :=
  ⟨stopsAfter_one.2 h, fun _ hn => hn.1⟩

/-- Two instructions that do nothing, and a breakpoint at the second. -/
def breakSecond : Debugger := ⟨.ofProgram (.nops 2), [0x0001], none⟩

theorem breakSecond_stop_reasons :
    breakSecond.machine.isHalted = false ∧
      breakSecond.execute 1 .resume = (breakSecond.stopRecords 1, breakSecond.after 1, .prompt) ∧
      Says (breakSecond.stopRecords 1) "Breakpoint reached" ∧
      ¬ Says (breakSecond.stopRecords 1) "Processor halted" := by
  have hstart : breakSecond.machine.isHalted = false := rfl
  have hnext : (breakSecond.after 1).machine =
      { (Machine.ofProgram (.nops 2)).setPc (UInt16.ofNat 1) with steps := 1 } := by
    rw [machine_after, breakSecond, Program.iterate_nops (by decide) (by decide)]
  have hpc : (breakSecond.after 1).machine.pc ∈ breakSecond.breakpoints := by
    rw [hnext]
    exact List.mem_singleton.2 rfl
  have hexecute := execute_of_isLeast hstart (isLeast_one (.inr hpc)) le_rfl
  have hstop := stop_reasons hstart hexecute
  refine ⟨hstart, hexecute, hstop.reached.2 hpc, fun hsays => ?_⟩
  have hhalted := hstop.halted.1 hsays
  rw [hnext] at hhalted
  cases hhalted

/-- An empty program, and a breakpoint at the byte after its end. -/
def breakPastEnd : Debugger := ⟨.ofProgram (.nops 0), [0x0001], none⟩

/-- The processor halts before it gets to the breakpoint, and both are told. -/
theorem breakPastEnd_told_twice :
    breakPastEnd.machine.isHalted = false ∧ ∃ records d',
      breakPastEnd.execute 1 .resume = (records, d', .prompt) ∧ d'.machine.isHalted = true ∧
      Says records "Processor halted" ∧ Says records "Breakpoint reached" := by
  have hstart : breakPastEnd.machine.isHalted = false := rfl
  have hsize : (Program.nops 0).size < 0x8000 := by decide
  have hstep := (Program.loaded_ofProgram hsize).step_last rfl (Program.ofProgram_pc hsize)
  have hnext : (breakPastEnd.after 1).machine =
      ((Machine.ofProgram (.nops 0)).setPc ((Machine.ofProgram (.nops 0)).pc + 1)).halt.counted := by
    rw [machine_after, Machine.iterate_succ, iterate, breakPastEnd, hstep]
  have hhalted : (breakPastEnd.after 1).machine.isHalted = true := by
    rw [hnext]
    rfl
  have hpc : (breakPastEnd.after 1).machine.pc ∈ breakPastEnd.breakpoints := by
    have hpc : (breakPastEnd.after 1).machine.pc = (Machine.ofProgram (.nops 0)).pc + 1 := by
      rw [hnext]
      rfl
    rw [hpc, Program.ofProgram_pc hsize]
    exact List.mem_singleton.2 rfl
  refine ⟨hstart, _, _, execute_of_isLeast hstart (isLeast_one (.inl hhalted)) le_rfl, hhalted, ?_, ?_⟩
  · exact (says_stopRecords (by decide) Nat.one_pos).2 (.inl ⟨rfl, hhalted⟩)
  · exact (says_stopRecords (by decide) Nat.one_pos).2 (.inr ⟨rfl, hpc⟩)

end Debugger

end Mc6809
