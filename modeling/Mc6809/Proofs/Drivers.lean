/-
Everything that drives a machine follows one trajectory. A run, a run request,
the page and the debugger each have a loop of their own, which looks for the
halt before a step or after it and counts in its own way. Each loop is opened
once, along its recursion, and comes to the same: the steps of `Machine.trail`
as many as `Machine.Makes` allows, and what the loop tells of each.
-/
import Mc6809.Debugger
import Mc6809.Invocation.Execution
import Mc6809.Proofs.Machine.Trajectory
import Mc6809.Simulator

namespace Mc6809

open Machine (iterate trail traces)

namespace Output

/-- The line that an output puts out, if it is one. -/
def line? : Output → Option String
  | .line text => some text
  | _ => none

/-- The record of the log that an output is, if it is one. -/
def record? : Output → Option Log.Record
  | .record r => some r
  | _ => none

/-- What the log shows of an output, if that is a record. -/
def entry? (o : Output) : Option Log.Entry := o.record?.map (·.event.entry)

end Output

/-- An entry of the log that warns of a limit of steps. -/
def Log.Entry.WarnsOfLimit (entry : Log.Entry) : Prop :=
  entry.level = .warn ∧ entry.message = "Step limit reached, stopping"

theorem InvocationEvent.entry_stepLimit (steps : ℕ) :
    (stepLimit steps).entry =
      ⟨.warn, .running, "Step limit reached, stopping", [⟨"steps", toString steps⟩]⟩ := rfl

/-- What a machine warns of. -/
theorem MachineEvent.message_of_warn {e : MachineEvent} (h : e.entry.level = .warn) :
    e.entry.message = "Program does not fit in RAM" ∨ e.entry.message = "Invalid opcode, halting" := by
  cases e with
  | doesNotFit loadEnd => exact .inl rfl
  | invalidOpcode address opcode => exact .inr rfl
  | _ => cases h

/-- The trace that a record of the debugger tells. -/
def Log.Record.trace? (r : Log.Record) : Option Trace :=
  match r.event with
  | .debugger (.traced t) => some t
  | _ => none

namespace Machine

/-- No record that the machine makes of a step is one of the debugger. -/
theorem filterMap_trace?_stepRecorded (spans : List Log.Span) (m : Machine) :
    (m.stepRecorded spans).1.filterMap Log.Record.trace? = [] := by
  simp [stepRecorded, Log.Record.ofMachine, List.filterMap_map, Log.Record.trace?, Function.comp_def]

end Machine

/-! ## Run requests -/

def Execution.after (outputs : List Output) (e : Execution) : Execution :=
  { e with outputs := outputs ++ e.outputs }

namespace RunRequest

variable {r : RunRequest} {m : Machine}

/-- The most steps that are asked for, `⊤` if there is no limit. -/
def stepLimit (r : RunRequest) : ℕ∞ := r.maxSteps?.elim ⊤ fun limit => (limit : ℕ∞)

theorem isExhausted_iff {count : ℕ} : r.isExhausted count = true ↔ r.stepLimit ≤ count := by
  unfold isExhausted stepLimit
  cases r.maxSteps? <;> simp

theorem stepLimit_sub_succ {count : ℕ} (h : r.isExhausted count = false) :
    r.stepLimit - count = r.stepLimit - (count + 1 : ℕ) + 1 := by
  unfold isExhausted at h
  unfold stepLimit
  cases hlimit : r.maxSteps? with
  | none =>
    simp only [Option.elim_none]
    rw [ENat.top_sub_natCast, ENat.top_sub_natCast, top_add]
  | some limit =>
    rw [hlimit, Option.any_some, decide_eq_false_iff_not] at h
    have hsucc : limit - count = limit - (count + 1) + 1 := by omega
    simp only [Option.elim_some]
    rw [← ENat.natCast_sub, ← ENat.natCast_sub, hsucc, Nat.cast_add, Nat.cast_one]

def stepOutputs (r : RunRequest) (m : Machine) : List Output :=
  (m.stepRecorded r.spans).1.map .record ++ if r.trace then [.line m.step.1.text] else []

/-- Once there is nothing more to execute, fuel does not matter. -/
theorem execute_of_done {fuel count : ℕ} (h : m.isHalted = true ∨ r.isExhausted count = true) :
    r.execute fuel count m = r.execute 0 count m := by
  unfold execute
  rcases h with h | h
  · rw [if_pos h, if_pos h]
  · rw [if_pos h, if_pos h]

theorem execute_of_running {fuel count : ℕ} (h : m.isHalted = false)
    (hlimit : r.isExhausted count = false) :
    r.execute (fuel + 1) count m =
      (r.execute fuel (count + 1) m.step.2).after (r.stepOutputs m) := by
  rw [execute, h, hlimit, ← m.stepRecorded_step r.spans, if_neg Bool.false_ne_true,
    if_neg Bool.false_ne_true]
  simp only [Execution.after, stepOutputs, ← m.stepRecorded_step r.spans]

/-- An execution is the steps it makes, and then one that makes none. -/
theorem execute_of_makes {fuel count n : ℕ} (h : m.Makes (min fuel (r.stepLimit - count)) n) :
    r.execute fuel count m =
      (r.execute 0 (count + n) (iterate n m)).after ((trail n m).flatMap r.stepOutputs) := by
  induction fuel generalizing count n m with
  | zero =>
    rw [Nat.cast_zero, min_eq_left zero_le] at h
    obtain rfl : n = 0 := h.unique m.makes_zero
    rfl
  | succ fuel ih =>
    cases hhalted : m.isHalted with
    | true =>
      obtain rfl : n = 0 := h.unique (Machine.makes_of_isHalted hhalted _)
      exact execute_of_done (.inl hhalted)
    | false =>
      cases hlimit : r.isExhausted count with
      | true =>
        rw [tsub_eq_zero_of_le (isExhausted_iff.1 hlimit), min_eq_right zero_le] at h
        obtain rfl : n = 0 := h.unique m.makes_zero
        exact execute_of_done (.inr hlimit)
      | false =>
        rw [stepLimit_sub_succ hlimit, Nat.cast_add, Nat.cast_one, min_add_add_right] at h
        obtain ⟨n, rfl, hn⟩ := h.of_running hhalted
        have hcount : count + 1 + n = count + (n + 1) := by omega
        rw [execute_of_running hhalted hlimit, ih hn, hcount, Machine.trail_succ, List.flatMap_cons,
          iterate]
        simp only [Execution.after, List.append_assoc]

/-- What is told where an execution may come to its end: the limit, if it is reached
before the halt. -/
def limitOutputs (r : RunRequest) (count : ℕ) (m : Machine) : List Output :=
  if !m.isHalted && r.isExhausted count then [.ofInvocation (.stepLimit count)] else []

/-- An execution makes no step when it starts with no fuel; it stops there if the
machine is halted or the limit reached, and warns of the latter only. -/
theorem execute_zero (r : RunRequest) (count : ℕ) (m : Machine) :
    r.execute 0 count m =
      { outputs := r.limitOutputs count m
        count := count
        machine := m
        stopped := m.isHalted || r.isExhausted count } := by
  rw [execute, limitOutputs]
  cases m.isHalted <;> cases r.isExhausted count <;> rfl

/-! ### What an execution tells -/

theorem filterMap_line?_stepOutputs (r : RunRequest) (m : Machine) :
    (r.stepOutputs m).filterMap Output.line? = if r.trace then [m.step.1.text] else [] := by
  have hrecords : ((m.stepRecorded r.spans).1.map Output.record).filterMap Output.line? = [] := by
    simp [List.filterMap_map, Output.line?, Function.comp_def]
  rw [stepOutputs, List.filterMap_append, hrecords, List.nil_append]
  split <;> rfl

theorem filterMap_line?_trail (r : RunRequest) (n : ℕ) (m : Machine) :
    ((trail n m).flatMap r.stepOutputs).filterMap Output.line? =
      if r.trace then (traces n m).map Trace.text else [] := by
  rw [List.filterMap_flatMap, traces, List.map_map]
  simp only [filterMap_line?_stepOutputs]
  split
  · exact (List.map_eq_flatMap ..).symm
  · simp

theorem filterMap_line?_limitOutputs (r : RunRequest) (count : ℕ) (m : Machine) :
    (r.limitOutputs count m).filterMap Output.line? = [] := by
  rw [limitOutputs]
  split <;> rfl

theorem stepLimit_not_mem_stepOutputs (r : RunRequest) (m : Machine) (n : ℕ) :
    Output.ofInvocation (.stepLimit n) ∉ r.stepOutputs m := by
  unfold stepOutputs Output.ofInvocation Log.Record.ofInvocation
  split <;> simp [Machine.stepRecorded, Log.Record.ofMachine]

theorem stepLimit_mem_limitOutputs_iff {count n : ℕ} :
    Output.ofInvocation (.stepLimit n) ∈ r.limitOutputs count m ↔
      (!m.isHalted && r.isExhausted count) = true ∧ n = count := by
  rw [limitOutputs]
  split
  next h => simp [h, Output.ofInvocation, Log.Record.ofInvocation]
  next h => simp [h]

/-- No step is told of as the limit is. -/
theorem not_warnsOfLimit_stepOutputs {entry : Log.Entry}
    (h : entry ∈ (r.stepOutputs m).filterMap Output.entry?) : ¬ entry.WarnsOfLimit := by
  obtain ⟨o, ho, hentry⟩ := List.mem_filterMap.1 h
  rcases List.mem_append.1 ho with ho | ho
  · obtain ⟨record, hrecord, rfl⟩ := List.mem_map.1 ho
    obtain ⟨e, -, rfl⟩ := List.mem_map.1 hrecord
    cases hentry
    rintro ⟨hlevel, hmessage⟩
    rcases MachineEvent.message_of_warn hlevel with hother | hother
    · exact absurd (hmessage.symm.trans hother) (by decide)
    · exact absurd (hmessage.symm.trans hother) (by decide)
  · split at ho
    · obtain rfl := List.mem_singleton.1 ho
      cases hentry
    · cases ho

theorem mem_entries_limitOutputs_iff {count : ℕ} {entry : Log.Entry} :
    entry ∈ (r.limitOutputs count m).filterMap Output.entry? ↔
      (!m.isHalted && r.isExhausted count) = true ∧ entry = (InvocationEvent.stepLimit count).entry := by
  rw [limitOutputs]
  split
  next h =>
    rw [and_iff_right h]
    exact List.mem_singleton
  next h => simp [h]

/-- Whatever steps there were, the limit is warned of where it is told of. -/
theorem warnsOfLimit_iff {count n : ℕ} {m' : Machine} {entry : Log.Entry} :
    entry ∈ ((trail n m).flatMap r.stepOutputs ++ r.limitOutputs count m').filterMap Output.entry? ∧
        entry.WarnsOfLimit ↔
      (!m'.isHalted && r.isExhausted count) = true ∧
        entry = (InvocationEvent.stepLimit count).entry := by
  rw [List.filterMap_append, List.mem_append, List.filterMap_flatMap, ← mem_entries_limitOutputs_iff]
  constructor
  · rintro ⟨hstep | hlimit, hwarns⟩
    · obtain ⟨_, -, hstep⟩ := List.mem_flatMap.1 hstep
      exact absurd hwarns (not_warnsOfLimit_stepOutputs hstep)
    · exact hlimit
  · intro hlimit
    refine ⟨.inr hlimit, ?_⟩
    rw [(mem_entries_limitOutputs_iff.1 hlimit).2]
    exact ⟨rfl, rfl⟩

/-- The execution makes as many steps as fuel, limit and halt allow, puts out
their traces if asked to, and warns if it is the limit that stops it. -/
structure Follows (r : RunRequest) (fuel : ℕ) (m : Machine) (e : Execution) : Prop where
  count : m.Makes (min fuel r.stepLimit) e.count
  machine : e.machine = iterate e.count m
  lines : e.outputs.filterMap Output.line? = if r.trace then (traces e.count m).map Trace.text else []
  stopped : e.stopped = true ↔ min r.stepLimit m.haltTime ≤ fuel
  warning : ∀ n, Output.ofInvocation (.stepLimit n) ∈ e.outputs ↔
    e.stopped = true ∧ r.stepLimit < m.haltTime ∧ n = e.count
  /-- What the log shows of it is a warning, and this tells the steps made. -/
  logged : (∃ entry ∈ e.outputs.filterMap Output.entry?, entry.WarnsOfLimit) ↔
    e.stopped = true ∧ r.stepLimit < m.haltTime
  entry : ∀ entry ∈ e.outputs.filterMap Output.entry?, entry.WarnsOfLimit →
    entry = ⟨.warn, .running, "Step limit reached, stopping", [⟨"steps", toString e.count⟩]⟩

/-- The execution stops unless the fuel comes to its end first. -/
theorem stops_iff {fuel n : ℕ} (h : m.Makes (min fuel r.stepLimit) n) :
    ((iterate n m).isHalted || r.isExhausted n) = true ↔ min r.stepLimit m.haltTime ≤ fuel := by
  have hmin : (n : ℕ∞) = min (fuel : ℕ∞) (min r.stepLimit m.haltTime) := h.trans (min_assoc _ _ _)
  rw [Bool.or_eq_true, ← Machine.haltTime_le_iff, isExhausted_iff, or_comm, ← min_le_iff, hmin,
    le_min_iff]
  exact and_iff_left le_rfl

/-- It is the limit that stops it if that is less than the steps up to the halt. -/
theorem warns_iff {fuel n : ℕ} (h : m.Makes (min fuel r.stepLimit) n) :
    (!(iterate n m).isHalted && r.isExhausted n) = true ↔
      min r.stepLimit m.haltTime ≤ fuel ∧ r.stepLimit < m.haltTime := by
  have hle : (n : ℕ∞) ≤ r.stepLimit := h.le.trans ((min_le_left _ _).trans (min_le_right _ _))
  rw [← stops_iff h, Bool.and_eq_true, Bool.or_eq_true, Bool.not_eq_true', ← Machine.lt_haltTime_iff,
    ← Machine.haltTime_le_iff, isExhausted_iff]
  constructor
  · rintro ⟨hrun, hlimit⟩
    exact ⟨.inr hlimit, hlimit.trans_lt hrun⟩
  · rintro ⟨hhalted | hlimit, hlt⟩
    · exact absurd (hhalted.trans hle) hlt.not_ge
    · exact ⟨hle.trans_lt hlt, hlimit⟩

theorem execute_follows (r : RunRequest) (fuel : ℕ) (m : Machine) :
    r.Follows fuel m (r.execute fuel 0 m) := by
  have hfinite : min (min (fuel : ℕ∞) r.stepLimit) m.haltTime ≠ ⊤ :=
    ne_top_of_le_ne_top (ENat.natCast_ne_top fuel) ((min_le_left _ _).trans (min_le_left _ _))
  obtain ⟨n, hn⟩ := Machine.exists_makes hfinite
  have hexecute : r.execute fuel 0 m =
      (r.execute 0 (0 + n) (iterate n m)).after ((trail n m).flatMap r.stepOutputs) :=
    execute_of_makes (by rwa [Nat.cast_zero, tsub_zero])
  rw [Nat.zero_add, execute_zero] at hexecute
  rw [hexecute]
  simp only [Execution.after]
  exact {
    count := hn
    machine := rfl
    lines := by
      rw [List.filterMap_append, filterMap_line?_trail, filterMap_line?_limitOutputs, List.append_nil]
    stopped := stops_iff hn
    warning := by
      intro k
      have hsteps : Output.ofInvocation (.stepLimit k) ∉ (trail n m).flatMap r.stepOutputs := by
        simp [stepLimit_not_mem_stepOutputs]
      rw [List.mem_append, or_iff_right hsteps, stops_iff hn, ← and_assoc, ← warns_iff hn]
      exact stepLimit_mem_limitOutputs_iff
    logged := by
      rw [stops_iff hn, ← warns_iff hn]
      constructor
      · rintro ⟨entry, hentry⟩
        exact (warnsOfLimit_iff.1 hentry).1
      · intro h
        exact ⟨_, warnsOfLimit_iff.2 ⟨h, rfl⟩⟩
    entry := by
      intro entry hentry hwarns
      rw [(warnsOfLimit_iff.1 ⟨hentry, hwarns⟩).2, InvocationEvent.entry_stepLimit] }

end RunRequest

/-! ## The page -/

theorem Simulator.run_of_makes {m : Machine} {limit n : ℕ} (h : m.Makes limit n) :
    Simulator.run limit ⟨m⟩ = (traces n m, ⟨iterate n m⟩) := by
  induction limit generalizing n m with
  | zero =>
    obtain rfl : n = 0 := h.unique m.makes_zero
    rfl
  | succ limit ih =>
    cases hhalted : m.isHalted with
    | true =>
      obtain rfl : n = 0 := h.unique (Machine.makes_of_isHalted hhalted _)
      simp [run, halted, hhalted, traces, Machine.trail_zero, iterate]
    | false =>
      rw [Nat.cast_succ] at h
      obtain ⟨n, rfl, hn⟩ := h.of_running hhalted
      simp [run, halted, step, hhalted, ih hn, traces, Machine.trail_succ, iterate]

/-! ## The debugger -/

namespace Debugger

open Log

variable {m : Machine}

/-- What the debugger tells of one step. -/
def stepRecords (m : Machine) : List Record :=
  (m.stepRecorded []).1 ++ .ofDebugger (.traced m.step.1) ::
    if m.step.1.isHalt then [.ofDebugger (.halted m.step.2.pc)] else []

theorem step_eq (m : Machine) (breakpoints : List Address) (cursor? : Option Address) :
    step ⟨m, breakpoints, cursor?⟩ =
      (stepRecords m, m.step.1, ⟨m.step.2, breakpoints, none⟩) := by
  rw [step, stepRecords, ← m.stepRecorded_step []]

theorem filterMap_trace?_stepRecords (m : Machine) :
    (stepRecords m).filterMap Record.trace? = [m.step.1] := by
  rw [stepRecords, List.filterMap_append, Machine.filterMap_trace?_stepRecorded, List.nil_append]
  split <;> rfl

theorem filterMap_trace?_trail (n : ℕ) (m : Machine) :
    ((trail n m).flatMap stepRecords).filterMap Record.trace? = traces n m := by
  rw [List.filterMap_flatMap, traces, List.map_eq_flatMap]
  simp only [filterMap_trace?_stepRecords]

/-- Stepping stops after the trace that halts, which is where the machine is halted. -/
theorem stepTimes_of_makes {count n : ℕ} (h : m.Makes count n) (hrun : m.isHalted = false)
    (breakpoints : List Address) (cursor? : Option Address) :
    ∃ last?, stepTimes count ⟨m, breakpoints, cursor?⟩ =
      ((trail n m).flatMap stepRecords, ⟨iterate n m, breakpoints, last?⟩) := by
  induction count generalizing n m cursor? with
  | zero =>
    obtain rfl : n = 0 := h.unique m.makes_zero
    exact ⟨cursor?, rfl⟩
  | succ count ih =>
    rw [Nat.cast_succ] at h
    obtain ⟨n, rfl, hn⟩ := h.of_running hrun
    rw [stepTimes, step_eq, Machine.trail_succ, List.flatMap_cons, iterate]
    simp only [Machine.isHalt_step hrun]
    cases hnext : m.step.2.isHalted with
    | true =>
      obtain rfl : n = 0 := hn.unique (Machine.makes_of_isHalted hnext _)
      exact ⟨none, by simp [Machine.trail_zero, iterate]⟩
    | false =>
      obtain ⟨last?, hlast⟩ := ih hn hnext none
      exact ⟨last?, by simp [hlast]⟩

/-- Without breakpoints, going on stops at the halt only. -/
theorem resume_of_makes {limit n : ℕ} (h : m.Makes limit n) (cursor? : Option Address) :
    ∃ last?, resume limit ⟨m, [], cursor?⟩ =
      ⟨(trail n m).flatMap stepRecords, n, ⟨iterate n m, [], last?⟩, (iterate n m).isHalted⟩ := by
  induction limit generalizing n m cursor? with
  | zero =>
    obtain rfl : n = 0 := h.unique m.makes_zero
    exact ⟨cursor?, rfl⟩
  | succ limit ih =>
    rw [resume]
    cases hhalted : m.isHalted with
    | true =>
      obtain rfl : n = 0 := h.unique (Machine.makes_of_isHalted hhalted _)
      exact ⟨cursor?, by simp [Machine.trail_zero, iterate, hhalted]⟩
    | false =>
      rw [Nat.cast_succ] at h
      obtain ⟨n, rfl, hn⟩ := h.of_running hhalted
      obtain ⟨last?, hlast⟩ := ih hn none
      refine ⟨last?, ?_⟩
      simp [step_eq, isBreakpoint, hlast, Machine.trail_succ, iterate]

/-- A command to step tells the steps up to its number or to the halt. -/
theorem execute_step_of_makes {count n : ℕ} (h : m.Makes count n) (breakpoints : List Address)
    (cursor? : Option Address) (limit : ℕ) :
    ∃ records last?, execute ⟨m, breakpoints, cursor?⟩ limit (.step count) =
        (records, ⟨iterate n m, breakpoints, last?⟩, .prompt) ∧
      records.filterMap Record.trace? = traces n m := by
  rw [execute]
  cases hhalted : m.isHalted with
  | true =>
    obtain rfl : n = 0 := h.unique (Machine.makes_of_isHalted hhalted _)
    exact ⟨_, cursor?, rfl, rfl⟩
  | false =>
    obtain ⟨last?, hlast⟩ := stepTimes_of_makes h hhalted breakpoints cursor?
    exact ⟨_, last?, by simp only [hlast]; rfl, filterMap_trace?_trail n m⟩

/-- Going on without breakpoints tells the steps up to the halt. -/
theorem execute_resume_of_makes {limit n : ℕ} (h : m.Makes limit n) (cursor? : Option Address) :
    ∃ records last?, execute ⟨m, [], cursor?⟩ limit .resume =
        (records, ⟨iterate n m, [], last?⟩,
          if (iterate n m).isHalted then .prompt else .resuming n) ∧
      records.filterMap Record.trace? = traces n m := by
  rw [execute]
  cases hhalted : m.isHalted with
  | true =>
    obtain rfl : n = 0 := h.unique (Machine.makes_of_isHalted hhalted _)
    exact ⟨[.ofDebugger .stillHalted], cursor?, by simp [iterate, hhalted], rfl⟩
  | false =>
    obtain ⟨last?, hlast⟩ := resume_of_makes h cursor?
    simp only [Bool.false_eq_true, if_false, proceed, hlast, Nat.zero_add]
    split
    · refine ⟨_, last?, rfl, ?_⟩
      rw [List.filterMap_append, filterMap_trace?_trail]
      exact List.append_nil _
    · exact ⟨_, last?, rfl, filterMap_trace?_trail n m⟩

end Debugger

namespace Machine

/-- Each driver makes the steps of the machine up to its halt, no more of them
than its own bound allows, and tells the traces of just these. -/
structure DriversFollow (m : Machine) : Prop where
  run : ∀ fuel n final, m.run fuel = some (n, final) ↔
    (n : ℕ∞) = m.haltTime ∧ n ≤ fuel ∧ final = iterate n m
  terminates : (∃ fuel, (m.run fuel).isSome = true) ↔ m.haltTime ≠ ⊤
  request : ∀ (r : RunRequest) (fuel : ℕ), r.Follows fuel m (r.execute fuel 0 m)
  page : ∀ limit : ℕ, ∃ n, m.Makes limit n ∧
    (Simulator.run limit ⟨m⟩).1 = traces n m ∧
    (Simulator.run limit ⟨m⟩).2.machine = iterate n m ∧
    ((Simulator.run limit ⟨m⟩).2.halted = true ↔ m.haltTime ≤ limit)
  step : ∀ (breakpoints : List Address) (cursor? : Option Address) (limit count : ℕ),
    ∃ n records last?, m.Makes count n ∧
      Debugger.execute ⟨m, breakpoints, cursor?⟩ limit (.step count) =
        (records, ⟨iterate n m, breakpoints, last?⟩, .prompt) ∧
      records.filterMap Log.Record.trace? = traces n m
  resume : ∀ (cursor? : Option Address) (limit : ℕ),
    ∃ n records last? flow, m.Makes limit n ∧
      Debugger.execute ⟨m, [], cursor?⟩ limit .resume =
        (records, ⟨iterate n m, [], last?⟩, flow) ∧
      records.filterMap Log.Record.trace? = traces n m ∧
      (flow = .prompt ↔ m.haltTime ≤ limit)

/-- **Every driver follows the same trajectory**, that of single steps. -/
theorem drivers_follow (m : Machine) : m.DriversFollow where
  run _ _ _ := run_eq_some_iff
  terminates := by
    constructor
    · rintro ⟨fuel, hfuel⟩ htop
      obtain ⟨⟨n, final⟩, hrun⟩ := Option.isSome_iff_exists.1 hfuel
      exact ENat.natCast_ne_top n ((run_eq_some_iff.1 hrun).1.trans htop)
    · intro hfinite
      obtain ⟨n, hn⟩ := ENat.ne_top_iff_exists.1 hfinite
      exact ⟨n, Option.isSome_iff_exists.2 ⟨_, run_eq_some_iff.2 ⟨hn, le_rfl, rfl⟩⟩⟩
  request r fuel := r.execute_follows fuel m
  page limit := by
    obtain ⟨n, hn⟩ := m.exists_makes_nat limit
    rw [Simulator.run_of_makes hn]
    exact ⟨n, hn, rfl, rfl, hn.isHalted_iff⟩
  step breakpoints cursor? limit count := by
    obtain ⟨n, hn⟩ := m.exists_makes_nat count
    obtain ⟨records, last?, hexecute, htold⟩ :=
      Debugger.execute_step_of_makes hn breakpoints cursor? limit
    exact ⟨n, records, last?, hn, hexecute, htold⟩
  resume cursor? limit := by
    obtain ⟨n, hn⟩ := m.exists_makes_nat limit
    obtain ⟨records, last?, hexecute, htold⟩ := Debugger.execute_resume_of_makes hn cursor?
    refine ⟨n, records, last?, _, hn, hexecute, htold, ?_⟩
    rw [← hn.isHalted_iff]
    split <;> simp_all

end Machine

end Mc6809
