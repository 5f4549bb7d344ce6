/-
Where a debugger stops. Going on makes steps until one of them leads to a halt
or to a breakpoint (`Debugger.resume_of_isLeast`), for ever if none does. So
the commands to go on, one after the other, stop at the arrivals of the one
trajectory that the machine has without breakpoints, at each of them once and
in order (`Debugger.continues_iff`).
-/
import Mathlib.Data.Nat.Count
import Mathlib.Order.Nat
import Mc6809.Proofs.Drivers

namespace Mc6809

open Machine (iterate trail traces)

namespace Debugger

open Log

/-- The debugger once its machine has made `n` steps. A step ends a listing. -/
def after (d : Debugger) (n : ℕ) : Debugger :=
  ⟨iterate n d.machine, d.breakpoints, if n = 0 then d.listCursor? else none⟩

/-- The processor is halted, or at a breakpoint. -/
def AtStop (d : Debugger) : Prop := d.machine.isHalted = true ∨ d.machine.pc ∈ d.breakpoints

/-- The debugger has something to stop for after `n` steps, and not before the first. -/
def StopsAfter (d : Debugger) (n : ℕ) : Prop := 0 < n ∧ (d.after n).AtStop

/-- A running processor gets to its halt or to a breakpoint with the `n`th step. -/
def Arrives (d : Debugger) : ℕ → Prop
  | 0 => False
  | n + 1 => (iterate n d.machine).isHalted = false ∧ (d.after (n + 1)).AtStop

instance (d : Debugger) : Decidable d.AtStop := inferInstanceAs (Decidable (_ ∨ _))

instance (d : Debugger) : DecidablePred d.StopsAfter := fun _ => inferInstanceAs (Decidable (_ ∧ _))

instance (d : Debugger) : DecidablePred d.Arrives
  | 0 => .isFalse id
  | _ + 1 => inferInstanceAs (Decidable (_ ∧ _))

/-- What is told of a breakpoint that the processor is at. -/
def breakpointRecords (d : Debugger) : List Record :=
  if d.isBreakpoint d.machine.pc then [.ofDebugger (.breakpointReached d.machine.pc)] else []

/-- What a command to go on tells of `n` steps that come to a stop. -/
def stopRecords (d : Debugger) (n : ℕ) : List Record :=
  (trail n d.machine).flatMap stepRecords ++ (d.after n).breakpointRecords ++ [.ofDebugger (.resumed n)]

variable {d d' : Debugger} {k n limit : ℕ}

theorem machine_after (d : Debugger) (n : ℕ) : (d.after n).machine = iterate n d.machine := rfl

theorem after_after (d : Debugger) (j k : ℕ) : (d.after j).after k = d.after (j + k) := by
  cases k with
  | zero => rfl
  | succ k => simp [after, Machine.iterate_add]

theorem isBreakpoint_iff {address : Address} : d.isBreakpoint address = true ↔ address ∈ d.breakpoints :=
  List.contains_iff_mem

/-! ## Going on -/

theorem resume_of_isHalted (h : d.machine.isHalted = true) (limit : ℕ) :
    d.resume limit = ⟨[], 0, d, true⟩ := by
  cases limit with
  | zero => rw [resume, h]
  | succ limit => rw [resume, if_pos h]

theorem step_after (d : Debugger) : d.step = (stepRecords d.machine, d.machine.step.1, d.after 1) :=
  step_eq d.machine d.breakpoints d.listCursor?

theorem resume_of_breakpoint (hrun : d.machine.isHalted = false)
    (hat : (d.after 1).machine.pc ∈ d.breakpoints) (limit : ℕ) :
    d.resume (limit + 1) =
      ⟨stepRecords d.machine ++ (d.after 1).breakpointRecords, 1, d.after 1, true⟩ := by
  have hat : (d.after 1).isBreakpoint (d.after 1).machine.pc = true := isBreakpoint_iff.2 hat
  rw [resume, hrun, step_after, breakpointRecords]
  simp only [hat, Bool.false_eq_true, if_true, if_false]

theorem resume_of_no_breakpoint (hrun : d.machine.isHalted = false)
    (hat : (d.after 1).machine.pc ∉ d.breakpoints) (limit : ℕ) :
    d.resume (limit + 1) =
      { (d.after 1).resume limit with
        records := stepRecords d.machine ++ ((d.after 1).resume limit).records
        count := ((d.after 1).resume limit).count + 1 } := by
  have hat : (d.after 1).isBreakpoint (d.after 1).machine.pc = false :=
    Bool.eq_false_iff.2 fun h => hat (isBreakpoint_iff.1 h)
  rw [resume, hrun, step_after]
  simp only [hat, Bool.false_eq_true, if_false]

theorem breakpointRecords_of_not_mem (h : d.machine.pc ∉ d.breakpoints) : d.breakpointRecords = [] :=
  if_neg fun hat => h (isBreakpoint_iff.1 hat)

theorem stopsAfter_one : d.StopsAfter 1 ↔ (d.after 1).AtStop := and_iff_right Nat.one_pos

theorem stopsAfter_succ (h : 0 < n) : d.StopsAfter (n + 1) ↔ (d.after 1).StopsAfter n := by
  rw [StopsAfter, StopsAfter, after_after, Nat.add_comm 1 n, and_iff_right h, and_iff_right n.succ_pos]

/-- Unless there is a stop at once, the first one is the first from the next step on. -/
theorem isLeast_stopsAfter_succ (hat : ¬ (d.after 1).AtStop) (h : IsLeast {n | d.StopsAfter n} k) :
    ∃ j, k = j + 1 ∧ IsLeast {n | (d.after 1).StopsAfter n} j := by
  obtain ⟨hstop, hleast⟩ := h
  have hone : k ≠ 1 := fun hk => hat (stopsAfter_one.1 (hk ▸ hstop))
  obtain ⟨j, rfl⟩ : ∃ j, k = j + 1 := Nat.exists_eq_add_one.2 hstop.1
  exact ⟨j, rfl, (stopsAfter_succ (by omega)).1 hstop, fun n hn =>
    Nat.le_of_succ_le_succ (hleast ((stopsAfter_succ hn.1).2 hn))⟩

/-- Going on makes the steps up to the first stop. -/
theorem resume_of_isLeast (hrun : d.machine.isHalted = false) (hk : IsLeast {n | d.StopsAfter n} k)
    (hle : k ≤ limit) :
    d.resume limit =
      ⟨(trail k d.machine).flatMap stepRecords ++ (d.after k).breakpointRecords, k, d.after k, true⟩ := by
  induction limit generalizing d k with
  | zero => exact absurd hk.1.1 (by omega)
  | succ limit ih =>
    by_cases hpc : (d.after 1).machine.pc ∈ d.breakpoints
    · obtain rfl : k = 1 := le_antisymm (hk.2 (stopsAfter_one.2 (.inr hpc))) hk.1.1
      rw [resume_of_breakpoint hrun hpc, Machine.trail_succ, Machine.trail_zero, List.flatMap_singleton]
    · rw [resume_of_no_breakpoint hrun hpc]
      cases hnext : (d.after 1).machine.isHalted with
      | true =>
        obtain rfl : k = 1 := le_antisymm (hk.2 (stopsAfter_one.2 (.inl hnext))) hk.1.1
        rw [resume_of_isHalted hnext, breakpointRecords_of_not_mem hpc, Machine.trail_succ,
          Machine.trail_zero, List.flatMap_singleton]
      | false =>
        have hat : ¬ (d.after 1).AtStop := by
          rintro (hhalted | hmem)
          · exact Bool.false_ne_true (hnext.symm.trans hhalted)
          · exact hpc hmem
        obtain ⟨j, rfl, hj⟩ := isLeast_stopsAfter_succ hat hk
        rw [ih hnext hj (Nat.le_of_succ_le_succ hle), after_after, Machine.trail_succ,
          List.flatMap_cons, List.append_assoc, Nat.add_comm 1 j]
        rfl

/-- Without a stop, going on makes all the steps that it may. -/
theorem resume_of_no_stop (hrun : d.machine.isHalted = false) (h : ∀ n ≤ limit, ¬ d.StopsAfter n) :
    d.resume limit =
      ⟨(trail limit d.machine).flatMap stepRecords, limit, d.after limit, false⟩ := by
  induction limit generalizing d with
  | zero => rw [resume, hrun]; rfl
  | succ limit ih =>
    have hat : ¬ (d.after 1).AtStop := fun hat => h 1 (by omega) (stopsAfter_one.2 hat)
    have hnext : ∀ n ≤ limit, ¬ (d.after 1).StopsAfter n := fun n hn hstop =>
      h (n + 1) (by omega) ((stopsAfter_succ hstop.1).2 hstop)
    rw [resume_of_no_breakpoint hrun fun hpc => hat (.inr hpc),
      ih (Bool.eq_false_iff.2 fun hhalted => hat (.inl hhalted)) hnext, after_after,
      Machine.trail_succ, List.flatMap_cons, Nat.add_comm 1 limit]
    rfl

/-- What an unfinished execution adds when it may go on. -/
theorem resume_add (d : Debugger) (limit more : ℕ) :
    d.resume (limit + more) =
      if (d.resume limit).stopped then d.resume limit
      else
        { (d.resume limit).debugger.resume more with
          records := (d.resume limit).records ++ ((d.resume limit).debugger.resume more).records
          count := (d.resume limit).count + ((d.resume limit).debugger.resume more).count } := by
  induction limit generalizing d with
  | zero =>
    cases hhalted : d.machine.isHalted with
    | true => simp only [resume_of_isHalted hhalted, if_true]
    | false => simp [resume, hhalted]
  | succ limit ih =>
    rw [Nat.add_right_comm]
    cases hhalted : d.machine.isHalted with
    | true => simp only [resume_of_isHalted hhalted, if_true]
    | false =>
      by_cases hpc : (d.after 1).machine.pc ∈ d.breakpoints
      · simp only [resume_of_breakpoint hhalted hpc, if_true]
      · simp only [resume_of_no_breakpoint hhalted hpc, ih]
        split
        · rfl
        · simp only [List.append_assoc, Nat.add_right_comm _ 1]

/-- A limit only cuts the execution in pieces: one that is left unfinished and
proceeds is the same as one with a higher limit. -/
theorem proceed_add (d : Debugger) (limit more count : ℕ) :
    d.proceed (limit + more) count =
      match d.proceed limit count with
      | (records, d', .resuming count') =>
        let (others, d'', flow) := d'.proceed more count'
        (records ++ others, d'', flow)
      | done => done := by
  unfold proceed
  rw [resume_add]
  cases hstopped : (d.resume limit).stopped with
  | true => simp only [hstopped, if_true]
  | false =>
    simp only [hstopped, Bool.false_eq_true, if_false]
    split <;> simp only [List.append_assoc, Nat.add_assoc]

/-! ## One command -/

theorem execute_of_isHalted (h : d.machine.isHalted = true) (limit : ℕ) :
    d.execute limit .resume = ([.ofDebugger .stillHalted], d, .prompt) := by
  rw [execute, if_pos h]

theorem execute_of_isLeast (hrun : d.machine.isHalted = false) (hk : IsLeast {n | d.StopsAfter n} k)
    (hle : k ≤ limit) : d.execute limit .resume = (d.stopRecords k, d.after k, .prompt) := by
  rw [execute, hrun, if_neg Bool.false_ne_true, proceed, resume_of_isLeast hrun hk hle, stopRecords]
  simp only [if_true, Nat.zero_add]

theorem execute_of_no_stop (hrun : d.machine.isHalted = false) (h : ∀ n ≤ limit, ¬ d.StopsAfter n) :
    d.execute limit .resume =
      ((trail limit d.machine).flatMap stepRecords, d.after limit, .resuming limit) := by
  rw [execute, hrun, if_neg Bool.false_ne_true, proceed, resume_of_no_stop hrun h]
  simp only [Bool.false_eq_true, if_false, Nat.zero_add]

/-- A command to go on that comes to its end has gone to the first stop. -/
theorem exists_isLeast_of_execute (hrun : d.machine.isHalted = false) {records : List Record}
    (h : d.execute limit .resume = (records, d', .prompt)) :
    ∃ k, IsLeast {n | d.StopsAfter n} k ∧ records = d.stopRecords k ∧ d' = d.after k := by
  by_cases hstop : ∃ n ≤ limit, d.StopsAfter n
  · obtain ⟨n, hn, hstop⟩ := hstop
    have hk := Nat.isLeast_find ⟨n, hstop⟩
    rw [execute_of_isLeast hrun hk ((hk.2 hstop).trans hn), Prod.mk.injEq, Prod.mk.injEq] at h
    exact ⟨_, hk, h.1.symm, h.2.1.symm⟩
  · push Not at hstop
    rw [execute_of_no_stop hrun hstop, Prod.mk.injEq, Prod.mk.injEq] at h
    cases h.2.2

theorem filterMap_trace?_stopRecords (d : Debugger) (n : ℕ) :
    (d.stopRecords n).filterMap Record.trace? = traces n d.machine := by
  have hlast : ((d.after n).breakpointRecords ++
      [Record.ofDebugger (.resumed n)]).filterMap Record.trace? = [] := by
    unfold breakpointRecords
    split <;> rfl
  rw [stopRecords, List.append_assoc, List.filterMap_append, hlast, List.append_nil,
    filterMap_trace?_trail]

/-! ## One command after the other -/

/-- A command to go on comes to its end and leaves the debugger so. -/
def ContinuesTo (d d' : Debugger) : Prop :=
  ∃ limit records, d.execute limit .resume = (records, d', .prompt)

/-- Some commands to go on, one after the other, all come to their ends and
leave the debugger so. -/
inductive Continues (d : Debugger) : ℕ → Debugger → Prop
  | none : Continues d 0 d
  | next {i : ℕ} {d' d'' : Debugger} (h : Continues d i d') (hnext : d'.ContinuesTo d'') :
    Continues d (i + 1) d''

theorem continuesTo_iff_of_isHalted (h : d.machine.isHalted = true) : d.ContinuesTo d' ↔ d' = d := by
  constructor
  · rintro ⟨limit, records, hexecute⟩
    rw [execute_of_isHalted h, Prod.mk.injEq, Prod.mk.injEq] at hexecute
    exact hexecute.2.1.symm
  · rintro rfl
    exact ⟨0, _, execute_of_isHalted h 0⟩

theorem continuesTo_iff_of_running (hrun : d.machine.isHalted = false) :
    d.ContinuesTo d' ↔ ∃ k, IsLeast {n | d.StopsAfter n} k ∧ d' = d.after k := by
  constructor
  · rintro ⟨limit, records, hexecute⟩
    obtain ⟨k, hk, -, rfl⟩ := exists_isLeast_of_execute hrun hexecute
    exact ⟨k, hk, rfl⟩
  · rintro ⟨k, hk, rfl⟩
    exact ⟨k, _, execute_of_isLeast hrun hk le_rfl⟩

/-- An arrival is a stop that the processor runs up to. -/
theorem arrives_iff : d.Arrives n ↔
    0 < n ∧ (d.after n).AtStop ∧ ∀ j < n, (iterate j d.machine).isHalted = false := by
  cases n with
  | zero => exact ⟨False.elim, fun h => absurd h.1 (lt_irrefl 0)⟩
  | succ n =>
    rw [Arrives, and_iff_right n.succ_pos, and_comm]
    refine and_congr_right fun _ => ⟨fun h j hj => ?_, fun h => h n (Nat.lt_succ_self n)⟩
    refine Bool.eq_false_iff.2 fun hhalted => ?_
    rw [Machine.isHalted_iterate_of_le hhalted (Nat.le_of_lt_succ hj)] at h
    cases h

/-- After some steps, the first stop is the next arrival. -/
theorem isLeast_after_iff (hrun : (d.after n).machine.isHalted = false) :
    IsLeast {j | (d.after n).StopsAfter j} k ↔
      0 < k ∧ d.Arrives (n + k) ∧ ∀ j, n < j → j < n + k → ¬ d.Arrives j := by
  constructor
  · rintro ⟨⟨hpos, hat⟩, hleast⟩
    rw [after_after] at hat
    have hbetween : ∀ j, n < j → j < n + k → ¬ (d.after j).AtStop := by
      intro j hnj hjk hat
      obtain ⟨i, rfl⟩ := Nat.exists_eq_add_of_lt hnj
      have hle := hleast (a := i + 1) ⟨i.succ_pos, by rw [after_after]; exact hat⟩
      omega
    refine ⟨hpos, arrives_iff.2 ⟨by omega, hat, fun j hj => ?_⟩, fun j hnj hjk harrives =>
      hbetween j hnj hjk (arrives_iff.1 harrives).2.1⟩
    refine Bool.eq_false_iff.2 fun hhalted => ?_
    rcases Nat.lt_or_ge n j with hlt | hge
    · exact hbetween j hlt hj (.inl hhalted)
    · exact Bool.false_ne_true (hrun.symm.trans (Machine.isHalted_iterate_of_le hhalted hge))
  · rintro ⟨hpos, harrives, hbetween⟩
    obtain ⟨-, hat, hrunning⟩ := arrives_iff.1 harrives
    refine ⟨⟨hpos, by rwa [after_after]⟩, fun j ⟨hj, hatj⟩ => ?_⟩
    rw [after_after] at hatj
    by_contra hlt
    exact hbetween (n + j) (by omega) (by omega)
      (arrives_iff.2 ⟨by omega, hatj, fun i hi => hrunning i (by omega)⟩)

/-- Between two arrivals that follow one another their number stays the same. -/
theorem count_eq_of_between {l : ℕ} (hlt : n < l) (h : ∀ j, n < j → j < l → ¬ d.Arrives j) :
    Nat.count d.Arrives l = Nat.count d.Arrives (n + 1) := by
  induction l, hlt using Nat.le_induction with
  | base => rfl
  | succ l hle ih =>
    rw [Nat.count_succ, if_neg (h l hle (Nat.lt_succ_self l)), Nat.add_zero]
    exact ih fun j hnj hjl => h j hnj (Nat.lt_succ_of_lt hjl)

/-- At the last arrival within a number of steps, or still at the start, there
were as many commands as arrivals. -/
theorem exists_last_stop (d : Debugger) (l : ℕ) :
    ∃ n ≤ l, d.Continues (Nat.count d.Arrives (l + 1)) (d.after n) ∧
      ∀ j, n < j → j ≤ l → ¬ d.Arrives j := by
  induction l with
  | zero => exact ⟨0, le_rfl, .none, fun j hj hle => absurd hj (by omega)⟩
  | succ l ih =>
    obtain ⟨n, hle, hcontinues, hlast⟩ := ih
    rw [Nat.count_succ]
    by_cases harrives : d.Arrives (l + 1)
    · refine ⟨l + 1, le_rfl, ?_, fun j hj hjl => absurd hj (by omega)⟩
      have hrun : (d.after n).machine.isHalted = false := (arrives_iff.1 harrives).2.2 n (by omega)
      have hnext : IsLeast {j | (d.after n).StopsAfter j} (l + 1 - n) := by
        refine (isLeast_after_iff hrun).2 ⟨by omega, ?_, fun j hnj hjl => hlast j hnj (by omega)⟩
        rwa [Nat.add_sub_of_le (by omega)]
      rw [if_pos harrives]
      refine hcontinues.next ((continuesTo_iff_of_running hrun).2 ⟨_, hnext, ?_⟩)
      rw [after_after, Nat.add_sub_of_le (by omega)]
    · rw [if_neg harrives, Nat.add_zero]
      refine ⟨n, by omega, hcontinues, fun j hnj hjl => ?_⟩
      rcases Nat.lt_or_eq_of_le hjl with hlt | rfl
      · exact hlast j hnj (by omega)
      · exact harrives

/-- The commands reach every arrival, each with its number. -/
theorem continues_of_arrives (h : d.Arrives n) : d.Continues (Nat.count d.Arrives n + 1) (d.after n) := by
  obtain ⟨j, hle, hcontinues, hlast⟩ := d.exists_last_stop n
  obtain rfl : j = n := by
    by_contra hne
    exact hlast n (by omega) le_rfl h
  rwa [Nat.count_succ, if_pos h] at hcontinues

/-- At the halt any further command does nothing. -/
theorem Continues.of_isHalted {i j : ℕ} (h : d.Continues i d') (hhalted : d'.machine.isHalted = true)
    (hle : i ≤ j) : d.Continues j d' := by
  induction j, hle using Nat.le_induction with
  | base => exact h
  | succ j _ ih => exact ih.next ((continuesTo_iff_of_isHalted hhalted).2 rfl)

/-- **Stops are arrivals.** Commands to go on, one after the other, lead to the
arrival that has their number, or stay at the halt if that came before. -/
theorem continues_iff (hrun : d.machine.isHalted = false) {i : ℕ} :
    d.Continues (i + 1) d' ↔ ∃ n, d.Arrives n ∧ d' = d.after n ∧
      (Nat.count d.Arrives n = i ∨ (d.after n).machine.isHalted = true ∧ Nat.count d.Arrives n ≤ i) := by
  constructor
  · intro h
    induction i generalizing d' with
    | zero =>
      cases h with
      | next hstart hnext =>
      cases hstart
      obtain ⟨k, hk, rfl⟩ := (continuesTo_iff_of_running hrun).1 hnext
      obtain ⟨hpos, harrives, hbetween⟩ := (isLeast_after_iff (n := 0) hrun).1 hk
      rw [Nat.zero_add] at harrives hbetween
      exact ⟨k, harrives, rfl, .inl (count_eq_of_between hpos hbetween)⟩
    | succ i ih =>
      cases h with
      | next hbefore hnext =>
      obtain ⟨n, harrives, rfl, hcount⟩ := ih hbefore
      cases hhalted : (d.after n).machine.isHalted with
      | true =>
        obtain rfl := (continuesTo_iff_of_isHalted hhalted).1 hnext
        exact ⟨n, harrives, rfl, .inr ⟨hhalted, by omega⟩⟩
      | false =>
        have hcount : Nat.count d.Arrives n = i := hcount.resolve_right fun h =>
          Bool.false_ne_true (hhalted.symm.trans h.1)
        obtain ⟨k, hk, rfl⟩ := (continuesTo_iff_of_running hhalted).1 hnext
        obtain ⟨hpos, hlater, hbetween⟩ := (isLeast_after_iff hhalted).1 hk
        refine ⟨n + k, hlater, after_after d n k, .inl ?_⟩
        rw [count_eq_of_between (by omega) hbetween, Nat.count_succ, if_pos harrives, hcount]
  · rintro ⟨n, harrives, rfl, rfl | ⟨hhalted, hle⟩⟩
    · exact continues_of_arrives harrives
    · exact (continues_of_arrives harrives).of_isHalted hhalted (Nat.succ_le_succ hle)

/-- A command to go on makes the steps up to the first stop and tells of just
these, or goes on for ever if there is none; and such commands, one after the
other, stop at the arrivals, of which the halt is the last. -/
structure StopsExactly (d : Debugger) : Prop where
  halted : d.machine.isHalted = true →
    ∀ limit, d.execute limit .resume = ([.ofDebugger .stillHalted], d, .prompt)
  first : d.machine.isHalted = false → ∀ k, IsLeast {n | d.StopsAfter n} k →
    (d.stopRecords k).filterMap Record.trace? = traces k d.machine ∧
      ∀ limit, k ≤ limit → d.execute limit .resume = (d.stopRecords k, d.after k, .prompt)
  endless : d.machine.isHalted = false →
    ((∀ limit, (d.execute limit .resume).2 = (d.after limit, .resuming limit)) ↔ ∀ n, ¬ d.StopsAfter n)
  sequence : d.machine.isHalted = false → ∀ i d', d.Continues (i + 1) d' ↔
    ∃ n, d.Arrives n ∧ d' = d.after n ∧
      (Nat.count d.Arrives n = i ∨ (d.after n).machine.isHalted = true ∧ Nat.count d.Arrives n ≤ i)
  last : ∀ n, (d.after n).machine.isHalted = true → ∀ j, d.Arrives j → j ≤ n

/-- **Going on stops exactly at breakpoints** and at the halt. -/
theorem stops_exactly (d : Debugger) : d.StopsExactly where
  halted := execute_of_isHalted
  first hrun k hk := ⟨filterMap_trace?_stopRecords d k, fun _ => execute_of_isLeast hrun hk⟩
  endless hrun := by
    constructor
    · intro h n hstop
      have hk := Nat.isLeast_find ⟨n, hstop⟩
      have hflow := h n
      rw [execute_of_isLeast hrun hk (hk.2 hstop), Prod.mk.injEq] at hflow
      cases hflow.2
    · intro h limit
      rw [execute_of_no_stop hrun fun n _ => h n]
  sequence hrun _ _ := continues_iff hrun
  last n hhalted j hj := by
    by_contra hlt
    exact Bool.false_ne_true (((arrives_iff.1 hj).2.2 n (by omega)).symm.trans hhalted)

end Debugger

end Mc6809
