/-
Listings that go on. A listing starts where the last one stopped, and only an
executed step or a reset makes it start at the program counter again. So
listings join up: two of them, with nothing between them but commands that
execute nothing, show what one listing of both lengths shows
(`executeAll_list_inert_list`), and all of them together show instructions
that follow one another in memory (`lists_executeAll`).

Setting or clearing a breakpoint in between changes the mark of the later rows
at its address and nothing else. The last such command decides on an address
(`Debugger.MarkedAfter`).

What is said of rows is said of the lines of the log: a row is told as one line,
which shows its marks, its address and its instruction (`ListRow.WrittenAs`).
-/
import Mc6809.Proofs.Debugger.Continuation
import Mc6809.Proofs.Literal.Hexadecimal

namespace Mc6809

/-! ## Instructions in a row -/

namespace Memory

variable (m : Memory)

theorem length_disassembleRun (address : Address) (count : ℕ) :
    (m.disassembleRun address count).length = count := by
  induction count generalizing address with
  | zero => rfl
  | succ count ih => rw [disassembleRun, List.length_cons, ih]

theorem addressAfter_add (address : Address) (j k : ℕ) :
    m.addressAfter address (j + k) = m.addressAfter (m.addressAfter address j) k := by
  induction j generalizing address with
  | zero => rw [Nat.zero_add, addressAfter]
  | succ j ih => rw [Nat.add_right_comm, addressAfter, ih, addressAfter]

theorem disassembleRun_add (address : Address) (j k : ℕ) :
    m.disassembleRun address (j + k) =
      m.disassembleRun address j ++ m.disassembleRun (m.addressAfter address j) k := by
  induction j generalizing address with
  | zero => rw [Nat.zero_add, addressAfter, disassembleRun, List.nil_append]
  | succ j ih => rw [Nat.add_right_comm, disassembleRun, ih, disassembleRun, addressAfter, List.cons_append]

theorem eq_disassemble_of_mem_run {address : Address} {count : ℕ} {i : Disassembly}
    (h : i ∈ m.disassembleRun address count) : i = m.disassemble i.address := by
  induction count generalizing address with
  | zero => cases h
  | succ count ih =>
    rcases List.mem_cons.1 h with rfl | h
    · rfl
    · exact ih h

theorem head?_disassembleRun {address : Address} {count : ℕ} {i : Disassembly}
    (h : (m.disassembleRun address count).head? = some i) : i.address = address := by
  cases count with
  | zero => cases h
  | succ count =>
    cases h
    rfl

/-- Each instruction stands where the one before it ends. -/
theorem isChain_disassembleRun (address : Address) (count : ℕ) :
    (m.disassembleRun address count).IsChain fun i j => j.address = i.address + i.size.toUInt16 := by
  induction count generalizing address with
  | zero => exact .nil
  | succ count ih =>
    rw [disassembleRun, List.isChain_cons]
    exact ⟨fun i hi => m.head?_disassembleRun hi, ih _⟩

end Memory

/-! ## Rows -/

namespace ListRow

open Literal

/-- The address that a row shows. -/
def address (row : ListRow) : Address := row.disassembly.address

/-- How a row is written: the mark of a breakpoint, the mark of the instruction
that is next, the address in four digits, and the instruction. -/
def WrittenAs (row : ListRow) (line : String) : Prop :=
  ∃ digits : List Char, digits.length = 4 ∧ (∀ c ∈ digits, c ∈ digitChars) ∧
    placeValue 16 digits = row.address.toNat ∧
    line.toList = (if row.isBreakpoint then 'B' else ' ') :: (if row.isNext then '>' else ' ') ::
      (" $".toList ++ digits ++ "    ".toList ++ row.disassembly.text.toList)

/-- The row as other breakpoints mark it. -/
def marked (breakpoints : List Address) (row : ListRow) : ListRow :=
  { row with isBreakpoint := breakpoints.contains row.address }

theorem writtenAs_text (row : ListRow) : row.WrittenAs row.text := by
  have hcapacity : row.address.toNat < Digits.capacity 16 4 := row.address.toNat_lt
  refine ⟨Digits.fixed 16 4 row.address.toNat, Digits.length_fixed .., mem_digitChars_of_mem_fixed,
    placeValue_fixed hcapacity, ?_⟩
  rw [text, Word.hex, address]
  cases row.isBreakpoint <;> cases row.isNext <;> simp

variable {row : ListRow} {line : String}

/-- The mark of a breakpoint stands first. -/
theorem WrittenAs.breakpointMark_iff (h : row.WrittenAs line) :
    line.toList[0]? = some 'B' ↔ row.isBreakpoint = true := by
  obtain ⟨digits, -, -, -, hline⟩ := h
  rw [hline]
  cases row.isBreakpoint <;> simp

/-- The mark of the instruction that is next stands second. -/
theorem WrittenAs.nextMark_iff (h : row.WrittenAs line) :
    line.toList[1]? = some '>' ↔ row.isNext = true := by
  obtain ⟨digits, -, -, -, hline⟩ := h
  rw [hline]
  cases row.isNext <;> simp

end ListRow

namespace Log

/-- The row of a listing that a record tells. -/
def Record.row? (r : Record) : Option ListRow :=
  match r.event with
  | .debugger (.listed row) => some row
  | _ => none

theorem entry_of_row? {r : Record} {row : ListRow} (h : r.row? = some row) :
    r.event.entry = ⟨.info, .debugger, row.text, []⟩ := by
  unfold Record.row? at h
  split at h
  next told hevent =>
    cases h
    rw [hevent]
    rfl
  next => cases h

/-- The rows of all listings that records tell. -/
def rows (records : List Record) : List ListRow := records.filterMap Record.row?

theorem rows_append (records more : List Record) : rows (records ++ more) = rows records ++ rows more :=
  List.filterMap_append

theorem rows_listed (rs : List ListRow) : rows (rs.map fun row => .ofDebugger (.listed row)) = rs := by
  rw [rows, List.filterMap_map]
  exact List.filterMap_some

end Log

/-- The rows show that many instructions of a machine, one after the other in
its memory from an address on, and which of them is next. -/
structure Consecutive (m : Machine) (start : Address) (count : ℕ) (rows : List ListRow) : Prop where
  length : rows.length = count
  first : ∀ row, rows.head? = some row → row.address = start
  next : rows.IsChain fun row row' => row'.address = row.address + row.disassembly.size.toUInt16
  shown : ∀ row ∈ rows, row.disassembly = m.memory.disassemble row.address ∧
    (row.isNext = true ↔ row.address = m.pc)

namespace DebuggerCommand

/-- How many instructions a command lists. -/
def listed : DebuggerCommand → ℕ
  | .list count => count
  | _ => 0

/-- What breakpoints there are after a command. -/
def breakpointsAfter (breakpoints : List Address) : DebuggerCommand → List Address
  | .setBreakpoint address =>
    if breakpoints.contains address then breakpoints else Debugger.insertAddress address breakpoints
  | .clearBreakpoint address => breakpoints.filter (· != address)
  | _ => breakpoints

/-- A command that sets or clears a breakpoint. -/
inductive Marks : DebuggerCommand → Prop
  | set address : Marks (.setBreakpoint address)
  | clear address : Marks (.clearBreakpoint address)

theorem mem_breakpointsAfter_iff {breakpoints : List Address} {c : DebuggerCommand} {address : Address} :
    address ∈ c.breakpointsAfter breakpoints ↔
      c = .setBreakpoint address ∨ address ∈ breakpoints ∧ c ≠ .clearBreakpoint address := by
  cases c with
  | setBreakpoint other =>
    rw [breakpointsAfter]
    split
    next h =>
      have hother : other ∈ breakpoints := List.contains_iff_mem.1 h
      grind
    next => grind [Debugger.mem_insertAddress]
  | clearBreakpoint other => grind [breakpointsAfter]
  | _ => simp [breakpointsAfter]

end DebuggerCommand

namespace Debugger

open DebuggerCommand Log

/-- Where the next listing starts. -/
def place (d : Debugger) : Address := d.listCursor?.getD d.machine.pc

/-- The debugger with other breakpoints. -/
def withBreakpoints (d : Debugger) (breakpoints : List Address) : Debugger := { d with breakpoints }

/-- What breakpoints there are after some commands. -/
def marksAfter (d : Debugger) (cs : List DebuggerCommand) : List Address :=
  cs.foldl breakpointsAfter d.breakpoints

/-- There is a breakpoint at an address after some commands: the last of them that
names the address sets it, or it was there before and no command clears it. -/
def MarkedAfter (d : Debugger) (cs : List DebuggerCommand) (address : Address) : Prop :=
  (∃ before after, cs = before ++ .setBreakpoint address :: after ∧ .clearBreakpoint address ∉ after) ∨
    address ∈ d.breakpoints ∧ .clearBreakpoint address ∉ cs

/-- A command that leaves the debugger as it is: it asks for something, steps no
instruction, or is refused because the processor is halted. -/
inductive Inert (d : Debugger) : DebuggerCommand → Prop
  | registers register? : Inert d (.registers register?)
  | memory address count : Inert d (.memory address count)
  | info topic? : Inert d (.info topic?)
  | stepNone : Inert d (.step 0)
  | step (h : d.machine.isHalted = true) count : Inert d (.step count)
  | resume (h : d.machine.isHalted = true) : Inert d .resume

/-- A command that executes nothing. -/
inductive Idle (d : Debugger) : DebuggerCommand → Prop
  | inert {c} (h : d.Inert c) : Idle d c
  | marks {c} (h : Marks c) : Idle d c
  | list count : Idle d (.list count)

/-- A command that executes something, or starts the processor again. -/
inductive Executes (d : Debugger) : DebuggerCommand → Prop
  | step (h : d.machine.isHalted = false) count : Executes d (.step (count + 1))
  | resume (h : d.machine.isHalted = false) : Executes d .resume
  | reset : Executes d .reset

/-- Carries out commands one after the other, up to one that leaves the debugger
or whose execution is left unfinished. -/
def executeAll (d : Debugger) (limit : ℕ) : List DebuggerCommand → List Record × Debugger × Flow
  | [] => ([], d, .prompt)
  | c :: cs =>
    match d.execute limit c with
    | (records, d', .prompt) =>
      let (more, d'', flow) := d'.executeAll limit cs
      (records ++ more, d'', flow)
    | done => done

variable {d d' : Debugger} {limit : ℕ} {c : DebuggerCommand} {cs cs' : List DebuggerCommand}

theorem executeAll_cons (h : (d.execute limit c).2 = (d', .prompt)) :
    d.executeAll limit (c :: cs) =
      ((d.execute limit c).1 ++ (d'.executeAll limit cs).1, (d'.executeAll limit cs).2) := by
  rw [executeAll]
  rcases hc : d.execute limit c with ⟨records, rest⟩
  rw [hc] at h
  cases h
  rfl

theorem executeAll_singleton (h : (d.execute limit c).2 = (d', .prompt)) :
    d.executeAll limit [c] = d.execute limit c := by
  rw [executeAll_cons h, executeAll, List.append_nil, ← h]

theorem executeAll_append (h : (d.executeAll limit cs).2 = (d', .prompt)) :
    d.executeAll limit (cs ++ cs') =
      ((d.executeAll limit cs).1 ++ (d'.executeAll limit cs').1, (d'.executeAll limit cs').2) := by
  induction cs generalizing d with
  | nil =>
    cases h
    rfl
  | cons c cs ih =>
    rcases hc : d.execute limit c with ⟨records, d₁, flow⟩
    cases flow with
    | prompt =>
      have hc : (d.execute limit c).2 = (d₁, .prompt) := by rw [hc]
      rw [executeAll_cons hc] at h ⊢
      rw [List.cons_append, executeAll_cons hc, ih h, List.append_assoc]
    | leave | resuming count =>
      rw [executeAll, hc] at h
      cases h

/-! ## Breakpoints -/

theorem markedAfter_nil {address : Address} : d.MarkedAfter [] address ↔ address ∈ d.breakpoints := by
  simp [MarkedAfter]

theorem not_clears_concat {address : Address} :
    .clearBreakpoint address ∉ cs ++ [c] ↔
      .clearBreakpoint address ∉ cs ∧ c ≠ .clearBreakpoint address := by
  rw [List.mem_append, not_or, List.mem_singleton, ne_comm]

/-- The last command decides if it names the address. -/
theorem markedAfter_concat {address : Address} :
    d.MarkedAfter (cs ++ [c]) address ↔
      c = .setBreakpoint address ∨ d.MarkedAfter cs address ∧ c ≠ .clearBreakpoint address := by
  constructor
  · rintro (⟨before, after, hsplit, hclear⟩ | ⟨hmem, hclear⟩)
    · rcases List.eq_nil_or_concat' after with rfl | ⟨init, last, rfl⟩
      · obtain ⟨rfl, hlast⟩ := List.append_inj' hsplit rfl
        exact .inl (List.head_eq_of_cons_eq hlast)
      · rw [← List.cons_append, ← List.append_assoc] at hsplit
        obtain ⟨rfl, hlast⟩ := List.append_inj' hsplit rfl
        obtain rfl : c = last := List.head_eq_of_cons_eq hlast
        obtain ⟨hclear, hc⟩ := not_clears_concat.1 hclear
        exact .inr ⟨.inl ⟨before, init, rfl, hclear⟩, hc⟩
    · obtain ⟨hclear, hc⟩ := not_clears_concat.1 hclear
      exact .inr ⟨.inr ⟨hmem, hclear⟩, hc⟩
  · rintro (rfl | ⟨⟨before, after, rfl, hclear⟩ | ⟨hmem, hclear⟩, hc⟩)
    · exact .inl ⟨cs, [], rfl, List.not_mem_nil⟩
    · exact .inl ⟨before, after ++ [c], by simp, not_clears_concat.2 ⟨hclear, hc⟩⟩
    · exact .inr ⟨hmem, not_clears_concat.2 ⟨hclear, hc⟩⟩

theorem mem_marksAfter_iff {address : Address} :
    address ∈ d.marksAfter cs ↔ d.MarkedAfter cs address := by
  induction cs using List.reverseRecOn with
  | nil => exact markedAfter_nil.symm
  | append_singleton cs c ih =>
    rw [markedAfter_concat, ← ih, marksAfter, List.foldl_append]
    exact mem_breakpointsAfter_iff

/-! ## One command -/

theorem rows_map_ofDebugger {α : Type} {tell : α → DebuggerEvent}
    (h : ∀ a, (Record.ofDebugger (tell a)).row? = none) (as : List α) :
    rows (as.map fun a => .ofDebugger (tell a)) = [] := by
  rw [rows, List.filterMap_map]
  exact List.filterMap_eq_nil_iff.2 fun a _ => h a

theorem rows_breakpointEvents (d : Debugger) : rows (d.breakpointEvents.map .ofDebugger) = [] := by
  rw [breakpointEvents]
  split
  · rfl
  · rw [List.map_map]
    exact rows_map_ofDebugger (fun _ => rfl) _

theorem rows_infoEvents (d : Debugger) (topic? : Option InfoTopic) :
    rows ((d.infoEvents topic?).map .ofDebugger) = [] := by
  cases topic? with
  | none => rw [infoEvents, List.map_append, rows_append, rows_breakpointEvents]; rfl
  | some topic =>
    cases topic with
    | breakpoints => exact d.rows_breakpointEvents
    | steps => rfl

theorem Inert.execute (h : d.Inert c) (limit : ℕ) :
    rows (d.execute limit c).1 = [] ∧ (d.execute limit c).2 = (d, .prompt) := by
  cases h with
  | registers register? => exact ⟨rfl, rfl⟩
  | memory address count => exact ⟨rows_map_ofDebugger (fun _ => rfl) _, rfl⟩
  | info topic? => exact ⟨d.rows_infoEvents topic?, rfl⟩
  | stepNone =>
    rw [Debugger.execute]
    split
    · exact ⟨rfl, rfl⟩
    · exact ⟨rfl, rfl⟩
  | step hhalted count =>
    rw [Debugger.execute, if_pos hhalted]
    exact ⟨rfl, rfl⟩
  | resume hhalted =>
    rw [Debugger.execute, if_pos hhalted]
    exact ⟨rfl, rfl⟩

theorem execute_of_marks (h : Marks c) (d : Debugger) (limit : ℕ) :
    rows (d.execute limit c).1 = [] ∧
      (d.execute limit c).2 = (d.withBreakpoints (c.breakpointsAfter d.breakpoints), .prompt) := by
  cases h with
  | set address =>
    rw [Debugger.execute, isBreakpoint, breakpointsAfter]
    split
    · exact ⟨rfl, rfl⟩
    · exact ⟨rfl, rfl⟩
  | clear address =>
    rw [Debugger.execute, isBreakpoint, breakpointsAfter]
    split
    next => exact ⟨rfl, rfl⟩
    next hmissing =>
      have hkeep : d.breakpoints.filter (· != address) = d.breakpoints :=
        List.filter_eq_self.2 fun other hother => by
          rw [bne_iff_ne]
          rintro rfl
          exact hmissing (List.contains_iff_mem.2 hother)
      rw [hkeep]
      exact ⟨rfl, rfl⟩

theorem breakpointsAfter_of_inert (h : d.Inert c) (breakpoints : List Address) :
    c.breakpointsAfter breakpoints = breakpoints := by
  cases h <;> rfl

/-- A command that neither executes nor lists changes nothing but breakpoints. -/
theorem execute_of_inert_or_marks (h : d.Inert c ∨ Marks c) (limit : ℕ) :
    rows (d.execute limit c).1 = [] ∧
      (d.execute limit c).2 = (d.withBreakpoints (c.breakpointsAfter d.breakpoints), .prompt) := by
  rcases h with h | h
  · rw [breakpointsAfter_of_inert h]
    exact h.execute limit
  · exact execute_of_marks h d limit

theorem rows_execute_list (d : Debugger) (limit count : ℕ) :
    rows (d.execute limit (.list count)).1 = (d.list count).1 := rows_listed _

theorem execute_list (d : Debugger) (limit count : ℕ) :
    (d.execute limit (.list count)).2 = ((d.list count).2, .prompt) := rfl

/-- Whether a command executes nothing depends on the machine alone. -/
theorem Inert.congr (h : d.Inert c) (hmachine : d'.machine = d.machine) : d'.Inert c := by
  cases h with
  | registers register? => exact .registers register?
  | memory address count => exact .memory address count
  | info topic? => exact .info topic?
  | stepNone => exact .stepNone
  | step hhalted count => exact .step (hmachine ▸ hhalted) count
  | resume hhalted => exact .resume (hmachine ▸ hhalted)

theorem Idle.congr (h : d.Idle c) (hmachine : d'.machine = d.machine) : d'.Idle c := by
  cases h with
  | inert h => exact .inert (h.congr hmachine)
  | marks h => exact .marks h
  | list count => exact .list count

/-! ## Two listings -/

theorem executeAll_of_inert_or_marks (h : ∀ c ∈ cs, d.Inert c ∨ Marks c) (limit : ℕ) :
    rows (d.executeAll limit cs).1 = [] ∧
      (d.executeAll limit cs).2 = (d.withBreakpoints (d.marksAfter cs), .prompt) := by
  induction cs generalizing d with
  | nil => exact ⟨rfl, rfl⟩
  | cons c cs ih =>
    obtain ⟨hc, hcs⟩ := List.forall_mem_cons.1 h
    obtain ⟨hrows, hexecute⟩ := execute_of_inert_or_marks hc limit
    obtain ⟨hmore, hlast⟩ := ih (d := d.withBreakpoints (c.breakpointsAfter d.breakpoints))
      fun c hc => (hcs c hc).imp_left fun h => h.congr rfl
    rw [executeAll_cons hexecute]
    exact ⟨by rw [rows_append, hrows, hmore]; rfl, hlast⟩

theorem list_eq (d : Debugger) (count : ℕ) :
    d.list count = ((d.machine.memory.disassembleRun d.place count).map d.rowAt,
      { d with listCursor? := some (d.machine.memory.addressAfter d.place count) }) := rfl

theorem length_list (d : Debugger) (count : ℕ) : (d.list count).1.length = count := by
  rw [list_eq, List.length_map, Memory.length_disassembleRun]

/-- A listing after another one shows the rows that a longer one would show
next, marked as the breakpoints are then. -/
theorem list_add (d : Debugger) (breakpoints : List Address) (m n : ℕ) :
    (d.list (m + n)).1 = (d.list m).1 ++ ((d.list m).2.list n).1 ∧
      ((d.list m).2.withBreakpoints breakpoints).list n =
        (((d.list m).2.list n).1.map (·.marked breakpoints),
          (d.list (m + n)).2.withBreakpoints breakpoints) := by
  constructor
  · rw [list_eq, Memory.disassembleRun_add, List.map_append]
    rfl
  · rw [list_eq d (m + n), Memory.addressAfter_add, list_eq (d.list m).2, List.map_map]
    rfl

/-- Two listings with commands in between that neither execute nor list. -/
theorem executeAll_list_list {between : List DebuggerCommand}
    (h : ∀ c ∈ between, d.Inert c ∨ Marks c) (limit m n : ℕ) :
    rows (d.executeAll limit (.list m :: between ++ [.list n])).1 =
        (d.list (m + n)).1.take m ++
          ((d.list (m + n)).1.drop m).map (·.marked (d.marksAfter between)) ∧
      (d.executeAll limit (.list m :: between ++ [.list n])).2 =
        ((d.list (m + n)).2.withBreakpoints (d.marksAfter between), .prompt) := by
  obtain ⟨hnone, hbetween⟩ := executeAll_of_inert_or_marks (d := (d.list m).2)
    (fun c hc => (h c hc).imp_left fun h => h.congr rfl) limit
  obtain ⟨hrows, hlast⟩ := d.list_add (d.marksAfter between) m n
  have hkept : (d.list m).2.marksAfter between = d.marksAfter between := rfl
  rw [hkept] at hbetween
  rw [List.cons_append, executeAll_cons (d.execute_list limit m), executeAll_append hbetween,
    executeAll_singleton (execute_list ..), execute_list, hlast, hrows, List.take_left' (d.length_list m),
    List.drop_left' (d.length_list m), rows_append, rows_append, rows_execute_list, rows_execute_list,
    hnone, List.nil_append, hlast]
  exact ⟨rfl, rfl⟩

theorem marksAfter_of_inert (h : ∀ c ∈ cs, d.Inert c) : d.marksAfter cs = d.breakpoints := by
  rw [marksAfter]
  generalize d.breakpoints = breakpoints
  induction cs with
  | nil => rfl
  | cons c cs ih =>
    obtain ⟨hc, hcs⟩ := List.forall_mem_cons.1 h
    rw [List.foldl_cons, breakpointsAfter_of_inert hc, ih hcs]

/-- A row of a listing bears the mark of a breakpoint already. -/
theorem marked_list (d : Debugger) (count : ℕ) : ∀ row ∈ (d.list count).1, row.marked d.breakpoints = row := by
  intro row hrow
  obtain ⟨i, -, rfl⟩ := List.mem_map.1 hrow
  rfl

/-- Two listings with nothing but inert commands in between show what one
listing shows, and leave the debugger as it does. -/
theorem executeAll_list_inert_list {between : List DebuggerCommand} (h : ∀ c ∈ between, d.Inert c)
    (limit m n : ℕ) :
    rows (d.executeAll limit (.list m :: between ++ [.list n])).1 =
        rows (d.execute limit (.list (m + n))).1 ∧
      (d.executeAll limit (.list m :: between ++ [.list n])).2 = (d.execute limit (.list (m + n))).2 := by
  obtain ⟨hrows, hlast⟩ := executeAll_list_list (fun c hc => .inl (h c hc)) limit m n
  rw [marksAfter_of_inert h] at hrows hlast
  have hmarked : ((d.list (m + n)).1.drop m).map (·.marked d.breakpoints) = (d.list (m + n)).1.drop m :=
    (List.map_congr_left fun row hrow => d.marked_list _ row (List.mem_of_mem_drop hrow)).trans
      (List.map_id' _)
  rw [hrows, hlast, hmarked, List.take_append_drop, rows_execute_list, execute_list]
  exact ⟨rfl, rfl⟩

/-! ## Any number of listings -/

/-- What idle commands do to the place where the next listing starts, and what they list. -/
structure Lists (d d' : Debugger) (count : ℕ) (rs : List ListRow) : Prop where
  machine : d'.machine = d.machine
  place : d'.place = d.machine.memory.addressAfter d.place count
  shown : rs.map (·.disassembly) = d.machine.memory.disassembleRun d.place count
  next : ∀ row ∈ rs, row.isNext = (row.address == d.machine.pc)

theorem Lists.none (h : d'.machine = d.machine) (hcursor : d'.listCursor? = d.listCursor?) :
    d.Lists d' 0 [] where
  machine := h
  place := by rw [Memory.addressAfter, Debugger.place, Debugger.place, h, hcursor]
  shown := rfl
  next _ hrow := by cases hrow

theorem Lists.append {d'' : Debugger} {m n : ℕ} {rs rs' : List ListRow} (h : d.Lists d' m rs)
    (h' : d'.Lists d'' n rs') : d.Lists d'' (m + n) (rs ++ rs') where
  machine := h'.machine.trans h.machine
  place := by rw [h'.place, h.machine, h.place, Memory.addressAfter_add]
  shown := by rw [List.map_append, h.shown, h'.shown, h.machine, h.place, Memory.disassembleRun_add]
  next row hrow := by
    rcases List.mem_append.1 hrow with hrow | hrow
    · exact h.next row hrow
    · rw [h'.next row hrow, h.machine]

theorem lists_list (d : Debugger) (count : ℕ) : d.Lists (d.list count).2 count (d.list count).1 where
  machine := rfl
  place := rfl
  shown := by
    rw [list_eq, List.map_map]
    exact List.map_id' _
  next row hrow := by
    obtain ⟨i, -, rfl⟩ := List.mem_map.1 hrow
    rfl

theorem listed_of_inert_or_marks (h : d.Inert c ∨ Marks c) : c.listed = 0 := by
  rcases h with h | h <;> cases h <;> rfl

/-- One idle command. -/
theorem Idle.lists (h : d.Idle c) (limit : ℕ) :
    ∃ d', (d.execute limit c).2 = (d', .prompt) ∧ d.Lists d' c.listed (rows (d.execute limit c).1) := by
  have hothers : d.Inert c ∨ Marks c → ∃ d', (d.execute limit c).2 = (d', .prompt) ∧
      d.Lists d' c.listed (rows (d.execute limit c).1) := by
    intro h
    obtain ⟨hrows, hlast⟩ := execute_of_inert_or_marks h limit
    rw [hrows, listed_of_inert_or_marks h]
    exact ⟨_, hlast, .none rfl rfl⟩
  cases h with
  | inert h => exact hothers (.inl h)
  | marks h => exact hothers (.inr h)
  | list count =>
    refine ⟨_, d.execute_list limit count, ?_⟩
    rw [rows_execute_list]
    exact d.lists_list count

/-- How many instructions some commands list. -/
def listedBy (cs : List DebuggerCommand) : ℕ := (cs.map listed).sum

/-- Idle commands, one after the other. -/
theorem lists_executeAll (h : ∀ c ∈ cs, d.Idle c) (limit : ℕ) :
    ∃ d', (d.executeAll limit cs).2 = (d', .prompt) ∧
      d.Lists d' (listedBy cs) (rows (d.executeAll limit cs).1) := by
  induction cs generalizing d with
  | nil => exact ⟨d, rfl, .none rfl rfl⟩
  | cons c cs ih =>
    obtain ⟨hc, hcs⟩ := List.forall_mem_cons.1 h
    obtain ⟨d₁, hexecute, hfirst⟩ := hc.lists limit
    obtain ⟨d₂, hlast, hrest⟩ := ih fun c hc => (hcs c hc).congr hfirst.machine
    rw [executeAll_cons hexecute, rows_append]
    exact ⟨d₂, hlast, hfirst.append hrest⟩

theorem Lists.consecutive {count : ℕ} {rs : List ListRow} (h : d.Lists d' count rs) :
    Consecutive d.machine d.place count rs where
  length := by rw [← List.length_map (·.disassembly), h.shown, Memory.length_disassembleRun]
  first row hrow := by
    have hfirst : (d.machine.memory.disassembleRun d.place count).head? = some row.disassembly := by
      rw [← h.shown, List.head?_map, hrow, Option.map_some]
    exact d.machine.memory.head?_disassembleRun hfirst
  next := by
    have hchain := Memory.isChain_disassembleRun d.machine.memory d.place count
    rw [← h.shown, List.isChain_map] at hchain
    exact hchain
  shown row hrow := by
    constructor
    · have hmem : row.disassembly ∈ d.machine.memory.disassembleRun d.place count := by
        rw [← h.shown]
        exact List.mem_map_of_mem hrow
      exact d.machine.memory.eq_disassemble_of_mem_run hmem
    · rw [h.next row hrow, beq_iff_eq]

/-! ## After something was executed -/

theorem listCursor?_stepTimes (count : ℕ) (d : Debugger) : (d.stepTimes (count + 1)).2.listCursor? = none := by
  induction count generalizing d with
  | zero =>
    rw [stepTimes, step_after]
    simp only
    split
    · rfl
    · rfl
  | succ count ih =>
    rw [stepTimes, step_after]
    simp only
    split
    · rfl
    · exact ih _

theorem listCursor?_of_executes (h : d.Executes c)
    (hexecute : (d.execute limit c).2 = (d', .prompt)) : d'.listCursor? = none := by
  cases h with
  | step hrun count =>
    rw [execute, hrun, if_neg Bool.false_ne_true] at hexecute
    cases hexecute
    exact listCursor?_stepTimes count d
  | resume hrun =>
    obtain ⟨k, hk, -, rfl⟩ := exists_isLeast_of_execute hrun (Prod.ext rfl hexecute)
    exact if_neg hk.1.1.ne'
  | reset =>
    cases hexecute
    rfl

theorem place_of_executes (h : d.Executes c) (hexecute : (d.execute limit c).2 = (d', .prompt)) :
    d'.place = d'.machine.pc := by
  rw [place, listCursor?_of_executes h hexecute, Option.getD_none]

/-! ## Listings join up -/

/-- Commands that execute nothing show instructions one after the other, from a
place on. -/
structure ShowsFrom (d : Debugger) (start : Address) (limit : ℕ) (cs : List DebuggerCommand) : Prop where
  done : ∃ d', (d.executeAll limit cs).2 = (d', .prompt) ∧ d'.machine = d.machine
  rows : Consecutive d.machine start (listedBy cs) (rows (d.executeAll limit cs).1)

theorem showsFrom_place (h : ∀ c ∈ cs, d.Idle c) (limit : ℕ) : d.ShowsFrom d.place limit cs := by
  obtain ⟨d', hlast, hlists⟩ := lists_executeAll h limit
  exact ⟨⟨d', hlast, hlists.machine⟩, hlists.consecutive⟩

/-- How the listings of a debugger join up. -/
structure ListingsJoin (d : Debugger) : Prop where
  /-- The log shows each row as a line. -/
  line : ∀ (r : Record) row, r.row? = some row →
    ∃ line, row.WrittenAs line ∧ r.event.entry = ⟨.info, .debugger, line, []⟩
  marked : ∀ limit count, ∀ r ∈ (d.execute limit (.list count)).1, ∃ row, r.row? = some row ∧
    (r.event.entry.message.toList[0]? = some 'B' ↔ row.address ∈ d.breakpoints) ∧
    (r.event.entry.message.toList[1]? = some '>' ↔ row.address = d.machine.pc)
  joined : ∀ limit m n between, (∀ c ∈ between, d.Inert c) →
    Log.rows (d.executeAll limit (.list m :: between ++ [.list n])).1 =
        Log.rows (d.execute limit (.list (m + n))).1 ∧
      (d.executeAll limit (.list m :: between ++ [.list n])).2 = (d.execute limit (.list (m + n))).2
  remarked : ∀ limit m n between, (∀ c ∈ between, d.Inert c ∨ Marks c) →
    Log.rows (d.executeAll limit (.list m :: between ++ [.list n])).1 =
        (Log.rows (d.execute limit (.list (m + n))).1).take m ++
          ((Log.rows (d.execute limit (.list (m + n))).1).drop m).map
            (·.marked (d.marksAfter between)) ∧
      (d.executeAll limit (.list m :: between ++ [.list n])).2 =
        ((d.execute limit (.list (m + n))).2.1.withBreakpoints (d.marksAfter between), .prompt) ∧
      ∀ address, address ∈ d.marksAfter between ↔ d.MarkedAfter between address
  consecutive : ∀ limit cs, (∀ c ∈ cs, d.Idle c) → d.ShowsFrom d.place limit cs
  fresh : ∀ limit c d', d.Executes c → (d.execute limit c).2 = (d', .prompt) →
    ∀ cs, (∀ c' ∈ cs, d'.Idle c') → d'.ShowsFrom d'.machine.pc limit cs

/-- **Listings join up.** -/
theorem listings_join (d : Debugger) : d.ListingsJoin where
  line r row hrow := ⟨row.text, row.writtenAs_text, entry_of_row? hrow⟩
  marked limit count r hr := by
    obtain ⟨row, hrow, rfl⟩ := List.mem_map.1 hr
    obtain ⟨i, -, rfl⟩ := List.mem_map.1 hrow
    refine ⟨d.rowAt i, rfl, ?_⟩
    rw [entry_of_row? rfl, (ListRow.writtenAs_text _).breakpointMark_iff,
      (ListRow.writtenAs_text _).nextMark_iff]
    exact ⟨isBreakpoint_iff, beq_iff_eq⟩
  joined limit m n _ h := executeAll_list_inert_list h limit m n
  remarked limit m n _ h := by
    obtain ⟨hrows, hlast⟩ := executeAll_list_list h limit m n
    rw [rows_execute_list, execute_list]
    exact ⟨hrows, hlast, fun _ => mem_marksAfter_iff⟩
  consecutive limit _ h := showsFrom_place h limit
  fresh limit c d' hc hexecute cs hcs := by
    rw [← place_of_executes hc hexecute]
    exact showsFrom_place hcs limit

end Debugger

end Mc6809
