/-
The page over time. What a page answers depends on little of what was done with
it before: on the last source that assembled, and on the steps, runs and resets
since (`after_essential`). A source that does not assemble leaves no trace, and
one that does leaves none of what was before it (`assembling_forgets`).
-/
import Mc6809.Proofs.Machine.Reset
import Mc6809.Simulator

namespace Mc6809

namespace Simulator

/-- What can be done with a page. -/
inductive Operation where
  | assemble (source : String)
  | step
  | run (limit : UInt32)
  | reset
  | halted
  | registers
  | memoryView (start stop : UInt32)

/-- What a page answers. -/
inductive Answer where
  | assembled (outcome : Except AssemblyError Listing)
  | stepped (trace : Trace) (halted : Bool)
  | ran (traces : List Trace) (halted : Bool)
  | done
  | halted (halted : Bool)
  | registers (registers : Registers)
  | memory (outcome : Except InvalidRange MemoryView)

def perform (s : Simulator) : Operation → Answer × Simulator
  | .assemble source =>
    let (outcome, s) := s.assemble source
    (.assembled outcome, s)
  | .step =>
    let (trace, s) := s.step
    (.stepped trace s.halted, s)
  | .run limit =>
    let (traces, s) := run limit.toNat s
    (.ran traces s.halted, s)
  | .reset => (.done, s.reset)
  | .halted => (.halted s.halted, s)
  | .registers => (.registers s.registers, s)
  | .memoryView start stop => (.memory (s.memoryView start stop), s)

/-- What a page answers to some operations, one after the other. -/
def answers (s : Simulator) : List Operation → List Answer
  | [] => []
  | o :: rest => (s.perform o).1 :: (s.perform o).2.answers rest

/-- The page after some operations. -/
def after (s : Simulator) (history : List Operation) : Simulator :=
  history.foldl (fun s o => (s.perform o).2) s

/-- What a page that was new before the history answers to what comes later. -/
def answersAfter (history later : List Operation) : List Answer := (initial.after history).answers later

theorem after_append (s : Simulator) (history more : List Operation) :
    s.after (history ++ more) = (s.after history).after more := List.foldl_append

/-! ## One source -/

variable {source : String} {p : Program} {e : AssemblyError}

/-- A source that assembles makes the page what it makes of a new one. -/
theorem perform_of_ok (h : Mc6809.assemble source = .ok p) (s : Simulator) :
    s.perform (.assemble source) = (.assembled (.ok ⟨p.lines, p.size⟩), ⟨Machine.ofProgram p⟩) := by
  rw [perform, assemble, h]

/-- A source that does not assemble changes nothing. -/
theorem perform_of_error (h : Mc6809.assemble source = .error e) (s : Simulator) :
    s.perform (.assemble source) = (.assembled (.error e), s) := by
  rw [perform, assemble, h]

/-! ## What matters of a history -/

/-- Whether an operation goes on from the machine as it is. -/
def Operation.goesOn : Operation → Bool
  | .step | .run _ | .reset => true
  | .assemble _ | .halted | .registers | .memoryView .. => false

/-- What still matters of a history after one more operation. -/
def remember (history : List Operation) (o : Operation) : List Operation :=
  match o with
  | .assemble source =>
    match Mc6809.assemble source with
    | .ok _ => [o]
    | .error _ => history
  | .step | .run _ | .reset => history ++ [o]
  | .halted | .registers | .memoryView .. => history

/-- What matters of a history: the last source that assembled, and what the
machine did since. -/
def essential (history : List Operation) : List Operation := history.foldl remember []

theorem essential_append_singleton (history : List Operation) (o : Operation) :
    essential (history ++ [o]) = remember (essential history) o := by
  rw [essential, List.foldl_append]
  rfl

theorem after_remember (history : List Operation) (o : Operation) :
    initial.after (remember history o) = ((initial.after history).perform o).2 := by
  cases o with
  | assemble source =>
    rw [remember]
    cases h : Mc6809.assemble source with
    | ok p =>
      rw [perform_of_ok h]
      exact congrArg Prod.snd (perform_of_ok h initial)
    | error e => rw [perform_of_error h]
  | step | run limit | reset =>
    rw [remember, after_append]
    rfl
  | halted | registers | memoryView start stop => rfl

/-- The rest of a history makes no difference. -/
theorem after_essential (history : List Operation) :
    initial.after (essential history) = initial.after history := by
  induction history using List.reverseRecOn with
  | nil => rfl
  | append_singleton history o ih =>
    rw [essential_append_singleton, after_remember, ih, after_append]
    rfl

/-- After the source that matters there are only operations that go on from it. -/
theorem goesOn_of_mem_tail (history : List Operation) :
    ∀ o ∈ (essential history).tail, o.goesOn = true := by
  induction history using List.reverseRecOn with
  | nil => exact fun o ho => by cases ho
  | append_singleton history last ih =>
    have hgrown : last.goesOn = true → ∀ o ∈ (essential history ++ [last]).tail, o.goesOn = true := by
      intro hlast o ho
      cases hpast : essential history with
      | nil =>
        rw [hpast] at ho
        cases ho
      | cons first rest =>
        rw [hpast] at ho ih
        rcases List.mem_append.1 ho with ho | ho
        · exact ih o ho
        · exact List.mem_singleton.1 ho ▸ hlast
    rw [essential_append_singleton]
    cases last with
    | assemble source =>
      rw [remember]
      split
      · exact fun o ho => by cases ho
      · exact ih
    | step | run limit | reset => exact hgrown rfl
    | halted | registers | memoryView start stop => exact ih

theorem answersAfter_essential (history later : List Operation) :
    answersAfter (essential history) later = answersAfter history later := by
  rw [answersAfter, after_essential, answersAfter]

/-- What a page answers when a source is given to it after a history, and later on. -/
structure Forgets (history : List Operation) (source : String) : Prop where
  /-- The listing, or what is wrong with the source, has nothing to do with the history. -/
  answered : answersAfter history [.assemble source] = answersAfter [] [.assemble source]
  /-- A source that does not assemble might as well not have been given. -/
  rejected : ∀ e, Mc6809.assemble source = .error e → ∀ later,
    answersAfter (history ++ [.assemble source]) later = answersAfter history later
  /-- One that does might as well have been given to a new page. -/
  accepted : ∀ p, Mc6809.assemble source = .ok p → ∀ later,
    answersAfter (history ++ [.assemble source]) later = answersAfter [.assemble source] later
  started : ∀ p, Mc6809.assemble source = .ok p →
    (initial.after (history ++ [.assemble source])).machine =
      ⟨Registers.initial, Memory.blank.load p, .running, 0⟩
  /-- Of the history itself there matters one source, and what came after it. -/
  past : (∀ later, answersAfter (essential history) later = answersAfter history later) ∧
    ∀ o ∈ (essential history).tail, o.goesOn = true

/-- **Assembling is all or nothing, and forgets the past.** -/
theorem assembling_forgets (history : List Operation) (source : String) : Forgets history source where
  answered := by
    simp only [answersAfter, answers]
    cases h : Mc6809.assemble source with
    | ok p => rw [perform_of_ok h, perform_of_ok h]
    | error e => rw [perform_of_error h, perform_of_error h]
  rejected e h later := by
    have hnothing : essential (history ++ [.assemble source]) = essential history := by
      rw [essential_append_singleton, remember, h]
    rw [← answersAfter_essential, hnothing, answersAfter_essential]
  accepted p h later := by
    have hall : essential (history ++ [.assemble source]) = [.assemble source] := by
      rw [essential_append_singleton, remember, h]
    rw [← answersAfter_essential, hall]
  started p h := by
    rw [after_append]
    show (((initial.after history).perform (.assemble source)).2).machine = _
    rw [perform_of_ok h, Machine.ofProgram_eq]
  past := ⟨answersAfter_essential history, goesOn_of_mem_tail history⟩

end Simulator

end Mc6809
