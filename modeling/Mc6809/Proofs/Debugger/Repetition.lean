/-
What a blank line of a session stands for. The command that a session keeps to
repeat is the one of the nearest earlier line that was read as a command
(`Session.previous?_reply`), whatever lines without one came in between. So
blank lines can be spelled out before the session starts, and lines that are
not read as commands can be left out (`Session.blank_lines_repeat`). What is
lost with these are help and complaints. The log tells of them only where a
quote is open in a line, and what is typed never comes in such lines
(`Session.words?_of_typed`).
-/
import Mc6809.Debugger.Input
import Mc6809.Debugger.Session
import Mc6809.Proofs.Drivers

namespace Mc6809

/-- The command that a record tells the execution of. -/
def Log.Record.received? (r : Log.Record) : Option DebuggerCommand :=
  match r.event with
  | .debugger (.received command) => some command
  | _ => none

/-- The command that an output tells the execution of. -/
def Output.received? (o : Output) : Option DebuggerCommand := o.record?.bind Log.Record.received?

/-! ## What a command tells -/

namespace Debugger

open Log (Record)

/-- Records that tell the execution of no command. -/
def Quiet (records : List Record) : Prop := ∀ r ∈ records, r.received? = none

theorem quiet_nil : Quiet [] := List.forall_mem_nil _

theorem quiet_append_iff {records more : List Record} :
    Quiet (records ++ more) ↔ Quiet records ∧ Quiet more := List.forall_mem_append

theorem quiet_ofDebugger {e : DebuggerEvent} (h : (Record.ofDebugger e).received? = none) :
    Quiet [.ofDebugger e] := List.forall_mem_singleton.2 h

theorem quiet_ofMachine (spans : List Log.Span) (events : List MachineEvent) :
    Quiet (Record.ofMachine spans events) := by
  intro r hr
  obtain ⟨e, -, rfl⟩ := List.mem_map.1 hr
  rfl

theorem quiet_map {α : Type} {f : α → DebuggerEvent} {items : List α}
    (h : ∀ a ∈ items, (Record.ofDebugger (f a)).received? = none) :
    Quiet (items.map fun a => .ofDebugger (f a)) := by
  intro r hr
  obtain ⟨a, ha, rfl⟩ := List.mem_map.1 hr
  exact h a ha

theorem quiet_stepRecords (m : Machine) : Quiet (stepRecords m) := by
  rw [stepRecords, List.append_cons, quiet_append_iff, quiet_append_iff]
  refine ⟨⟨quiet_ofMachine _ _, quiet_ofDebugger rfl⟩, ?_⟩
  split
  · exact quiet_ofDebugger rfl
  · exact quiet_nil

theorem quiet_step (d : Debugger) : Quiet d.step.1 := by
  rw [step_eq]
  exact quiet_stepRecords d.machine

theorem quiet_stepTimes (count : ℕ) (d : Debugger) : Quiet (d.stepTimes count).1 := by
  induction count generalizing d with
  | zero => exact quiet_nil
  | succ count ih =>
    simp only [stepTimes]
    split
    · exact d.quiet_step
    · exact quiet_append_iff.2 ⟨d.quiet_step, ih _⟩

theorem quiet_resume (limit : ℕ) (d : Debugger) : Quiet (d.resume limit).records := by
  induction limit generalizing d with
  | zero => exact quiet_nil
  | succ limit ih =>
    rw [resume]
    split
    · exact quiet_nil
    · simp only
      split
      · exact quiet_append_iff.2 ⟨d.quiet_step, quiet_ofDebugger rfl⟩
      · exact quiet_append_iff.2 ⟨d.quiet_step, ih _⟩

/-- What a command tells tells the execution of no other. -/
theorem quiet_execute (d : Debugger) (limit : ℕ) (command : DebuggerCommand) :
    Quiet (d.execute limit command).1 := by
  cases command with
  | leave => exact quiet_nil
  | step count =>
    rw [execute]
    split
    · exact quiet_ofDebugger rfl
    · exact quiet_stepTimes count d
  | resume =>
    rw [execute, proceed]
    split
    · exact quiet_ofDebugger rfl
    · split
      · exact quiet_append_iff.2 ⟨quiet_resume limit d, quiet_ofDebugger rfl⟩
      · exact quiet_resume limit d
  | reset => exact quiet_append_iff.2 ⟨quiet_ofMachine _ _, quiet_ofDebugger rfl⟩
  | registers register? => exact quiet_ofDebugger rfl
  | memory address count => exact quiet_map fun _ _ => rfl
  | list count => exact quiet_map fun _ _ => rfl
  | setBreakpoint address =>
    rw [execute]
    split <;> exact quiet_ofDebugger rfl
  | clearBreakpoint address =>
    rw [execute]
    split <;> exact quiet_ofDebugger rfl
  | info topic? =>
    have hbreakpoints : ∀ e ∈ d.breakpointEvents, (Record.ofDebugger e).received? = none := by
      intro e he
      unfold breakpointEvents at he
      split at he
      · obtain rfl := List.mem_singleton.1 he
        rfl
      · obtain ⟨address, -, rfl⟩ := List.mem_map.1 he
        rfl
    refine quiet_map fun e he => ?_
    rcases topic? with - | - | -
    · rcases List.mem_append.1 he with he | he
      · exact hbreakpoints e he
      · obtain rfl := List.mem_singleton.1 he
        rfl
    · exact hbreakpoints e he
    · obtain rfl := List.mem_singleton.1 he
      rfl

end Debugger

namespace Session

/-- The command that a line is read as, if it is not blank. -/
def command? (line : String) : Option DebuggerCommand :=
  if isBlankLine line then none
  else (words? line).bind fun words => (DebuggerCommand.read words).toOption

def isCommandLine (line : String) : Bool := (command? line).isSome

/-- Whether anything but help or a complaint may come of a line. -/
def matters (line : String) : Bool := isBlankLine line || isCommandLine line

/-- Whether the log may tell anything of a line: it matters, or a quote is open. -/
def isLogged (line : String) : Bool := matters line || (words? line).isNone

/-- The command that a line stands for. -/
def meaning? (s : Session) (line : String) : Option DebuggerCommand :=
  if isBlankLine line then s.previous? else command? line

/-- Lines with each blank one replaced by the nearest line before it that is
read as a command, and dropped if there is none. The lines `before` come
first, the nearest of them at the head. -/
def spelledOut (before : List String) : List String → List String
  | [] => []
  | line :: rest =>
    (if isBlankLine line then (before.find? isCommandLine).toList else [line]) ++
      spelledOut (line :: before) rest

/-- What a session does with lines, up to the one that leaves the debugger or
whose execution is left unfinished. -/
structure Conversation where
  commands : List DebuggerCommand
  outputs : List Output
  session : Session
  flow : Flow

/-- One conversation that goes on with another. -/
def Conversation.andThen (c more : Conversation) : Conversation :=
  ⟨c.commands ++ more.commands, c.outputs ++ more.outputs, more.session, more.flow⟩

/-- The conversation on a single line. -/
def respond (s : Session) (limit : Nat) (line : String) : Conversation :=
  let r := s.reply limit line
  ⟨(s.meaning? line).toList, r.outputs, r.session, r.flow⟩

/-- The conversation on some lines. -/
def converse (s : Session) (limit : Nat) : List String → Conversation
  | [] => ⟨[], [], s, .prompt⟩
  | line :: rest =>
    let c := s.respond limit line
    if c.flow = .prompt then c.andThen (c.session.converse limit rest) else c

/-- Two conversations that differ in nothing but outputs that `tell?` leaves out. -/
structure Conversation.SameBut {α : Type} (tell? : Output → Option α) (c c' : Conversation) : Prop where
  commands : c.commands = c'.commands
  told : c.outputs.filterMap tell? = c'.outputs.filterMap tell?
  session : c.session = c'.session
  flow : c.flow = c'.flow

variable {s : Session} {limit : Nat} {line : String} {command : DebuggerCommand}

theorem converse_cons_of_prompt {rest : List String} (h : (s.reply limit line).flow = .prompt) :
    s.converse limit (line :: rest) =
      (s.respond limit line).andThen ((s.reply limit line).session.converse limit rest) := by
  rw [converse, respond, if_pos h]

theorem converse_cons_of_end {rest : List String} (h : (s.reply limit line).flow ≠ .prompt) :
    s.converse limit (line :: rest) = s.respond limit line := by
  rw [converse, respond, if_neg h]

/-- The answers to lines are a conversation, unless execution is left unfinished. -/
theorem replies_eq (s : Session) (limit : Nat) (lines : List String) :
    s.replies limit lines =
      match (s.converse limit lines).flow with
      | .prompt => some ((s.converse limit lines).outputs, (s.converse limit lines).session, false)
      | .leave => some ((s.converse limit lines).outputs, (s.converse limit lines).session, true)
      | .resuming _ => none := by
  induction lines generalizing s with
  | nil => rfl
  | cons line rest ih =>
    rw [replies]
    cases hflow : (s.reply limit line).flow with
    | prompt =>
      rw [converse_cons_of_prompt hflow]
      simp only [ih, Conversation.andThen, respond]
      cases ((s.reply limit line).session.converse limit rest).flow <;> rfl
    | leave =>
      rw [converse_cons_of_end (by simp [hflow]), respond]
      simp only [hflow]
    | resuming count =>
      rw [converse_cons_of_end (by simp [hflow]), respond]
      simp only [hflow]

/-! ## One line -/

theorem read_of_command? (h : command? line = some command) :
    isBlankLine line = false ∧
      ∃ words, words? line = some words ∧ DebuggerCommand.read words = .ok command := by
  unfold command? at h
  split at h
  next => cases h
  next hblank =>
    obtain ⟨words, hwords, hread⟩ := Option.bind_eq_some_iff.1 h
    refine ⟨Bool.eq_false_iff.2 hblank, words, hwords, ?_⟩
    cases hcommand : DebuggerCommand.read words with
    | error stop =>
      rw [hcommand] at hread
      cases hread
    | ok other =>
      rw [hcommand] at hread
      cases hread
      rfl

/-- A line that stands for a command has it carried out. -/
theorem reply_of_meaning (h : s.meaning? line = some command) :
    s.reply limit line = s.carryOut limit command := by
  unfold meaning? at h
  unfold reply
  split at h
  next hblank => simp only [hblank, if_true, h]
  next hblank =>
    obtain ⟨-, words, hwords, hread⟩ := read_of_command? h
    simp only [hblank, if_false, hwords, hread, Bool.false_eq_true]

theorem filterMap_record?_explain (stop : Command.Stop) :
    (explain stop).filterMap Output.record? = [] := by
  unfold explain
  split
  · rfl
  · simp [List.filterMap_map, Output.record?, Function.comp_def]
  · cases DebuggerCommand.spec.find? _ <;> rfl
  · simp [List.filterMap_map, Output.record?, Function.comp_def]
  · rfl

/-- Where the log is not told anything, it is not told of a command. -/
theorem filterMap_received?_of_record? {outputs : List Output}
    (h : outputs.filterMap Output.record? = []) : outputs.filterMap Output.received? = [] :=
  List.filterMap_eq_nil_iff.2 fun o ho => by
    rw [Output.received?, List.filterMap_eq_nil_iff.1 h o ho, Option.bind_none]

/-- A line that stands for no command changes nothing and tells of none; and if
no quote is open in it, the log is not told of it at all. -/
theorem reply_of_no_meaning (h : s.meaning? line = none) (limit : Nat) :
    ∃ outputs, s.reply limit line = ⟨outputs, s, .prompt⟩ ∧
      outputs.filterMap Output.received? = [] ∧
      ((words? line).isNone = false → outputs.filterMap Output.record? = []) := by
  unfold meaning? command? at h
  unfold reply
  cases hblank : isBlankLine line with
  | true =>
    rw [hblank, if_pos rfl] at h
    exact ⟨[], by simp [h], rfl, fun _ => rfl⟩
  | false =>
    cases hwords : words? line with
    | none => exact ⟨[.ofDebugger .unsplit], rfl, rfl, fun hsplit => by cases hsplit⟩
    | some words =>
      cases hread : DebuggerCommand.read words with
      | ok command => simp [hblank, hwords, hread, Except.toOption] at h
      | error stop =>
        have hsilent := filterMap_record?_explain stop
        exact ⟨explain stop, by simp [hread], filterMap_received?_of_record? hsilent,
          fun _ => hsilent⟩

theorem command?_of_blank (h : isBlankLine line = true) : command? line = none := if_pos h

/-- Carrying out a command is told once. -/
theorem filterMap_received?_carryOut (s : Session) (limit : Nat) (command : DebuggerCommand) :
    (s.carryOut limit command).outputs.filterMap Output.received? = [command] := by
  have hquiet : ((s.debugger.execute limit command).1.map Output.record).filterMap Output.received? = [] := by
    rw [List.filterMap_map]
    exact List.filterMap_eq_nil_iff.2 (s.debugger.quiet_execute limit command)
  rw [carryOut, List.filterMap_cons_some (f := Output.received?) rfl, hquiet]

theorem commands_respond (s : Session) (limit : Nat) (line : String) :
    (s.respond limit line).commands = (s.respond limit line).outputs.filterMap Output.received? := by
  rw [respond]
  cases hmeaning : s.meaning? line with
  | none =>
    obtain ⟨outputs, hreply, hsilent, -⟩ := reply_of_no_meaning hmeaning limit
    rw [hreply]
    exact hsilent.symm
  | some command =>
    rw [reply_of_meaning hmeaning, filterMap_received?_carryOut]
    rfl

/-- The command to repeat is the last one that was read. -/
theorem previous?_reply (s : Session) (limit : Nat) (line : String) :
    (s.reply limit line).session.previous? = (command? line).or s.previous? := by
  have hread : (command? line).or s.previous? = (s.meaning? line).or s.previous? := by
    unfold meaning?
    split
    next hblank => rw [command?_of_blank hblank, Option.none_or, Option.or_self]
    next => rfl
  rw [hread]
  cases hmeaning : s.meaning? line with
  | none =>
    obtain ⟨outputs, hreply, -, -⟩ := reply_of_no_meaning hmeaning limit
    rw [hreply, Option.none_or]
  | some command =>
    rw [reply_of_meaning hmeaning]
    rfl

/-! ## Whole sessions -/

/-- The log tells just the commands that are carried out. -/
theorem commands_converse (s : Session) (limit : Nat) (lines : List String) :
    (s.converse limit lines).commands =
      (s.converse limit lines).outputs.filterMap Output.received? := by
  induction lines generalizing s with
  | nil => rfl
  | cons line rest ih =>
    by_cases hflow : (s.reply limit line).flow = .prompt
    · rw [converse_cons_of_prompt hflow, Conversation.andThen, List.filterMap_append,
        ← commands_respond, ih]
    · rw [converse_cons_of_end hflow]
      exact commands_respond s limit line

/-- The nearest line that is read as a command, and the command. -/
theorem findSome?_command? (before : List String) :
    before.findSome? command? = (before.find? isCommandLine).bind command? := by
  induction before with
  | nil => rfl
  | cons line before ih =>
    rw [List.findSome?_cons, List.find?_cons]
    cases hread : command? line with
    | none => simpa [isCommandLine, hread] using ih
    | some command => simp [isCommandLine, hread]

/-- A blank line can be replaced by the line whose command it repeats. -/
theorem respond_of_blank {earlier : String} (hblank : isBlankLine line = true)
    (hearlier : command? earlier = some command) (hprevious : s.previous? = some command)
    (limit : Nat) : s.respond limit line = s.respond limit earlier := by
  have hline : s.meaning? line = some command := by rw [meaning?, if_pos hblank, hprevious]
  have hsame : s.meaning? earlier = some command := by
    rw [meaning?, (read_of_command? hearlier).1, if_neg Bool.false_ne_true, hearlier]
  rw [respond, respond, reply_of_meaning hline, reply_of_meaning hsame, hline, hsame]

/-- Without a command to repeat, a blank line can be dropped. -/
theorem converse_of_blank (hblank : isBlankLine line = true) (hprevious : s.previous? = none)
    (rest : List String) : s.converse limit (line :: rest) = s.converse limit rest := by
  have hreply : s.reply limit line = ⟨[], s, .prompt⟩ := by rw [reply, if_pos hblank, hprevious]
  have hmeaning : s.meaning? line = none := by rw [meaning?, if_pos hblank, hprevious]
  rw [converse_cons_of_prompt (by rw [hreply]), respond, hmeaning, hreply]
  rfl

theorem converse_cons_congr {other : String} {rest rest' : List String}
    (hline : s.respond limit line = s.respond limit other)
    (hrest : (s.respond limit other).session.converse limit rest =
      (s.respond limit other).session.converse limit rest') :
    s.converse limit (line :: rest) = s.converse limit (other :: rest') := by
  rw [converse, converse, hline]
  simp only [hrest]

/-- Blank lines can be spelled out if the command to repeat is that of the
lines before. -/
theorem converse_spelledOut {before : List String} (lines : List String)
    (h : s.previous? = before.findSome? command?) :
    s.converse limit (spelledOut before lines) = s.converse limit lines := by
  induction lines generalizing s before with
  | nil => rfl
  | cons line rest ih =>
    have hrest : (s.respond limit line).session.converse limit (spelledOut (line :: before) rest) =
        (s.respond limit line).session.converse limit rest := by
      refine ih ?_
      rw [respond, previous?_reply, List.findSome?_cons, h]
      cases command? line <;> rfl
    rw [spelledOut]
    cases hblank : isBlankLine line with
    | false => exact converse_cons_congr rfl hrest
    | true =>
      rw [findSome?_command?] at h
      cases hfind : before.find? isCommandLine with
      | none =>
        rw [hfind, Option.bind_none] at h
        have hstays : (s.respond limit line).session = s := by rw [respond, reply, if_pos hblank, h]
        rw [hstays] at hrest
        rw [converse_of_blank hblank h]
        exact hrest
      | some earlier =>
        obtain ⟨command, hearlier⟩ :=
          Option.isSome_iff_exists.1 (List.find?_some (p := isCommandLine) hfind)
        rw [hfind, Option.bind_some, hearlier] at h
        have hsame := respond_of_blank hblank hearlier h limit
        exact converse_cons_congr hsame.symm hrest

/-! ## Lines left out -/

section

variable {α : Type} {tell? : Output → Option α}

theorem Conversation.SameBut.refl (c : Conversation) : c.SameBut tell? c := ⟨rfl, rfl, rfl, rfl⟩

theorem Conversation.SameBut.andThen {more more' : Conversation} (h : more.SameBut tell? more')
    (c : Conversation) : (c.andThen more).SameBut tell? (c.andThen more') where
  commands := congrArg (c.commands ++ ·) h.commands
  told := by
    simp only [Conversation.andThen, List.filterMap_append]
    rw [h.told]
  session := h.session
  flow := h.flow

/-- A conversation that begins with answers which `tell?` leaves out. -/
theorem Conversation.SameBut.of_silent {c c' : Conversation} (h : c.SameBut tell? c') {outputs : List Output}
    (hsilent : outputs.filterMap tell? = []) (s : Session) :
    c.SameBut tell? (Conversation.andThen ⟨[], outputs, s, .prompt⟩ c') where
  commands := h.commands
  told := by
    simp only [Conversation.andThen, List.filterMap_append, hsilent, List.nil_append]
    exact h.told
  session := h.session
  flow := h.flow

/-- Lines that stand for no command can be left out, as far as `tell?` leaves out
what is answered to them. -/
theorem converse_filter {keep : String → Bool}
    (hkeep : ∀ (s : Session) line, keep line = false → s.meaning? line = none ∧
      ((s.reply limit line).outputs.filterMap tell? = []))
    (s : Session) (lines : List String) :
    (s.converse limit (lines.filter keep)).SameBut tell? (s.converse limit lines) := by
  induction lines generalizing s with
  | nil => exact .refl _
  | cons line rest ih =>
    cases hline : keep line with
    | true =>
      rw [List.filter_cons_of_pos hline]
      by_cases hflow : (s.reply limit line).flow = .prompt
      · rw [converse_cons_of_prompt hflow, converse_cons_of_prompt hflow]
        exact (ih _).andThen _
      · rw [converse_cons_of_end hflow, converse_cons_of_end hflow]
        exact .refl _
    | false =>
      obtain ⟨hmeaning, hsilent⟩ := hkeep s line hline
      obtain ⟨outputs, hreply, -, -⟩ := reply_of_no_meaning hmeaning limit
      rw [hreply] at hsilent
      rw [List.filter_cons_of_neg (by simp [hline]), converse_cons_of_prompt (by rw [hreply]), respond,
        hmeaning, hreply]
      exact (ih s).of_silent hsilent s

end

theorem meaning?_of_not_matters (h : matters line = false) (s : Session) : s.meaning? line = none := by
  obtain ⟨hblank, hother⟩ := Bool.or_eq_false_iff.1 h
  rw [meaning?, hblank, if_neg Bool.false_ne_true]
  exact Option.isNone_iff_eq_none.1 (by simpa [isCommandLine] using hother)

/-- Lines that are neither blank nor commands are answered with help or a
complaint, and nothing else comes of them. -/
theorem converse_filter_matters (s : Session) (limit : Nat) (lines : List String) :
    (s.converse limit (lines.filter matters)).SameBut Output.received? (s.converse limit lines) := by
  refine converse_filter (fun s line h => ?_) s lines
  have hmeaning := meaning?_of_not_matters h s
  obtain ⟨outputs, hreply, hsilent, -⟩ := reply_of_no_meaning hmeaning limit
  exact ⟨hmeaning, by rw [hreply, hsilent]⟩

/-- The log has no word of them, unless a quote is open. -/
theorem converse_filter_isLogged (s : Session) (limit : Nat) (lines : List String) :
    (s.converse limit (lines.filter isLogged)).SameBut Output.record? (s.converse limit lines) := by
  refine converse_filter (fun s line h => ?_) s lines
  obtain ⟨hother, hsplit⟩ := Bool.or_eq_false_iff.1 h
  have hmeaning := meaning?_of_not_matters hother s
  obtain ⟨outputs, hreply, -, hsilent⟩ := reply_of_no_meaning hmeaning limit
  exact ⟨hmeaning, by rw [hreply, hsilent hsplit]⟩

/-- The words of a line that is typed can be told apart. -/
theorem words?_of_typed {bytes : List UInt8} (h : line ∈ (Input.ofBytes bytes).lines) :
    (words? line).isNone = false := by
  obtain ⟨text, htext, rfl⟩ := List.mem_map.1 h
  obtain ⟨words, hwords⟩ := Input.split_of_mem_joinLines htext
  rw [words?, String.toList_ofList, hwords]
  rfl

/-- What a session does with lines, the commands that it tells of included, is
what it does with each blank one spelled out; and the lines that are neither
blank nor commands do nothing. -/
structure BlankLinesRepeat (s : Session) (limit : Nat) (lines : List String) : Prop where
  told : (s.converse limit lines).commands =
    (s.converse limit lines).outputs.filterMap Output.received?
  conversation : s.converse limit (spelledOut [] lines) = s.converse limit lines
  replies : s.replies limit (spelledOut [] lines) = s.replies limit lines
  others : (s.converse limit (lines.filter matters)).SameBut Output.received? (s.converse limit lines)
  logged : (s.converse limit (lines.filter isLogged)).SameBut Output.record? (s.converse limit lines)
  /-- Of lines that are typed, the log shows what comes of the blank ones and of the commands only. -/
  typed : ∀ bytes, lines = (Input.ofBytes bytes).lines →
    (s.converse limit (lines.filter matters)).SameBut Output.record? (s.converse limit lines)

/-- **A blank line means the last command.** -/
theorem blank_lines_repeat (m : Machine) (limit : Nat) (lines : List String) :
    (ofMachine m).BlankLinesRepeat limit lines where
  told := commands_converse _ limit lines
  conversation := converse_spelledOut lines rfl
  replies := by rw [replies_eq, replies_eq, converse_spelledOut lines rfl]
  others := converse_filter_matters _ limit lines
  logged := converse_filter_isLogged _ limit lines
  typed := by
    rintro bytes rfl
    have hfilter : (Input.ofBytes bytes).lines.filter matters =
        (Input.ofBytes bytes).lines.filter isLogged :=
      List.filter_congr fun line hline => by rw [isLogged, words?_of_typed hline, Bool.or_false]
    rw [hfilter]
    exact converse_filter_isLogged _ limit _

example : spelledOut [] ["", "list", "help", " ", "# end", "step 2", ""] =
    ["list", "help", "list", "# end", "step 2", "step 2"] := by decide

end Session

end Mc6809
