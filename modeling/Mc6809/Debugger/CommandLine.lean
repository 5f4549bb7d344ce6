/-
The command line of the debugger: the commands under the names they are typed
by, and how the words of a line are read as one. Every name may be cut short
as long as it stays the only one with that beginning.
-/
import Mc6809.Command.Reading
import Mc6809.Debugger.Address
import Mc6809.Debugger.Command
import Mc6809.Memory
import Mc6809.Text.Integer
import Mc6809.Text.ShellWords

namespace Mc6809

namespace DebuggerCommand

open Command

/-- The value of an argument. -/
inductive Argument where
  | count (n : Nat)
  | address (a : Address)
  | register (r : Register)
  deriving Repr, DecidableEq

/-- Reads a number of steps. -/
def stepCount : Reader Argument :=
  ⟨fun raw =>
    match IntegerRange.unsigned64.read raw with
    | .ok n => .ok (.count n.toNat)
    | .error e => .error (some e.message)⟩

/-- Reads a number that has to lie between bounds narrower than its type. -/
def countWithin (type : IntegerRange) (low high : Nat) : Reader Argument :=
  ⟨fun raw =>
    match type.read raw with
    | .ok n =>
      if (low : Int) ≤ n ∧ n ≤ high then .ok (.count n.toNat)
      else .error (some
        (toString n ++ " is not in " ++ toString low ++ "..=" ++ toString high))
    | .error e => .error (some e.message)⟩

def addressReader : Reader Argument :=
  ⟨fun raw =>
    match readAddress raw with
    | .ok a => .ok (.address a)
    | .error e => .error (some e.message)⟩

def registerReader : Reader Argument :=
  ⟨fun raw =>
    match Register.ofName? raw with
    | some r => .ok (.register r)
    | none => .error (some Register.unknownMessage)⟩

private def addressArgument : Positional Argument := ⟨"address", "ADDRESS", true, addressReader⟩

private def countArgument (reader : Reader Argument) : Positional Argument :=
  ⟨"count", "COUNT", false, reader⟩

/-- All commands. -/
def spec : CommandSpec Argument :=
  .mk "debugger" "Debugger commands" [] [] [] [] true
    [ .leaf "step" "Run one or more instructions" ["s"] [countArgument stepCount],
      .leaf "continue" "Run until a breakpoint is hit or the processor halts" ["c"] [],
      .leaf "reset" "Reset the processor, keeping the memory as is" [] [],
      .leaf "registers" "Print all registers, or a single one" []
        [⟨"register", "REGISTER", false, registerReader⟩],
      .leaf "memory" "Dump a block of memory" []
        [addressArgument, countArgument (countWithin .unsigned64 1 Memory.addressSpace)],
      .leaf "list" "Disassemble the instructions that follow" []
        [countArgument (countWithin .signed64 0 0xFFFFFFFF)],
      .leaf "break" "Stop \x60continue\x60 when the program counter reaches an address" []
        [addressArgument],
      .leaf "unbreak" "Remove a breakpoint" [] [addressArgument],
      .mk "info" "Show breakpoints and the number of executed instructions" [] [] [] [] false
        [.leaf "breakpoints" "Breakpoints, in address order" [] [],
          .leaf "steps" "Instructions executed since the last reset" [] []],
      .leaf "exit" "Leave the debugger" ["quit"] [] ]

/-- The help on all commands, line by line. -/
def help : List String :=
  [spec.about, "", "COMMANDS:"] ++ spec.overview ++
    ["", "", "", "Type \"help <command>\" for details about a command.",
      "Pressing enter on an empty line repeats the previous command."]

/-- The value given for an argument. -/
def argument? (given : List (Given Argument)) (id : String) : Option Argument :=
  (given.find? (·.id == id)).bind (·.value?)

/-- The number given, or else `default`. -/
def countOr (default : Nat) (given : List (Given Argument)) : Nat :=
  match argument? given "count" with
  | some (.count n) => n
  | _ => default

/-- The command that was given, level by level. -/
def ofLevels? : List (Level Argument) → Option DebuggerCommand
  | [_, ⟨"step", given⟩] => some (.step (countOr 1 given))
  | [_, ⟨"continue", _⟩] => some .resume
  | [_, ⟨"reset", _⟩] => some .reset
  | [_, ⟨"registers", given⟩] =>
    match argument? given "register" with
    | some (.register r) => some (.registers (some r))
    | _ => some (.registers none)
  | [_, ⟨"memory", given⟩] =>
    match argument? given "address" with
    | some (.address a) => some (.memory a (countOr 1 given))
    | _ => none
  | [_, ⟨"list", given⟩] => some (.list (countOr 10 given))
  | [_, ⟨"break", given⟩] =>
    match argument? given "address" with
    | some (.address a) => some (.setBreakpoint a)
    | _ => none
  | [_, ⟨"unbreak", given⟩] =>
    match argument? given "address" with
    | some (.address a) => some (.clearBreakpoint a)
    | _ => none
  | [_, ⟨"info", _⟩] => some (.info none)
  | [_, ⟨"info", _⟩, ⟨"breakpoints", _⟩] => some (.info (some .breakpoints))
  | [_, ⟨"info", _⟩, ⟨"steps", _⟩] => some (.info (some .steps))
  | [_, ⟨"exit", _⟩] => some .leave
  | _ => none

/-- Reads the words of a line. -/
def read (words : List String) : Except Stop DebuggerCommand := do
  match ofLevels? (← spec.read true words) with
  | some command => return command
  | none => .error .usage

end DebuggerCommand

end Mc6809
