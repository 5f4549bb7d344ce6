/-
The command line of the program: what it can be asked to do, and how its
arguments are read. Options that concern the log are taken before and after
the name of a command; where both give the same one, the one after it counts.
-/
import Mc6809.Command.Reading
import Mc6809.Log.Layout
import Mc6809.Text.Integer

namespace Mc6809

structure RunRequest where
  path : String
  interactive : Bool
  /-- After how many instructions to stop. -/
  maxSteps? : Option Nat
  /-- The milliseconds to wait after each instruction. -/
  delay : Nat
  trace : Bool
  deriving Repr, DecidableEq

/-- What the program is asked to do. -/
inductive Request where
  | run (r : RunRequest)
  | assemble (path : String)
  | complete (shell : String)
  deriving Repr, DecidableEq

/-- A command line that was understood. -/
structure Invocation where
  /-- How often more detail was asked for. -/
  verbosity : Nat
  colored : Bool
  /-- Whether the log is asked for as data, so that there is no text of it. -/
  asData : Bool
  request : Request
  deriving Repr, DecidableEq

namespace Invocation

open Command

inductive Argument where
  | text (s : String)
  | count (n : Nat)
  deriving Repr, DecidableEq

def textReader : Reader Argument := ⟨fun raw => .ok (.text raw)⟩

/-- Reads a number of instructions or milliseconds. -/
def countReader : Reader Argument :=
  ⟨fun raw =>
    match IntegerRange.unsigned64.read raw with
    | .ok n => .ok (.count n.toNat)
    | .error e => .error (some e.message)⟩

/-- The shells that there can be completions for. -/
def shells : List String := ["bash", "elvish", "fish", "powershell", "zsh"]

def shellReader : Reader Argument :=
  ⟨fun raw => if shells.contains raw then .ok (.text raw) else .error none⟩

private def flag (id : String) (short? : Option Char) : Opt Argument :=
  ⟨id, short?, id, .flag, false, none⟩

/-- A flag of which only one may be given: it says what the log looks like. -/
private def formatFlag (id : String) (short : Char) : Opt Argument :=
  ⟨id, some short, id, .flag, true, some "format"⟩

private def countOption (id : String) (short : Char) (shown : String) : Opt Argument :=
  ⟨id, some short, id, .value shown countReader, false, none⟩

private def inputArgument : Positional Argument := ⟨"input", "INPUT", true, textReader⟩

/-- Everything the program can be asked to do. -/
def spec : CommandSpec Argument :=
  .mk "m6809" "A simulator for a subset of the Motorola 6809 processor" [] []
    [ ⟨"verbose", some 'v', "verbose", .counter, true, none⟩,
      formatFlag "color" 'c', formatFlag "no-color" 'C', formatFlag "json" 'j',
      ⟨"version", some 'V', "version", .version, false, none⟩ ]
    [] true
    [ .mk "run" "Assemble and run a program" [] []
        [ flag "interactive" (some 'i'), countOption "max-steps" 'm' "MAX_STEPS",
          countOption "delay" 'd' "DELAY", flag "trace" (some 't') ]
        [inputArgument] false [],
      .leaf "assemble" "Assemble a program and print its listing" [] [inputArgument],
      .leaf "completion" "Generate shell completions" []
        [⟨"shell", "SHELL", true, shellReader⟩] ]

/-- What the program says of its version. -/
def version : String := "m6809 0.1.0"

/-- The help on the program as a whole. -/
def help : List String := [spec.about, "", "Commands:"] ++ spec.overview

/-- What was given for an argument of the last level that has it. -/
def given? (levels : List (Level Argument)) (id : String) : Option (Given Argument) :=
  levels.reverse.findSome? fun level => level.given.find? (·.id == id)

def isGiven (levels : List (Level Argument)) (id : String) : Bool := (given? levels id).isSome

def textOf? (levels : List (Level Argument)) (id : String) : Option String :=
  match (given? levels id).bind (·.value?) with
  | some (.text s) => some s
  | _ => none

def countOf? (levels : List (Level Argument)) (id : String) : Option Nat :=
  match (given? levels id).bind (·.value?) with
  | some (.count n) => some n
  | _ => none

def requestOf? (levels : List (Level Argument)) : Option Request := do
  match levels with
  | [_, ⟨"run", _⟩] =>
    return .run
      { path := ← textOf? levels "input"
        interactive := isGiven levels "interactive"
        maxSteps? := countOf? levels "max-steps"
        delay := (countOf? levels "delay").getD 0
        trace := isGiven levels "trace" }
  | [_, ⟨"assemble", _⟩] => return .assemble (← textOf? levels "input")
  | [_, ⟨"completion", _⟩] => return .complete (← textOf? levels "shell")
  | _ => none

def read (arguments : List String) : Except Stop Invocation := do
  let levels ← spec.read false arguments
  match requestOf? levels with
  | some request =>
    return {
      verbosity := ((given? levels "verbose").map (·.count)).getD 0
      colored := isGiven levels "color"
      asData := isGiven levels "json"
      request }
  | none => .error .usage

/-- How the log looks: as the filter asks that is set from outside, or else as
detailed as the command line asks. -/
def layout (i : Invocation) (filterText? : Option String) : Log.Layout :=
  { filter :=
      if i.asData then ⟨[]⟩
      else (filterText?.bind Log.Filter.read?).getD (.ofVerbosity i.verbosity)
    colored := i.colored }

end Invocation

end Mc6809
