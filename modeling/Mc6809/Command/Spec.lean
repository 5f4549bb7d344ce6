/-
What a command is: its names, the arguments it takes and its subcommands. One
description serves for reading a command line and for completing one.
`V` is the type of the values that arguments are read as.
-/
import Mc6809.Text.Blank

namespace Mc6809

namespace Command

/-- How the text of a value is read. A refusal gives the reason, or none where
the text is simply not one of a fixed list of words. -/
structure Reader (V : Type) where
  read : String → Except (Option String) V

/-- An argument told by its position. -/
structure Positional (V : Type) where
  id : String
  /-- The name it is shown by. -/
  shown : String
  required : Bool
  reader : Reader V

namespace Positional

/-- The argument in a message: brackets if it may be left out. -/
def text {V : Type} (p : Positional V) : String :=
  if p.required then "<" ++ p.shown ++ ">" else "[" ++ p.shown ++ "]"

end Positional

inductive OptionKind (V : Type) where
  /-- It is given or not, at most once. -/
  | flag
  /-- It is counted. -/
  | counter
  /-- It takes one value, shown by a name, and is given at most once. -/
  | value (shown : String) (reader : Reader V)
  | help
  | version

/-- An argument told by its name. -/
structure Opt (V : Type) where
  id : String
  short? : Option Char
  long : String
  kind : OptionKind V
  /-- Whether subcommands take it too. -/
  isGlobal : Bool
  /-- The group of options of which only one may be given. -/
  group? : Option String

namespace Opt

def text {V : Type} (o : Opt V) : String :=
  match o.kind with
  | .counter => "--" ++ o.long ++ "..."
  | .value shown _ => "--" ++ o.long ++ " <" ++ shown ++ ">"
  | .flag | .help | .version => "--" ++ o.long

end Opt

end Command

/-- A command. Its hidden aliases are accepted, its visible ones also offered. -/
inductive CommandSpec (V : Type) where
  | mk (name about : String) (hiddenAliases visibleAliases : List String)
    (options : List (Command.Opt V)) (positionals : List (Command.Positional V))
    (needsSubcommand : Bool) (subcommands : List (CommandSpec V))

namespace CommandSpec

variable {V : Type}

def name : CommandSpec V → String
  | mk name .. => name

def about : CommandSpec V → String
  | mk _ about .. => about

def hiddenAliases : CommandSpec V → List String
  | mk _ _ hidden .. => hidden

def visibleAliases : CommandSpec V → List String
  | mk _ _ _ visible .. => visible

def options : CommandSpec V → List (Command.Opt V)
  | mk _ _ _ _ options .. => options

def positionals : CommandSpec V → List (Command.Positional V)
  | mk _ _ _ _ _ positionals .. => positionals

/-- Whether the command does nothing without a subcommand. -/
def needsSubcommand : CommandSpec V → Bool
  | mk _ _ _ _ _ _ needs _ => needs

def subcommands : CommandSpec V → List (CommandSpec V)
  | mk _ _ _ _ _ _ _ subcommands => subcommands

def aliases (c : CommandSpec V) : List String := c.hiddenAliases ++ c.visibleAliases

/-- Whether a word is exactly one of the command's names. -/
def answersTo (c : CommandSpec V) (word : String) : Bool := c.name == word || c.aliases.contains word

/-- The first subcommand that has exactly this name or alias. -/
def find? (c : CommandSpec V) (word : String) : Option (CommandSpec V) :=
  c.subcommands.find? (·.answersTo word)

/-- A command that takes only positional arguments. -/
def leaf (name about : String) (aliases : List String)
    (positionals : List (Command.Positional V)) : CommandSpec V :=
  mk name about aliases [] [] positionals false []

/-- What every command that has subcommands says of one more, `help`. -/
def helpAbout : String := "Print this message or the help of the given subcommand(s)"

/-- A line for each subcommand, what they are for in one column. -/
def overview (c : CommandSpec V) : List String :=
  let rows := c.subcommands.map (fun sub => (sub.name, sub.about)) ++
    (if c.subcommands.isEmpty then [] else [("help", helpAbout)])
  let width := rows.foldl (fun width (name, _) => max width name.length) 0
  rows.map fun (name, about) => "  " ++ Text.padRight width name ++ "  " ++ about

end CommandSpec

end Mc6809
