/-
Reading the words of a command line. Words are taken one by one: the name of a
subcommand, an option, the value of the option before it, or the next
positional argument; after `--` every word is positional.

A value is not read before the next argument is met or the words run out, so
of two faults the one that shows first on the line is reported, except that an
unknown argument is reported before the value of the one that precedes it.
-/
import Mc6809.Command.Spec

namespace Mc6809

namespace Command

/-- Why a command line is refused. Arguments are given as messages show them. -/
inductive Refusal where
  | unknownSubcommand (word : String)
  | unknownArgument (text : String)
  /-- A value is attached to an option that takes none. -/
  | unexpectedValue (value argument : String)
  | missingValue (argument : String)
  /-- There is no reason where the value is not one of a fixed list of words. -/
  | invalidValue (value argument : String) (reason? : Option String)
  | repeated (argument : String)
  | conflict (argument : String) (others : List String)
  | missingArguments (arguments : List String)
  | missingSubcommand (command : String)
  deriving Repr, DecidableEq

namespace Refusal

private def quoted (text : String) : String := "'" ++ text ++ "'"

private def indented (lines : List String) : String :=
  String.join (lines.map fun line => "\n  " ++ line)

private def missingText (argument : String) : String :=
  "a value is required for " ++ quoted argument ++ " but none was supplied"

/-- The text of a refusal. An empty value that is none of a fixed list of words
counts as missing. -/
def message : Refusal → String
  | unknownSubcommand word => "unrecognized subcommand " ++ quoted word
  | unknownArgument text => "unexpected argument " ++ quoted text ++ " found"
  | unexpectedValue value argument =>
    "unexpected value " ++ quoted value ++ " for " ++ quoted argument ++
      " found; no more were expected"
  | missingValue argument => missingText argument
  | invalidValue value argument (some reason) =>
    "invalid value " ++ quoted value ++ " for " ++ quoted argument ++ ": " ++ reason
  | invalidValue value argument none =>
    if value.isEmpty then missingText argument
    else "invalid value " ++ quoted value ++ " for " ++ quoted argument
  | repeated argument => "the argument " ++ quoted argument ++ " cannot be used multiple times"
  | conflict argument [other] =>
    "the argument " ++ quoted argument ++ " cannot be used with " ++ quoted other
  | conflict argument others =>
    "the argument " ++ quoted argument ++ " cannot be used with:" ++ indented others
  | missingArguments arguments =>
    "the following required arguments were not provided:" ++ indented arguments
  | missingSubcommand command =>
    quoted command ++ " requires a subcommand but one was not provided"

end Refusal

/-- Why reading ended without a command to carry out. -/
inductive Stop where
  | refused (cause : Refusal)
  /-- Help was asked for, on the command that these names lead to. -/
  | help (path : List String)
  | version
  /-- Nothing was asked for, of a command that needs a subcommand. -/
  | usage
  deriving Repr, DecidableEq

structure Given (V : Type) where
  id : String
  /-- The argument in a message. -/
  text : String
  group? : Option String
  count : Nat
  value? : Option V

/-- An argument whose value has not been read yet. -/
structure Pending (V : Type) where
  id : String
  text : String
  reader : Reader V
  /-- The value as typed; nothing while it is still to come. -/
  raw? : Option String

/-- How far the arguments of one command have been read. -/
structure Progress (V : Type) where
  /-- What was given, in the order of first appearance. -/
  given : List (Given V)
  pending? : Option (Pending V)
  /-- How many positional arguments there were. -/
  positionals : Nat
  /-- Whether a `--` was met. -/
  trailing : Bool

namespace Progress

variable {V : Type}

def start : Progress V := ⟨[], none, 0, false⟩

def has (p : Progress V) (id : String) : Bool := p.given.any (·.id == id)

/-- Whether the next word is the value of an option. -/
def awaitsValue (p : Progress V) : Bool := p.pending?.any (·.raw?.isNone)

/-- Reads the value of an argument that may be given once. -/
def takeValue (p : Progress V) (id text raw : String) (reader : Reader V) :
    Except Stop (Progress V) :=
  if p.has id then .error (.refused (.repeated text))
  else
    match reader.read raw with
    | .ok value => .ok { p with given := p.given ++ [⟨id, text, none, 1, some value⟩] }
    | .error reason? => .error (.refused (.invalidValue raw text reason?))

def resolve (p : Progress V) : Except Stop (Progress V) :=
  match p.pending? with
  | none => .ok p
  | some pending =>
    match pending.raw? with
    | none => .error (.refused (.missingValue pending.text))
    | some raw => { p with pending? := none }.takeValue pending.id pending.text raw pending.reader

/-- Counts one more use of an option that takes no value. -/
def count (p : Progress V) (o : Opt V) : Progress V :=
  if p.has o.id then
    let again (g : Given V) := if g.id == o.id then { g with count := g.count + 1 } else g
    { p with given := p.given.map again }
  else { p with given := p.given ++ [⟨o.id, o.text, o.group?, 1, none⟩] }

/-- Takes an option, with the value attached to it if there is one. -/
def takeOption (p : Progress V) (o : Opt V) (attached? : Option String) :
    Except Stop (Progress V) :=
  match o.kind, attached? with
  | .value _ reader, some raw => do (← p.resolve).takeValue o.id o.text raw reader
  | .value _ reader, none => do
    return { (← p.resolve) with pending? := some ⟨o.id, o.text, reader, none⟩ }
  | _, some value => .error (.refused (.unexpectedValue value o.text))
  | .flag, none => do
    let p ← p.resolve
    if p.has o.id then .error (.refused (.repeated o.text)) else return p.count o
  | .counter, none => do return (← p.resolve).count o
  | .help, none => do
    let _ ← p.resolve
    .error (.help [])
  | .version, none => do
    let _ ← p.resolve
    .error .version

/-- Takes `--name` or `--name=value`, less the dashes. -/
def takeLong (p : Progress V) (options : List (Opt V)) (word : List Char) :
    Except Stop (Progress V) :=
  let name := String.ofList (word.takeWhile (· != '='))
  match options.find? (·.long == name) with
  | none => .error (.refused (.unknownArgument ("--" ++ name)))
  | some o => p.takeOption o ((word.dropWhile (· != '=')).tail?.map String.ofList)

/-- Takes options given by their letters after one dash. What follows an option
that takes a value is its value, less one `=`. -/
def takeShort (p : Progress V) (options : List (Opt V)) : List Char → Except Stop (Progress V)
  | [] => .ok p
  | c :: rest =>
    match options.find? (·.short? == some c) with
    | none => .error (.refused (.unknownArgument (String.ofList ['-', c])))
    | some o =>
      match o.kind, rest with
      | .value .., [] => p.takeOption o none
      | .value .., '=' :: value => p.takeOption o (some (String.ofList value))
      | .value .., value => p.takeOption o (some (String.ofList value))
      | _, _ => do (← p.takeOption o none).takeShort options rest

/-- Takes the word that an option has been waiting for. -/
def supply (p : Progress V) (raw : String) : Progress V :=
  { p with pending? := p.pending?.map ({ · with raw? := some raw }) }

def takePositional (p : Progress V) (positional : Positional V) (raw : String) :
    Except Stop (Progress V) := do
  let p ← p.resolve
  return { p with
    pending? := some ⟨positional.id, positional.text, positional.reader, some raw⟩
    positionals := p.positionals + 1 }

end Progress

structure Level (V : Type) where
  name : String
  given : List (Given V)

/-- The option that every command has. -/
def helpOption {V : Type} : Opt V := ⟨"help", some 'h', "help", .help, false, none⟩

end Command

namespace CommandSpec

open Command

variable {V : Type}

/-- The names by which a word may be meant as an abbreviation: of each
subcommand its name or else the first of its aliases that the word begins. -/
def abbreviated (c : CommandSpec V) (word : String) : List String :=
  let begins (name : String) := word.toList.isPrefixOf name.toList
  c.subcommands.filterMap (fun sub =>
      if begins sub.name then some sub.name else sub.aliases.find? begins) ++
    (if !c.subcommands.isEmpty && begins "help" then ["help"] else [])

/-- The name of the subcommand that a word stands for, `help` included. With
`infer`, the beginning of only one of them will do. -/
def choose? (c : CommandSpec V) (infer : Bool) (word : String) : Option String :=
  match infer, c.abbreviated word with
  | true, [name] => some name
  | _, _ =>
    match c.find? word with
    | some sub => some sub.name
    | none => if !c.subcommands.isEmpty && word == "help" then some "help" else none

/-- Where `help` and the words after it lead, all of which must be in full. -/
def helpStop (c : CommandSpec V) (path : List String) : List String → Stop
  | [] => .help path
  | word :: rest =>
    match c.find? word with
    | some sub => sub.helpStop (path ++ [sub.name]) rest
    | none =>
      if !c.subcommands.isEmpty && word == "help" then
        match rest with
        | [] => .help (path ++ ["help"])
        | extra :: _ => .refused (.unknownSubcommand extra)
      else .refused (.unknownSubcommand word)

/-- Why a word is refused that no argument is left for. -/
def surplus (c : CommandSpec V) (infer trailing : Bool) (word : String) : Refusal :=
  if trailing && (c.choose? infer word).isSome then .unknownArgument word
  else if !c.subcommands.isEmpty && (c.positionals.isEmpty || infer) then .unknownSubcommand word
  else .unknownArgument word

/-- The first argument of a group that another one of the group was given with,
and the others. -/
def conflict? : List (Given V) → Option Refusal
  | [] => none
  | g :: rest =>
    match g.group? with
    | none => conflict? rest
    | some group =>
      match rest.filter (·.group? == some group) with
      | [] => conflict? rest
      | others => some (.conflict g.text (others.map (·.text)))

/-- Checks what was given to a command once its words have run out. -/
def finish (c : CommandSpec V) (p : Progress V) (hasSubcommand : Bool) : Except Stop (Level V) := do
  let p ← p.resolve
  if !hasSubcommand && c.needsSubcommand then
    .error (if p.given.isEmpty then .usage else .refused (.missingSubcommand c.name))
  else
    match conflict? p.given with
    | some refusal => .error (.refused refusal)
    | none =>
      match c.positionals.filter (fun a => a.required && !p.has a.id) with
      | [] => return ⟨c.name, p.given⟩
      | missing => .error (.refused (.missingArguments (missing.map (·.text))))

/-- Reads on. `path` leads to this command, and `inherited` are the options
that the commands above share with it. -/
def readFrom (infer : Bool) (c : CommandSpec V) (path : List String) (inherited : List (Opt V))
    (p : Progress V) : List String → Except Stop (List (Level V))
  | [] => do return [← c.finish p false]
  | word :: rest => do
    let options := c.options ++ inherited ++ [helpOption]
    let readOn (p : Progress V) := c.readFrom infer path inherited p rest
    if p.trailing then
      match c.positionals[p.positionals]? with
      | some positional => readOn (← p.takePositional positional word)
      | none => .error (.refused (c.surplus infer true word))
    else
      let chosen? := if p.awaitsValue then none else c.choose? infer word
      match chosen? with
      | some name =>
        match c.find? name with
        | some sub =>
          let shared := inherited ++ c.options.filter (·.isGlobal)
          let levels ← sub.readFrom infer (path ++ [sub.name]) shared .start rest
          return (← c.finish p true) :: levels
        | none => .error (c.helpStop path rest)
      | none =>
        match word.toList with
        | ['-', '-'] => readOn { p with trailing := true }
        | '-' :: '-' :: long => readOn (← atCommand (p.takeLong options long))
        | '-' :: letter :: letters => readOn (← atCommand (p.takeShort options (letter :: letters)))
        | _ =>
          if p.awaitsValue then readOn (p.supply word)
          else
            match c.positionals[p.positionals]? with
            | some positional => readOn (← p.takePositional positional word)
            | none => .error (.refused (c.surplus infer false word))
where
  /-- Names this command as the one that help was asked on. -/
  atCommand (outcome : Except Stop (Progress V)) : Except Stop (Progress V) :=
    match outcome with
    | .error (.help _) => .error (.help path)
    | other => other

/-- Reads the words of a command line: what was given to the command and to
each of the subcommands named. -/
def read (c : CommandSpec V) (infer : Bool) (words : List String) : Except Stop (List (Level V)) :=
  c.readFrom infer [] [] .start words

end CommandSpec

end Mc6809
