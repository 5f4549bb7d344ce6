/-
Completing a command line. The words before the cursor lead through the
subcommands to the command whose last word is being typed; what is offered are
the names that continue that word, in order and each once. When there is only
one, the rest of it is shown as a hint.
-/
import Mc6809.Command.Spec
import Mc6809.Text.Blank
import Mc6809.Text.ShellWords

namespace Mc6809

namespace Completion

/-- Puts a name in its place in a sorted list, unless it is there. -/
def insertName (name : String) : List String → List String
  | [] => [name]
  | other :: rest =>
    if name < other then name :: other :: rest
    else if name = other then other :: rest
    else other :: insertName name rest

/-- The names in order, each once. -/
def sortNames (names : List String) : List String := names.foldr insertName []

/-- The register names offered, in lower case. -/
def registerNames : List String := ["a", "b", "d", "dp", "cc", "x", "y", "s", "u", "pc"]

/-- Whether `name` starts with `typed`. -/
def continues (typed name : String) : Bool := typed.toList.isPrefixOf name.toList

variable {V : Type}

/-- Everything that can stand where the word after this command stands. -/
def offered (c : CommandSpec V) : List String :=
  c.subcommands.flatMap (fun sub => sub.name :: sub.visibleAliases) ++
    (if c.subcommands.isEmpty then [] else ["help"]) ++
    (if (c.positionals.head?.map (·.id)) == some "register" then registerNames else [])

/-- What may complete the last of the words, and how many bytes of it are typed. -/
def candidates (c : CommandSpec V) : List String → Nat × List String
  | [] => (0, [])
  | [last] => (last.utf8ByteSize, sortNames ((offered c).filter (continues last)))
  | first :: rest =>
    match c.find? first with
    | some sub => candidates sub rest
    | none => (0, [])

/-- The words of the line up to byte `pos`, with an empty one at the end if a
new word may start there. There are none if `pos` is past the end or within a
character, or if a quote is open. -/
def wordsBefore? (line : String) (pos : Nat) : Option (List String) := do
  let before ← Text.takeBytes? line.toList pos
  let words ← ShellWords.split before
  let words := words.map String.ofList
  match before.getLast? with
  | some ' ' | some '\t' => some (words ++ [""])
  | _ => some words

/-- The candidates at byte `pos` of a line, and how many bytes are typed. -/
def candidatesAt? (c : CommandSpec V) (line : String) (pos : Nat) : Option (Nat × List String) :=
  (wordsBefore? line pos).map (candidates c)

/-- Where the word being completed starts, and what may stand there. -/
def complete (c : CommandSpec V) (line : String) (pos : Nat) : Nat × List String :=
  match candidatesAt? c line pos with
  | some (typed, names) => (pos - typed, names)
  | none => (pos, [])

/-- The rest of the only candidate. -/
def hint? (c : CommandSpec V) (line : String) (pos : Nat) : Option String :=
  match candidatesAt? c line pos with
  | some (typed, [only]) => (Text.dropBytes? only.toList typed).map String.ofList
  | _ => none

end Completion

end Mc6809
