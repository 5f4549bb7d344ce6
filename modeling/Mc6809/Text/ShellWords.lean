/-
Splitting a line into words as a shell does. Words stand between spaces, tabs
and line feeds. Single quotes keep everything up to the next one; double
quotes too, but in them a backslash still protects a few characters; outside
quotes it protects any. A backslash before a line feed takes the line feed
away, and `#` at the start of a word begins a comment up to the next line feed.

A text with a quote left open has no words yet: `split` gives nothing.
-/

namespace Mc6809

namespace ShellWords

/-- Where in a line the reader is. -/
inductive Mode where
  | gap
  /-- After a backslash that stands where a word may start. -/
  | gapEscape
  /-- In a word, outside quotes. -/
  | bare
  /-- After a backslash in a word, outside quotes. -/
  | bareEscape
  | single
  | double
  | doubleEscape
  | comment
  deriving Repr, DecidableEq

def isGap (c : Char) : Bool := c == ' ' || c == '\t' || c == '\n'

/-- The characters that a backslash protects in double quotes: a dollar sign, a
grave accent, a double quote and a backslash. -/
def isDoubleEscapable (c : Char) : Bool :=
  c == '$' || c == '\x60' || c == '"' || c == '\\'

/-- What reading one character does: it may add to the word at hand, or end
that word, and it leaves the reader in a mode. -/
inductive Move where
  | add (text : List Char) (next : Mode)
  | endWord
  deriving Repr, DecidableEq

def move : Mode → Char → Move
  | .gap, c =>
    if c = '\'' then .add [] .single
    else if c = '"' then .add [] .double
    else if c = '\\' then .add [] .gapEscape
    else if isGap c then .add [] .gap
    else if c = '#' then .add [] .comment
    else .add [c] .bare
  | .gapEscape, c => if c = '\n' then .add [] .gap else .add [c] .bare
  | .bare, c =>
    if c = '\'' then .add [] .single
    else if c = '"' then .add [] .double
    else if c = '\\' then .add [] .bareEscape
    else if isGap c then .endWord
    else .add [c] .bare
  | .bareEscape, c => if c = '\n' then .add [] .bare else .add [c] .bare
  | .single, c => if c = '\'' then .add [] .bare else .add [c] .single
  | .double, c =>
    if c = '"' then .add [] .bare
    else if c = '\\' then .add [] .doubleEscape
    else .add [c] .double
  | .doubleEscape, c =>
    if c = '\n' then .add [] .double
    else if isDoubleEscapable c then .add [c] .double
    else .add ['\\', c] .double
  | .comment, c => if c = '\n' then .add [] .gap else .add [] .comment

/-- The words still to come at the end of the text, `word` being at hand. A
backslash with nothing after it stands for itself. -/
def finish : Mode → (word : List Char) → Option (List (List Char))
  | .gap, _ | .comment, _ => some []
  | .bare, word => some [word]
  | .gapEscape, word | .bareEscape, word => some [word ++ ['\\']]
  | .single, _ | .double, _ | .doubleEscape, _ => none

/-- The words of the rest of a text, `word` being at hand. -/
def splitFrom (mode : Mode) (word : List Char) : List Char → Option (List (List Char))
  | [] => finish mode word
  | c :: rest =>
    match move mode c with
    | .add text next => splitFrom next (word ++ text) rest
    | .endWord => (splitFrom .gap [] rest).map (word :: ·)

/-- The words of a text, if every quote in it is closed. -/
def split (text : List Char) : Option (List (List Char)) := splitFrom .gap [] text

end ShellWords

end Mc6809
