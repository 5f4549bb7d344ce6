/-
What is typed to the debugger, as lines. A line with a quote left open goes on
on the next one, the line end between them included; if nothing comes any more
it is dropped. A backspace takes the character before it away.
-/
import Mc6809.Text.ShellWords

namespace Mc6809

/-- What is typed in a whole session. -/
structure Input where
  lines : List String
  /-- Whether all of it is UTF-8; if not, the lines are those before the first
  that is not. -/
  isText : Bool
  deriving Repr, DecidableEq

namespace Input

/-- The characters that stand after taking away what was typed and erased; the
two characters of a line end are erased together. `typed` is what stands so
far, last character first. -/
def eraseFrom (typed : List Char) : List Char → List Char
  | [] => typed.reverse
  | '\x08' :: rest =>
    match typed with
    | '\n' :: '\r' :: before => eraseFrom before rest
    | _ :: before => eraseFrom before rest
    | [] => eraseFrom [] rest
  | c :: rest => eraseFrom (c :: typed) rest

def erase (text : List Char) : List Char := eraseFrom [] text

/-- A typed line less its line end, and that line end. -/
def splitEnd (raw : List Char) : List Char × List Char :=
  match raw.reverse with
  | '\n' :: '\r' :: before => (before.reverse, ['\r', '\n'])
  | '\n' :: before => (before.reverse, ['\n'])
  | _ => (raw, [])

/-- What comes of a typed line. -/
inductive Joined where
  | complete (line : List Char)
  /-- A quote is open, so more has to come. -/
  | unfinished (kept : List Char)
  deriving Repr, DecidableEq

/-- Takes a typed line, `kept` being what came before it since the last line
that was complete. -/
def join (kept raw : List Char) : Joined :=
  let (text, lineEnd) := splitEnd (kept ++ raw)
  let text := erase text
  match ShellWords.split text with
  | some _ => .complete text
  | none => .unfinished (text ++ lineEnd)

/-- No quote is open in a complete line. -/
theorem split_of_join {kept raw line : List Char} (h : join kept raw = .complete line) :
    ∃ words, ShellWords.split line = some words := by
  unfold join at h
  simp only at h
  split at h
  next words hwords =>
    cases h
    exact ⟨words, hwords⟩
  next => cases h

/-- The lines of a text that is typed line by line. -/
def joinLines (kept : List Char) : List (List Char) → List (List Char)
  | [] => []
  | raw :: rest =>
    match join kept raw with
    | .complete line => line :: joinLines [] rest
    | .unfinished kept => joinLines kept rest

theorem split_of_mem_joinLines {kept line : List Char} {raws : List (List Char)}
    (h : line ∈ joinLines kept raws) : ∃ words, ShellWords.split line = some words := by
  induction raws generalizing kept with
  | nil => cases h
  | cons raw rest ih =>
    rw [joinLines] at h
    split at h
    next first hjoin =>
      rcases List.mem_cons.1 h with rfl | h
      · exact split_of_join hjoin
      · exact ih h
    next => exact ih h

/-- Bytes cut after every line feed. -/
def cutBytes : List UInt8 → List (List UInt8)
  | [] => []
  | b :: rest =>
    if b = 10 then [b] :: cutBytes rest
    else
      match cutBytes rest with
      | [] => [[b]]
      | line :: others => (b :: line) :: others

/-- The texts that lines of bytes stand for, up to the first that is none. -/
def decode : List (List UInt8) → List (List Char) × Bool
  | [] => ([], true)
  | bytes :: rest =>
    match String.fromUTF8? ⟨bytes.toArray⟩ with
    | none => ([], false)
    | some text =>
      let (texts, isText) := decode rest
      (text.toList :: texts, isText)

/-- The lines of everything that is typed. -/
def ofBytes (bytes : List UInt8) : Input :=
  let (texts, isText) := decode (cutBytes bytes)
  ⟨(joinLines [] texts).map String.ofList, isText⟩

end Input

end Mc6809
