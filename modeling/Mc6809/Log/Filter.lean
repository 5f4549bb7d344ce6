/-
Which records are shown. A filter is a list of directives, each of which sets
the most detailed level shown of one part of the program; of those that
concern a part, the one that names it most closely decides.

Written out, directives stand between commas: a level, the start of a path, or
both with `=` in between.
-/
import Mc6809.Log.Entry
import Mc6809.Text.Blank
import Mc6809.Text.Integer

namespace Mc6809

namespace Log

/-- What is shown of the parts whose path starts with `scope`: all levels up to
`detail`, none if that is 0. -/
structure Directive where
  scope : String
  detail : Nat
  deriving Repr, DecidableEq

namespace Directive

/-- Shows a level, and all that matter more, of everything. -/
def ofLevel (level : Level) : Directive := ⟨"", level.detail⟩

def covers (d : Directive) (path : String) : Bool := d.scope.toList.isPrefixOf path.toList

/-- Whether the directive names its parts at least as closely as an earlier one. -/
def beats (d : Directive) (earlier? : Option Directive) : Bool :=
  earlier?.all (·.scope.length ≤ d.scope.length)

end Directive

/-- The directives, in the order given. -/
structure Filter where
  directives : List Directive
  deriving Repr, DecidableEq

namespace Filter

/-- The directive that decides on a path: the longest that covers it, and of
two that are equally long the later. -/
def governing? (f : Filter) (path : String) : Option Directive :=
  f.directives.foldl (fun best? d => if d.covers path && d.beats best? then some d else best?) none

def shows (f : Filter) (level : Level) (origin : Origin) : Bool :=
  match f.governing? origin.path with
  | some d => level.detail ≤ d.detail
  | none => false

/-- The filter where nothing is asked for: errors only. -/
def errorsOnly : Filter := ⟨[.ofLevel .error]⟩

/-- The filter for the number of times more detail was asked for. First the
program itself gets more detailed, then everything does. -/
def ofVerbosity : (count : Nat) → Filter
  | 0 => ⟨[.ofLevel .info]⟩
  | 1 => programAt .debug .info
  | 2 => programAt .trace .info
  | 3 => programAt .trace .debug
  | _ => ⟨[.ofLevel .trace]⟩
where
  programAt (own others : Level) : Filter :=
    ⟨[⟨"m6809_emulator", own.detail⟩, ⟨"m6809", own.detail⟩, .ofLevel others]⟩

/-- Reads a level as a filter gives it: by name in any case, or as its detail.
`off` and 0 show nothing. -/
def readDetail? (text : String) : Option Nat :=
  match IntegerRange.unsigned64.read text with
  | .ok value => if value ≤ Level.trace.detail then some value.toNat else none
  | .error _ =>
    let name := String.ofList (text.toList.map Char.toUpper)
    if name = "OFF" then some 0 else (Level.all.find? (·.name == name)).map (·.detail)

/-- Whether a directive may start with a character. -/
def startsDirective (c : Char) : Bool :=
  c.isAlphanum || c == '-' || c == ':' || c == '_' || 0x80 ≤ c.toNat

/-- Reads one directive. A path without a level shows everything, and so does
an empty level. Blanks count as written, and none may stand before a path that
has a level. -/
def readDirective? (text : List Char) : Option Directive :=
  match Text.trimStart text with
  | [] => none
  | first :: _ =>
    if !startsDirective first || text.contains '[' then none
    else
      let scope := String.ofList (text.takeWhile (· != '='))
      match text.dropWhile (· != '=') with
      | [] =>
        some (match readDetail? scope with
          | some detail => ⟨"", detail⟩
          | none => ⟨scope, Level.trace.detail⟩)
      | _ :: level =>
        if text.head? != some first then none
        else if level.isEmpty then some ⟨scope, Level.trace.detail⟩
        else (readDetail? (String.ofList level)).map (⟨scope, ·⟩)

/-- Reads a filter. If any of its directives is malformed there is none. -/
def read? (text : String) : Option Filter := do
  let pieces := (Text.pieces ',' text.toList).filter (!·.isEmpty)
  let directives ← pieces.mapM readDirective?
  return if directives.isEmpty then errorsOnly else ⟨directives⟩

end Filter

end Log

end Mc6809
