/-
How records are laid out, one line each: the level, the spans that are shown
themselves, the message, then the named values.
-/
import Mc6809.Log.Filter
import Mc6809.Log.Record

namespace Mc6809

namespace Log

/-- Whether a character of a message would steer a terminal rather than show. -/
def isControl (c : Char) : Bool :=
  c == '\x1b' || c == '\x07' || c == '\x08' || c == '\x0c' || c == '\x7f' ||
    (0x80 ≤ c.toNat && c.toNat ≤ 0x9F)

/-- A character as a message shows it: by its number if it would steer a
terminal. -/
def escape (c : Char) : List Char :=
  if !isControl c then [c]
  else
    let digits := (Digits.fixed 16 2 c.toNat).map Char.toLower
    if c.toNat < 0x80 then ['\\', 'x'] ++ digits else ['\\', 'u', '\x7b'] ++ digits ++ ['\x7d']

/-- Which records are shown, and whether in color. -/
structure Layout where
  filter : Filter
  colored : Bool
  deriving Repr

namespace Layout

/-- Text in a style, if there is color at all. -/
def paint (layout : Layout) (style : Paint) (text : String) : String :=
  if layout.colored then style.apply text else text

def fieldText (layout : Layout) (field : Field) : String :=
  layout.paint .italic field.name ++ layout.paint .dimmed "=" ++ field.value

def spanText (layout : Layout) (span : Span) : String :=
  let fields :=
    if span.fields.isEmpty then ""
    else layout.paint .bold "\x7b" ++ " ".intercalate (span.fields.map layout.fieldText) ++
      layout.paint .bold "\x7d"
  layout.paint .bold span.name ++ fields ++ layout.paint .dimmed ":"

/-- The spans of a record that are shown, with a space after them. -/
def spansText (layout : Layout) (spans : List Span) : String :=
  match spans.filter fun span => layout.filter.shows span.level span.origin with
  | [] => ""
  | shown => String.join (shown.map layout.spanText) ++ " "

/-- The line of a record, if it is shown. -/
def line? (layout : Layout) (record : Record) : Option String :=
  let entry := record.event.entry
  if layout.filter.shows entry.level entry.origin then
    let message := String.ofList (entry.message.toList.flatMap escape)
    some (layout.paint entry.level.paint entry.level.label ++ " " ++
      layout.spansText record.spans ++ " ".intercalate (message :: entry.fields.map layout.fieldText))
  else none

end Layout

end Log

end Mc6809
