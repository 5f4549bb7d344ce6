/-
How much a record of the log matters. The levels run from errors down to
details; a filter that shows a level shows all that matter more.
-/
import Mc6809.Text.Paint

namespace Mc6809

namespace Log

inductive Level where
  | error
  | warn
  | info
  | debug
  | trace
  deriving Repr, DecidableEq

namespace Level

def all : List Level := [error, warn, info, debug, trace]

/-- How detailed a level is, from 1 for errors up. -/
def detail : Level → Nat
  | error => 1
  | warn => 2
  | info => 3
  | debug => 4
  | trace => 5

def name : Level → String
  | error => "ERROR"
  | warn => "WARN"
  | info => "INFO"
  | debug => "DEBUG"
  | trace => "TRACE"

/-- The name, right-aligned on five columns. -/
def label : Level → String
  | warn => " WARN"
  | info => " INFO"
  | level => level.name

/-- What the label looks like in color. -/
def paint : Level → Paint
  | error => .color 31
  | warn => .color 33
  | info => .color 32
  | debug => .color 34
  | trace => .color 35

end Level

end Log

end Mc6809
