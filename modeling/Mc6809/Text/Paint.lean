/-
Styled text on a terminal: an escape code switches a style on and another one
switches all styles off.
-/

namespace Mc6809

/-- Text in a terminal's style. -/
inductive Paint where
  | bold
  | dimmed
  | italic
  /-- A foreground color by its number. -/
  | color (code : Nat)
  deriving Repr, DecidableEq

namespace Paint

def code : Paint → Nat
  | bold => 1
  | dimmed => 2
  | italic => 3
  | color code => code

/-- The text between the codes that switch the style on and off. -/
def apply (style : Paint) (text : String) : String :=
  "\x1b[" ++ toString style.code ++ "m" ++ text ++ "\x1b[0m"

end Paint

end Mc6809
