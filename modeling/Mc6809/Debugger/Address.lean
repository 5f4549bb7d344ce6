/-
Addresses as a user types them: a number literal, with blanks around it if
need be, that is an address.
-/
import Mc6809.Literal
import Mc6809.Text.Blank
import Mc6809.Word

namespace Mc6809

/-- Why a text is not an address. -/
inductive AddressError where
  | invalid (text : String)
  | outOfRange (value : Int)
  deriving Repr, DecidableEq

namespace AddressError

def message : AddressError → String
  | invalid text => "invalid address \"" ++ text ++ "\", expected a number like $1F or 31"
  | outOfRange value => "address " ++ toString value ++ " is out of range"

end AddressError

/-- Reads an address. A literal too big for 32 bits is no number at all here. -/
def readAddress (text : String) : Except AddressError Address :=
  match Literal.readAll (Text.trim text.toList) with
  | .ok value =>
    if 0 ≤ value ∧ value < 0x10000 then .ok (UInt16.ofInt value) else .error (.outOfRange value)
  | .error _ => .error (.invalid text)

end Mc6809
