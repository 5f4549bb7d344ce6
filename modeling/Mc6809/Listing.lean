/-
The listing of a program: its instructions with the addresses they are loaded
at and their bytes.
-/
import Mc6809.Program
import Mc6809.Text.Blank

namespace Mc6809

structure ListingLine where
  address : Address
  bytes : List Byte
  text : String
  deriving Repr, DecidableEq

namespace ListingLine

/-- The columns that the bytes of an instruction take, spaces included. -/
def bytesWidth : Nat := 8

def row (line : ListingLine) : String :=
  Word.hex line.address ++ "  " ++
    Text.padRight bytesWidth (" ".intercalate (line.bytes.map Byte.hex)) ++ "  " ++ line.text

end ListingLine

namespace Program

/-- The instructions of a program, line by line. -/
def lines (p : Program) : List ListingLine :=
  p.layout.map fun (address, i) => ⟨address, i.bytes, i.text⟩

end Program

end Mc6809
