/-
Loading writes the bytes of a program from its start on, and nothing after
them: a program that is run off its end finds the end-of-program opcode there
because memory is zero-filled. Bytes that fall in ROM are lost.
-/
import Mc6809.Machine

namespace Mc6809

namespace Memory

def load (m : Memory) (p : Program) : Memory :=
  p.layout.foldl (fun m (address, i) => m.writeBytes address i.bytes) m

end Memory

namespace Program

/-- The first address past the program, not wrapped. -/
def loadEnd (p : Program) : Nat := programStart.toNat + p.size

def fitsInRam (p : Program) : Bool := p.loadEnd ≤ Ram.size

end Program

namespace Machine

/-- A machine ready to run a program: blank memory, the program in it, and the
processor reset. -/
def ofProgram (p : Program) : Machine :=
  let m := blank
  reset { m with memory := m.memory.load p }

end Machine

end Mc6809
