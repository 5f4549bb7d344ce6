/-
How the views of a program fit together. Sizes are summed up for `size` and
added one by one to an address for `layout`, while `bytes` just joins the
encoded instructions; they agree because an instruction is encoded in as many
bytes as its size says (`views_agree`).

That size is the one of the mode whether the table knows the instruction or
not, but for `LDX #`, which is a byte longer (`Instruction.size_eq`). Addresses
wrap at 2^16 and totals do not, so past 64 KiB the bytes of an instruction are
found at the total before it and no longer at its address.
-/
import Mathlib.Algebra.Ring.Nat
import Mc6809.Proofs.Program.Placement

namespace Mc6809

namespace Instruction

/-- The immediate load of `X` is in the table. -/
theorem encoding?_of_loadX {i : Instruction} (h : i.mnemonic = "LDX" ∧ i.operand.mode = .immediate) :
    i.encoding? = some ⟨0x8E, .ldx, .immediate, 3⟩ :=
  encoding?_eq_some_iff.2 ⟨by decide, h.1.symm, h.2.symm⟩

/-- The size is that of the mode, known encoding or not, `LDX #` apart. -/
theorem size_eq (i : Instruction) :
    i.size = if i.mnemonic = "LDX" ∧ i.operand.mode = .immediate then 3 else i.operand.mode.size := by
  cases h : i.encoding? with
  | none =>
    have hother : ¬ (i.mnemonic = "LDX" ∧ i.operand.mode = .immediate) := fun hloadX => by
      rw [encoding?_of_loadX hloadX] at h
      cases h
    rw [size_of_unknown h, if_neg hother]
  | some e =>
    obtain ⟨hmem, hname, hmode⟩ := encoding?_eq_some_iff.1 h
    have hloadX : e.mnemonic = .ldx ↔ i.mnemonic = "LDX" := by
      rw [← hname]
      exact ⟨fun hm => by rw [hm]; rfl, fun hn => Mnemonic.name_inj hn⟩
    simp only [size_of_known h, Encoding.size_eq hmem, hmode, hloadX]

end Instruction

namespace Program

variable {p : Program}

theorem size_eq_sum (is : List Instruction) : size ⟨is⟩ = (is.map Instruction.size).sum := by
  induction is with
  | nil => rfl
  | cons i is ih =>
    have hsize : size ⟨i :: is⟩ = i.size + size ⟨is⟩ := rfl
    rw [hsize, ih, List.map_cons, List.sum_cons]

theorem offset_eq_sum (p : Program) (k : Nat) :
    p.offset k = ((p.instructions.take k).map Instruction.size).sum :=
  size_eq_sum _

/-- The bytes of an instruction are cut out of those of the program. -/
theorem take_drop_bytes {k : Nat} (hk : k < p.instructions.length) :
    (p.bytes.drop (p.offset k)).take p.instructions[k].size = p.instructions[k].bytes := by
  obtain ⟨before, after, hbytes, hlength⟩ := p.bytes_eq_append hk
  rw [hbytes, List.append_assoc, List.drop_left' hlength]
  exact List.take_left' (Instruction.length_bytes _)

/-- Sizes, addresses and bytes say the same of a program. -/
structure Coherent (p : Program) : Prop where
  /-- An instruction is encoded in as many bytes as its size says. -/
  length : ∀ i ∈ p.instructions, i.bytes.length = i.size ∧ 1 ≤ i.size ∧ i.size ≤ 3
  mode : ∀ i ∈ p.instructions, i.size =
    if i.mnemonic = "LDX" ∧ i.operand.mode = .immediate then 3 else i.operand.mode.size
  size : p.size = p.bytes.length
  /-- The layout has one entry for each instruction, in order. -/
  order : p.layout.map (·.2) = p.instructions
  /-- The address of an instruction is the total size of those before it, which wraps. -/
  address : ∀ (k : Nat) (hk : k < p.instructions.length), ∃ address : Address,
    p.layout[k]? = some (address, p.instructions[k]) ∧
      address.toNat = ((p.instructions.take k).map Instruction.size).sum % 65536
  /-- Its bytes are those of the program from that total on, which does not wrap. -/
  slice : ∀ (k : Nat) (hk : k < p.instructions.length),
    (p.bytes.drop ((p.instructions.take k).map Instruction.size).sum).take p.instructions[k].size =
      p.instructions[k].bytes

/-- **The views of a program agree.** Of any instructions, known or not. -/
theorem views_agree (p : Program) : p.Coherent where
  length := fun i _ => ⟨i.length_bytes, i.size_bounds⟩
  mode := fun i _ => i.size_eq
  size := p.length_bytes.symm
  order := map_snd_layoutFrom _ _
  address := fun k hk => by
    refine ⟨_, getElem?_layout p hk, ?_⟩
    rw [UInt16.toNat_ofNat', offset_eq_sum]
  slice := fun k hk => by
    rw [← offset_eq_sum]
    exact take_drop_bytes hk

/-- A program longer than the address space: its last instruction has the
address of the first, and its bytes are still its own. -/
theorem onceAround_coherent :
    (∃ address : Address, onceAround.layout[0x10000]? = some (address, ⟨"INCA", .inherent⟩) ∧
        address.toNat = 0) ∧
      (onceAround.bytes.drop 0x10000).take 1 = [0x4C] := by
  have hlength : (nops 0x10000).instructions.length = 0x10000 := List.length_replicate
  have hk : 0x10000 < onceAround.instructions.length := by
    rw [onceAround, nopsThenIncrement, List.length_append, hlength]
    decide
  have hlast : onceAround.instructions[0x10000] = ⟨"INCA", .inherent⟩ :=
    List.getElem_concat_length hlength.symm _
  have htotal : ((onceAround.instructions.take 0x10000).map Instruction.size).sum = 0x10000 := by
    rw [onceAround, nopsThenIncrement, List.take_left' hlength, ← size_eq_sum]
    exact size_nops _
  obtain ⟨address, hentry, haddress⟩ := onceAround.views_agree.address 0x10000 hk
  have hslice := onceAround.views_agree.slice 0x10000 hk
  rw [hlast] at hentry hslice
  rw [htotal] at haddress hslice
  exact ⟨⟨address, hentry, haddress⟩, hslice⟩

end Program

end Mc6809
