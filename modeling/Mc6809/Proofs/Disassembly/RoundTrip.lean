/-
Disassembly undoes assembly. Where the bytes of a program stand in memory, the
disassembler walks from instruction to instruction as they were laid out
(`At.readsBack`): each one is found at its address, with its bytes and its
table entry, and shown as it was written. Only two things are not in the bytes
and so not shown again: the high byte of an immediate value that was encoded in
one byte, and the offset of a branch, in whose stead there is its target.
-/
import Mathlib.Algebra.Group.Nat.Defs
import Mathlib.Data.List.Forall2
import Mc6809.Proofs.Disassembly.Stepping
import Mc6809.Proofs.Machine.InstructionSet

namespace Mc6809

/-- A byte as a signed number. -/
theorem toInt_toInt8 (b : Byte) :
    b.toInt8.toInt = if b.toNat < 128 then (b.toNat : Int) else b.toNat - 256 := by
  have hlt := b.toNat_lt
  rw [Int8.toInt, UInt8.toBitVec_toInt8, BitVec.toInt_eq_toNat_cond, UInt8.toNat_toBitVec]
  split <;> split <;> omega

/-- A branch goes as many addresses on from the next one as its offset says, signed. -/
theorem toNat_branchTarget (next : Address) (offset : Byte) :
    ((branchTarget next offset).toNat : Int) = (next.toNat + offset.toInt8.toInt) % 65536 := by
  have hnext := next.toNat_lt
  rw [branchTarget, UInt16.toNat_add, Word.toNat_signExtend, toInt_toInt8]
  split <;> omega

/-- What fits its encoded width is not cut. -/
theorem Operand.cut_of_fits {size : Nat} {operand : Operand} (hsize : size ≤ 3)
    (h : operand.value.toNat < 256 ^ (size - 1)) : operand.cut size = operand := by
  cases operand with
  | immediate v =>
    by_cases h3 : size = 3
    · simp [cut, h3]
    · have hbyte : v.toNat < 256 :=
        Nat.lt_of_lt_of_le h (Nat.pow_le_pow_right (by decide) (by omega) : 256 ^ (size - 1) ≤ 256 ^ 1)
      simp [cut, h3, Word.toUInt16_low hbyte]
  | _ => rfl

/-- What the disassembler finds at an address is the instruction that was written. -/
structure Instruction.ReadsBack (i : Instruction) (place : Address) (d : Disassembly) : Prop where
  address : d.address = place
  bytes : d.bytes = i.bytes
  entry : ∃ mnemonic e, mnemonic.name = i.mnemonic ∧
    Encoding.of? mnemonic i.operand.mode = some e ∧ d.encoding? = some e
  plain : ∀ e, d.encoding? = some e → e.mnemonic.isBranch = false →
    i.operand.value.toNat < 256 ^ (i.size - 1) → d.text = i.text
  cut : ∀ v, i.operand = .immediate v → i.size = 2 →
    d.text = instructionText i.mnemonic (.immediate (v % 256)) 2
  branch : ∀ e, d.encoding? = some e → e.mnemonic.isBranch = true →
    ∃ target : Address, d.text = i.mnemonic ++ " $" ++ Word.hex target ∧
      (target.toNat : Int) = (place.toNat + 2 + (Word.low i.operand.value).toInt8.toInt) % 65536

namespace Memory

variable {m : Memory} {address : Address} {i : Instruction} {e : Encoding}

theorem At.dump {bytes : List Byte} (h : m.At address bytes) :
    m.dump address bytes.length = bytes := by
  induction bytes generalizing address with
  | nil => rfl
  | cons b rest ih => rw [List.length_cons, dump_succ, h.1, ih h.2]

theorem At.disassemble (h : m.At address i.bytes) (he : i.encoding? = some e) :
    m.disassemble address = ⟨address, i.bytes, some e⟩ := by
  rw [disassemble_of_entry (h.decode? he), ← Instruction.size_of_known he, ← i.length_bytes, h.dump]

/-- An instruction that is no branch is shown with its operand as it was encoded. -/
theorem At.text_of_plain (h : m.At address i.bytes) (he : i.encoding? = some e)
    (hplain : e.mnemonic.isBranch = false) :
    (m.disassemble address).text = instructionText i.mnemonic (i.operand.cut i.size) i.size := by
  have hd := h.decode? he
  rw [Disassembly.text_of_plain hd hplain, operand_disassemble hd, h.operandAt he,
    (Instruction.encoding?_eq_some_iff.1 he).2.1, Instruction.size_of_known he]

/-- A branch is shown with its target. -/
theorem At.text_of_branch (h : m.At address i.bytes) (he : i.encoding? = some e)
    (hbranch : e.mnemonic.isBranch = true) :
    (m.disassemble address).text =
      i.mnemonic ++ " $" ++ Word.hex (branchTarget (address + 2) (Word.low i.operand.value)) := by
  have hd := h.decode? he
  obtain ⟨hmem, hname, -⟩ := Instruction.encoding?_eq_some_iff.1 he
  have hsize : e.size = 2 := (Encoding.size_of_mode hmem).2.1 (Encoding.mode_of_branch hmem hbranch)
  rw [Disassembly.text_of_branch hd hbranch, target_disassemble hd hbranch, h.operandAt he,
    Program.low_value_cut, hname, hsize]
  rfl

theorem At.readsBack_instruction (h : m.At address i.bytes) (he : i.encoding? = some e) :
    i.ReadsBack address (m.disassemble address) := by
  obtain ⟨hmem, hname, hmode⟩ := Instruction.encoding?_eq_some_iff.1 he
  have hd : (m.disassemble address).encoding? = some e := h.decode? he
  refine ⟨rfl, ?_, ?_, ?_, ?_, ?_⟩
  · rw [h.disassemble he]
  · exact ⟨e.mnemonic, e, hname, hmode ▸ Encoding.of?_mnemonic_mode hmem, hd⟩
  · intro e' he' hplain hfits
    obtain rfl : e = e' := Option.some.inj (hd.symm.trans he')
    rw [h.text_of_plain he hplain, Operand.cut_of_fits i.size_bounds.2 hfits]
    rfl
  · intro v hv hsize
    have hplain : e.mnemonic.isBranch = false := by
      rw [← Bool.not_eq_true]
      intro hbranch
      rw [Encoding.mode_of_branch hmem hbranch, hv] at hmode
      cases hmode
    have hlow : (Word.low v).toUInt16 = v % 256 := by
      apply UInt16.toNat_inj.1
      rw [UInt8.toNat_toUInt16, Word.toNat_low, UInt16.toNat_mod]
      rfl
    rw [h.text_of_plain he hplain, hv, hsize, Operand.cut, if_neg (by decide), hlow]
  · intro e' he' hbranch
    obtain rfl : e = e' := Option.some.inj (hd.symm.trans he')
    refine ⟨_, h.text_of_branch he hbranch, ?_⟩
    have hnext : (address + 2).toNat = (address.toNat + 2) % 65536 := UInt16.toNat_add address 2
    rw [toNat_branchTarget, hnext]
    omega

/-- Instructions that stand one after the other in memory are read back one
after the other. -/
theorem At.readsBack {is : List Instruction} (h : m.At address (is.flatMap Instruction.bytes))
    (hknown : ∀ i ∈ is, i.isKnown = true) :
    List.Forall₂ (fun placed d => placed.2.ReadsBack placed.1 d)
      (Program.layoutFrom address is) (m.disassembleRun address is.length) := by
  induction is generalizing address with
  | nil => exact .nil
  | cons i is ih =>
    rw [List.flatMap_cons, at_append, i.length_bytes] at h
    obtain ⟨e, he⟩ := Instruction.isKnown_iff.1 (hknown i List.mem_cons_self)
    have hsize : (m.disassemble address).size = i.size := by
      rw [h.1.disassemble he, Disassembly.size, i.length_bytes]
    rw [Program.layoutFrom, List.length_cons, disassembleRun, hsize]
    exact .cons (h.1.readsBack_instruction he)
      (ih h.2 fun j hj => hknown j (List.mem_cons_of_mem i hj))

end Memory

namespace Program

/-- **Disassembly undoes assembly and loading.** Take a program whose
instructions are all in the table and that fits in RAM, loaded in any memory.
Disassembling as many instructions as it has, each from where the one before
ends, gives its layout: address by address and instruction by instruction. -/
theorem disassembleRun_load {p : Program} (hknown : ∀ i ∈ p.instructions, i.isKnown = true)
    (hsize : p.size ≤ 0x8000) (m : Memory) :
    List.Forall₂ (fun placed d => placed.2.ReadsBack placed.1 d) p.layout
      ((m.load p).disassembleRun 0x0000 p.instructions.length) := by
  have hloaded : (m.load p).At programStart p.bytes := by
    rw [Memory.load_eq]
    refine Memory.at_writeBytes m ?_
    rw [p.length_bytes]
    exact Nat.le_trans (Nat.le_of_eq (Nat.zero_add p.size)) hsize
  exact hloaded.readsBack hknown

/-- An immediate value that is too wide, and a branch back to it. -/
def wideLoop : Program := ⟨[⟨"LDA", .immediate 0x1234⟩, ⟨"BNE", .direct 0xFC⟩]⟩

theorem disassembleRun_wideLoop :
    ∃ d₁ d₂, (Memory.blank.load wideLoop).disassembleRun 0x0000 2 = [d₁, d₂] ∧
      d₁.text = "LDA #$34" ∧ d₂.address = 0x0002 ∧ d₂.text = "BNE $0000" := by
  have h := disassembleRun_load (p := wideLoop) (by decide) (by decide) Memory.blank
  obtain ⟨d₁, walk, h₁, hrest, hwalk⟩ := List.forall₂_cons_left_iff.1 h
  obtain ⟨d₂, walk, h₂, hnil, rfl⟩ := List.forall₂_cons_left_iff.1 hrest
  obtain rfl : walk = [] := List.forall₂_nil_left_iff.1 hnil
  obtain ⟨mnemonic, e, hname, he, hentry⟩ := h₂.entry
  obtain rfl : mnemonic = .bne := Mnemonic.name_inj hname
  obtain rfl : ⟨0x26, .bne, .direct, 2⟩ = e := Option.some.inj he
  obtain ⟨target, htext, htarget⟩ := h₂.branch _ hentry rfl
  obtain rfl : target = 0 := UInt16.toNat_inj.1 (Int.ofNat.inj htarget)
  exact ⟨d₁, d₂, hwalk, (h₁.cut 0x1234 rfl rfl).trans (by decide), h₂.address, htext.trans (by decide)⟩

end Program

end Mc6809
