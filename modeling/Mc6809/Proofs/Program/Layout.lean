/-
Sizes, bytes and addresses of assembled instructions. An instruction takes one
to three bytes, as many as its `size` says; the instruction `k` of a program
stands `offset k` bytes from the start, the sum of the sizes before it.
-/
import Mc6809.Program

namespace Mc6809

namespace Encoding

theorem size_bounds {e : Encoding} (h : e ∈ table) : 1 ≤ e.size ∧ e.size ≤ 3 := by
  have key : ∀ e ∈ table, 1 ≤ e.size ∧ e.size ≤ 3 := by decide
  exact key e h

end Encoding

namespace Instruction

/-- An instruction is encoded by the entry of its name and mode, if there is one. -/
theorem encoding?_eq_some_iff {i : Instruction} {e : Encoding} :
    i.encoding? = some e ↔
      e ∈ Encoding.table ∧ e.mnemonic.name = i.mnemonic ∧ e.mode = i.operand.mode := by
  rw [encoding?, Option.bind_eq_some_iff]
  constructor
  · intro h
    obtain ⟨m, hm, he⟩ := h
    obtain ⟨hmem, rfl, hmode⟩ := Encoding.mem_of_of? he
    exact ⟨hmem, Mnemonic.ofName?_eq_some_iff.1 hm, hmode⟩
  · intro h
    obtain ⟨hmem, hname, hmode⟩ := h
    refine ⟨e.mnemonic, Mnemonic.ofName?_eq_some_iff.2 hname, ?_⟩
    rw [← hmode]
    exact Encoding.of?_mnemonic_mode hmem

theorem isKnown_iff {i : Instruction} : i.isKnown = true ↔ ∃ e, i.encoding? = some e :=
  Option.isSome_iff_exists

theorem opcode_of_known {i : Instruction} {e : Encoding} (h : i.encoding? = some e) :
    i.opcode = e.opcode := by simp [opcode, h]

theorem size_of_known {i : Instruction} {e : Encoding} (h : i.encoding? = some e) :
    i.size = e.size := by simp [size, h]

theorem opcode_of_unknown {i : Instruction} (h : i.encoding? = none) :
    i.opcode = Encoding.sentinel := by simp [opcode, h]

theorem size_of_unknown {i : Instruction} (h : i.encoding? = none) :
    i.size = i.operand.mode.size := by simp [size, h]

theorem size_bounds (i : Instruction) : 1 ≤ i.size ∧ i.size ≤ 3 := by
  cases h : i.encoding? with
  | none =>
    rw [size_of_unknown h]
    cases i.operand.mode <;> decide
  | some e =>
    rw [size_of_known h]
    exact Encoding.size_bounds (encoding?_eq_some_iff.1 h).1

theorem size_cases (i : Instruction) : i.size = 1 ∨ i.size = 2 ∨ i.size = 3 := by
  have h := i.size_bounds
  omega

/-- The bytes of an operand that takes `n` of them, highest first. -/
def operandBytes (value : Word) : (n : Nat) → List Byte
  | 0 => []
  | 1 => [Word.low value]
  | _ => [Word.high value, Word.low value]

theorem bytes_eq (i : Instruction) :
    i.bytes = i.opcode :: operandBytes i.operand.value (i.size - 1) := by
  unfold bytes
  rcases i.size_cases with h | h | h
  · rw [h]; rfl
  · rw [h]; rfl
  · rw [h]; rfl

@[simp] theorem length_bytes (i : Instruction) : i.bytes.length = i.size := by
  rw [bytes_eq]
  rcases i.size_cases with h | h | h
  · rw [h]; rfl
  · rw [h]; rfl
  · rw [h]; rfl

end Instruction

namespace Program

/-- The number of bytes before instruction `k`. -/
def offset (p : Program) (k : Nat) : Nat := size ⟨p.instructions.take k⟩

theorem size_append (is js : List Instruction) : size ⟨is ++ js⟩ = size ⟨is⟩ + size ⟨js⟩ := by
  induction is with
  | nil => exact (Nat.zero_add _).symm
  | cons i is ih =>
    show i.size + size ⟨is ++ js⟩ = i.size + size ⟨is⟩ + size ⟨js⟩
    rw [ih, Nat.add_assoc]

theorem offset_succ (p : Program) {k : Nat} (h : k < p.instructions.length) :
    p.offset (k + 1) = p.offset k + p.instructions[k].size := by
  rw [offset, List.take_succ_eq_append_getElem h, size_append]
  rfl

theorem offset_length (p : Program) : p.offset p.instructions.length = p.size := by
  rw [offset, List.take_length]

theorem length_flatMap_bytes (is : List Instruction) :
    (is.flatMap Instruction.bytes).length = size ⟨is⟩ := by
  induction is with
  | nil => rfl
  | cons i is ih =>
    rw [List.flatMap_cons, List.length_append, ih, Instruction.length_bytes]
    rfl

theorem length_bytes (p : Program) : p.bytes.length = p.size := by
  rw [bytes, length_flatMap_bytes]

/-- The bytes of a program are those before an instruction, its own, and the rest. -/
theorem bytes_eq_append (p : Program) {k : Nat} (h : k < p.instructions.length) :
    ∃ before after, p.bytes = before ++ p.instructions[k].bytes ++ after ∧
      before.length = p.offset k := by
  refine ⟨(p.instructions.take k).flatMap Instruction.bytes,
    (p.instructions.drop (k + 1)).flatMap Instruction.bytes, ?_, length_flatMap_bytes _⟩
  have hsplit : p.instructions = p.instructions.take k ++ p.instructions[k] :: p.instructions.drop (k + 1) := by
    rw [← List.drop_eq_getElem_cons h, List.take_append_drop]
  rw [bytes]
  conv => lhs; rw [hsplit]
  rw [List.flatMap_append, List.flatMap_cons, List.append_assoc]

theorem getElem?_layoutFrom (start : Address) {is : List Instruction} {k : Nat} (h : k < is.length) :
    (layoutFrom start is)[k]? =
      some (start + UInt16.ofNat (size ⟨is.take k⟩), is[k]) := by
  induction is generalizing start k with
  | nil => simp at h
  | cons i is ih =>
    cases k with
    | zero => simp [layoutFrom, size]
    | succ k =>
      have hsize : size ⟨i :: is.take k⟩ = i.size + size ⟨is.take k⟩ := rfl
      rw [layoutFrom, List.getElem?_cons_succ, ih _ (by simpa using h), List.take_succ_cons, hsize,
        UInt16.ofNat_add, UInt16.add_assoc]
      rfl

theorem getElem?_layout (p : Program) {k : Nat} (h : k < p.instructions.length) :
    p.layout[k]? = some (UInt16.ofNat (p.offset k), p.instructions[k]) := by
  rw [layout, getElem?_layoutFrom _ h, programStart, offset, UInt16.zero_add]

/-- Where an instruction starts, or the program ends. -/
def boundaries (p : Program) : List Address := p.layout.map (·.1) ++ [UInt16.ofNat p.size]

theorem length_layout (p : Program) : p.layout.length = p.instructions.length :=
  length_layoutFrom _ _

/-- The boundary after `k` instructions is the total of their sizes. -/
theorem getElem?_boundaries (p : Program) {k : Nat} (h : k ≤ p.instructions.length) :
    p.boundaries[k]? = some (UInt16.ofNat (p.offset k)) := by
  by_cases hk : k < p.instructions.length
  · rw [boundaries, List.getElem?_append_left (by simpa [length_layout] using hk), List.getElem?_map,
      getElem?_layout p hk]
    rfl
  · have hk : k = p.instructions.length := by omega
    subst hk
    rw [boundaries, List.getElem?_append_right (by simp [length_layout]), List.length_map,
      length_layout, Nat.sub_self, offset_length]
    rfl

theorem mem_boundaries_iff (p : Program) {address : Address} :
    address ∈ p.boundaries ↔ ∃ k ≤ p.instructions.length, address = UInt16.ofNat (p.offset k) := by
  rw [List.mem_iff_getElem?]
  constructor
  · intro h
    obtain ⟨k, hk⟩ := h
    have hlt : k < p.boundaries.length := (List.getElem?_eq_some_iff.1 hk).1
    have hle : k ≤ p.instructions.length := by
      simp only [boundaries, List.length_append, List.length_map, length_layout,
        List.length_singleton] at hlt
      omega
    rw [getElem?_boundaries p hle] at hk
    exact ⟨k, hle, (Option.some.inj hk).symm⟩
  · intro h
    obtain ⟨k, hk, rfl⟩ := h
    exact ⟨k, getElem?_boundaries p hk⟩

end Program

end Mc6809
