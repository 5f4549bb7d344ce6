/-
The instruction set as its manual has it, and the processor that carries it
out. `Machine.effectOf` gives the effect of each operation in plain numbers:
what it loads, adds or stores, which flags it sets and where it goes next.
A step of a running processor has just that effect.

The operations come in families (loads, sums, stores, branches), and each
family is one lemma here, over both accumulators where it has two.
-/
import Mc6809.Proofs.Machine.Effect
import Mc6809.Proofs.Machine.Step

namespace Mc6809

namespace Memory

/-- The byte at an address, which wraps at 2^16. -/
def byteAt (m : Memory) (address : Nat) : Nat := (m.read (UInt16.ofNat address)).toNat

/-- The two bytes from an address on as one number, the first one high. -/
def wordAt (m : Memory) (address : Nat) : Nat := 256 * m.byteAt address + m.byteAt (address + 1)

end Memory

namespace Machine

/-- The bytes after the opcode as one number. -/
def operandNumber (m : Machine) (e : Encoding) : Nat :=
  match e.size - 1 with
  | 0 => 0
  | 1 => m.memory.byteAt (m.pc.toNat + 1)
  | _ => m.memory.wordAt (m.pc.toNat + 1)

/-- The byte an operation works with: its operand, or the byte its operand points to. -/
def operandByte (m : Machine) (e : Encoding) : Nat :=
  if e.mode = .immediate then m.operandNumber e else m.memory.byteAt (m.operandNumber e)

/-- The word an operation works with. -/
def operandWord (m : Machine) (e : Encoding) : Nat :=
  if e.mode = .immediate then m.operandNumber e else m.memory.wordAt (m.operandNumber e)

/-- The operand of a branch, as a signed byte. -/
def branchOffset (m : Machine) (e : Encoding) : Int :=
  if m.operandNumber e < 128 then m.operandNumber e else m.operandNumber e - 256

/-- The documented effect of an instruction at the program counter. -/
def effectOf (m : Machine) (e : Encoding) : Effect :=
  let a := m.registers.a.toNat
  let b := m.registers.b.toNat
  let x := m.registers.x.toNat
  let zero := m.registers.cc.has .zero
  let byte := m.operandByte e
  let word := m.operandWord e
  let address := m.operandNumber e
  let next : Int := m.pc.toNat + e.size
  let branch (taken : Bool) : Effect := { pc := if taken then next + m.branchOffset e else next }
  match e.mnemonic with
  | .lda => .ofResult .a byte none next
  | .ldb => .ofResult .b byte none next
  | .ldx => { x := some word, flags := Effect.flagsOf 32768 word none, pc := next }
  | .adda => .ofResult .a ((a + byte) % 256) (some (decide (255 < a + byte))) next
  | .addb => .ofResult .b ((b + byte) % 256) (some (decide (255 < b + byte))) next
  | .suba => .ofResult .a ((256 + a - byte) % 256) (some (decide (a < byte))) next
  | .subb => .ofResult .b ((256 + b - byte) % 256) (some (decide (b < byte))) next
  | .inca => .ofResult .a ((a + 1) % 256) none next
  | .incb => .ofResult .b ((b + 1) % 256) none next
  | .deca => .ofResult .a ((a + 255) % 256) none next
  | .decb => .ofResult .b ((b + 255) % 256) none next
  | .sta => { stores := [(UInt16.ofNat address, a)], pc := next }
  | .stb => { stores := [(UInt16.ofNat address, b)], pc := next }
  | .stx =>
    { stores := [(UInt16.ofNat address, x / 256), (UInt16.ofNat (address + 1), x % 256)], pc := next }
  | .bra => branch true
  | .beq => branch zero
  | .bne => branch !zero
  | .nop => { pc := next }
  | .stop => { pc := next, halts := true }

/-- The documented effect of the next step. An opcode that no entry of the
table has is fetched and halts the processor. -/
def documented (m : Machine) : Effect :=
  match Encoding.table.find? (·.opcode == m.memory.read m.pc) with
  | some e => m.effectOf e
  | none => { pc := m.pc.toNat + 1, halts := true }

end Machine

/-! ## Operands as numbers -/

theorem Word.toNat_signExtend (offset : Byte) :
    (signExtend offset).toNat =
      if offset.toNat < 128 then offset.toNat else offset.toNat + 0xFF00 := by
  have hlt := offset.toNat_lt
  have hneg : offset < 0x80 ↔ offset.toNat < 128 := UInt8.lt_iff_toNat_lt
  unfold signExtend
  by_cases h : offset.toNat < 128
  · rw [if_pos h, if_pos (hneg.2 h), UInt8.toNat_toUInt16]
  · rw [if_neg h, if_neg (mt hneg.1 h), UInt16.toNat_add, UInt8.toNat_toUInt16]
    simp only [UInt16.reduceToNat]
    omega

namespace Memory

theorem wordAt_eq (m : Memory) (address : Nat) :
    m.wordAt address = (m.readWord (UInt16.ofNat address)).toNat := by
  rw [toNat_readWord, wordAt, byteAt, byteAt, UInt16.ofNat_add]
  rfl

@[simp] theorem mode_operandAt (m : Memory) (e : Encoding) (address : Address) :
    (m.operandAt e address).mode = e.mode := by
  unfold operandAt
  cases e.mode
  case immediate =>
    simp only
    split <;> rfl
  all_goals rfl

end Memory

theorem Operand.effectiveAddress?_eq_none {operand : Operand} (h : operand.mode = .immediate) :
    operand.effectiveAddress? = none := by
  cases operand <;> first | rfl | cases h

theorem Operand.effectiveAddress?_eq_some {operand : Operand}
    (h : operand.mode = .direct ∨ operand.mode = .extended) :
    operand.effectiveAddress? = some operand.value := by
  cases operand <;> first | rfl | (rcases h with h | h <;> cases h)

namespace Machine

variable {m : Machine} {e : Encoding}

@[simp] theorem past_memory (m : Machine) (e : Encoding) : (m.past e).memory = m.memory := rfl

theorem operandNumber_eq (he : e ∈ Encoding.table) :
    m.operandNumber e = (m.memory.operandAt e m.pc).value.toNat := by
  obtain ⟨hinherent, hdirect, hextended, himmediate⟩ := Encoding.size_of_mode he
  unfold operandNumber Memory.operandAt
  cases hmode : e.mode with
  | inherent => simp only [hinherent hmode]; rfl
  | direct =>
    simp only [hdirect hmode, Memory.byteAt, Operand.value]
    rw [UInt16.ofNat_add, UInt16.ofNat_toNat, UInt8.toNat_toUInt16]
    rfl
  | extended =>
    simp only [hextended hmode, Memory.wordAt_eq, Operand.value]
    rw [UInt16.ofNat_add, UInt16.ofNat_toNat]
    rfl
  | immediate =>
    rcases himmediate hmode with h | h
    · simp only [h, Memory.byteAt, if_neg (by decide : ¬ 2 = 3), Operand.value]
      rw [UInt16.ofNat_add, UInt16.ofNat_toNat, UInt8.toNat_toUInt16]
      rfl
    · simp only [h, Memory.wordAt_eq, if_true, Operand.value]
      rw [UInt16.ofNat_add, UInt16.ofNat_toNat]
      rfl

theorem ofNat_operandNumber (he : e ∈ Encoding.table) :
    UInt16.ofNat (m.operandNumber e) = (m.memory.operandAt e m.pc).value := by
  rw [operandNumber_eq he, UInt16.ofNat_toNat]

theorem effectiveAddress?_operandAt (he : e ∈ Encoding.table)
    (hmode : e.mode = .direct ∨ e.mode = .extended) :
    (m.memory.operandAt e m.pc).effectiveAddress? = some (UInt16.ofNat (m.operandNumber e)) := by
  rw [ofNat_operandNumber he]
  exact Operand.effectiveAddress?_eq_some (by rwa [Memory.mode_operandAt])

/-- The byte an operation works with is its byte operand, where it has one. -/
theorem operandByte_eq (he : e ∈ Encoding.table) (hmode : e.mode ≠ .inherent)
    (hx : e.mnemonic ≠ .ldx) :
    m.operandByte e = ((m.past e).byteOperand (m.memory.operandAt e m.pc)).toNat := by
  unfold operandByte byteOperand
  rcases Encoding.mode_cases hmode with h | h
  · have hsize : e.size = 2 := by rw [Encoding.size_eq he, if_neg fun hm => hx hm.1, h]; rfl
    have hlt : m.operandNumber e < 256 := by
      simp only [operandNumber, hsize]
      exact UInt8.toNat_lt _
    rw [if_pos h, Operand.effectiveAddress?_eq_none (by rwa [Memory.mode_operandAt])]
    simp only
    rw [Word.toNat_low, ← operandNumber_eq he, Nat.mod_eq_of_lt hlt]
  · have himm : e.mode ≠ .immediate := by rcases h with h | h <;> rw [h] <;> decide
    rw [if_neg himm, effectiveAddress?_operandAt he h]
    rfl

theorem operandWord_eq (he : e ∈ Encoding.table) (hmode : e.mode ≠ .inherent) :
    m.operandWord e = ((m.past e).wordOperand (m.memory.operandAt e m.pc)).toNat := by
  unfold operandWord wordOperand
  rcases Encoding.mode_cases hmode with h | h
  · rw [if_pos h, Operand.effectiveAddress?_eq_none (by rwa [Memory.mode_operandAt])]
    exact operandNumber_eq he
  · have himm : e.mode ≠ .immediate := by rcases h with h | h <;> rw [h] <;> decide
    rw [if_neg himm, effectiveAddress?_operandAt he h]
    exact Memory.wordAt_eq _ _

/-! ## The families of operations -/

theorem toNat_past_pc (m : Machine) (e : Encoding) :
    ((m.past e).pc.toNat : Int) = (m.pc.toNat + e.size : Int) % 65536 := by
  have h : (m.past e).pc.toNat = (m.pc.toNat + e.size) % 65536 := by
    rw [past, setPc_pc, UInt16.toNat_add, UInt16.toNat_ofNat', Nat.add_mod_mod]
  rw [h]
  omega

/-- Moving past an instruction, and nothing else. -/
theorem holds_past (h : m.state = .running) :
    Effect.Holds { pc := m.pc.toNat + e.size } m (m.past e).counted :=
  { a := rfl, b := rfl, x := rfl, dp := rfl, y := rfl, s := rfl, u := rfl
    pc := toNat_past_pc m e
    flags := fun _ => rfl
    memory := fun _ => (ite_self _).symm
    state := h
    steps := rfl }

/-- A result in an accumulator, with its sign and whether it is zero. -/
theorem holds_putResult (h : m.state = .running) (acc : Accumulator) (result : Byte) :
    (Effect.ofResult acc result.toNat none (m.pc.toNat + e.size)).Holds m
      ((m.past e).putResult acc result).counted :=
  { a := by cases acc <;> rfl
    b := by cases acc <;> rfl
    x := by cases acc <;> rfl
    dp := by cases acc <;> rfl
    y := by cases acc <;> rfl
    s := by cases acc <;> rfl
    u := by cases acc <;> rfl
    pc := by cases acc <;> exact toNat_past_pc m e
    flags := fun flag => by
      have hcc : ((m.past e).putResult acc result).counted.registers.cc = m.registers.cc.ofByte result := rfl
      rw [hcc, ConditionCodes.has_ofByte]
      cases flag <;> rfl
    memory := fun address => by cases acc <;> exact (ite_self _).symm
    state := by cases acc <;> exact h
    steps := by cases acc <;> rfl }

/-- A result that also tells the carry. -/
theorem holds_putResult_carry (h : m.state = .running) (acc : Accumulator) (result : Byte) (carry : Bool) :
    (Effect.ofResult acc result.toNat (some carry) (m.pc.toNat + e.size)).Holds m
      (((m.past e).putResult acc result).setCodes
        (((m.past e).putResult acc result).registers.cc.assign .carry carry)).counted :=
  have base := holds_putResult (e := e) h acc result
  { a := base.a, b := base.b, x := base.x, dp := base.dp, y := base.y, s := base.s, u := base.u
    pc := base.pc
    flags := fun flag => by
      have hflag := base.flags flag
      simp only [counted, setCodes, ConditionCodes.has_assign] at hflag ⊢
      rw [hflag]
      cases flag <;> rfl
    memory := base.memory
    state := base.state
    steps := base.steps }

theorem holds_load (h : m.state = .running) (acc : Accumulator) (operand : Operand) {byte : Nat}
    (hbyte : byte = ((m.past e).byteOperand operand).toNat) :
    (Effect.ofResult acc byte none (m.pc.toNat + e.size)).Holds m ((m.past e).load acc operand).counted := by
  rw [hbyte]
  exact holds_putResult h acc _

theorem holds_add (h : m.state = .running) (acc : Accumulator) (operand : Operand) {byte : Nat}
    (hbyte : byte = ((m.past e).byteOperand operand).toNat) :
    (Effect.ofResult acc (((m.accumulator acc).toNat + byte) % 256)
      (some (decide (255 < (m.accumulator acc).toNat + byte))) (m.pc.toNat + e.size)).Holds m
      ((m.past e).add acc operand).counted := by
  have hsum : ((m.accumulator acc).toNat + byte) % 256 =
      ((m.past e).accumulator acc + (m.past e).byteOperand operand).toNat := by
    rw [hbyte, UInt8.toNat_add]
    cases acc <;> rfl
  have hcarry : (m.past e).accumulator acc = m.accumulator acc := by cases acc <;> rfl
  rw [hsum, hbyte, ← hcarry]
  exact holds_putResult_carry h acc _ _

theorem holds_subtract (h : m.state = .running) (acc : Accumulator) (operand : Operand) {byte : Nat}
    (hbyte : byte = ((m.past e).byteOperand operand).toNat) :
    (Effect.ofResult acc ((256 + (m.accumulator acc).toNat - byte) % 256)
      (some (decide ((m.accumulator acc).toNat < byte))) (m.pc.toNat + e.size)).Holds m
      ((m.past e).subtract acc operand).counted := by
  have hacc : (m.past e).accumulator acc = m.accumulator acc := by cases acc <;> rfl
  have hdiff : (256 + (m.accumulator acc).toNat - byte) % 256 =
      ((m.past e).accumulator acc - (m.past e).byteOperand operand).toNat := by
    have hlt := ((m.past e).byteOperand operand).toNat_lt
    rw [hbyte, hacc, UInt8.toNat_sub]
    congr 1
    omega
  have hborrow : decide ((m.accumulator acc).toNat < byte) =
      decide ((m.past e).accumulator acc < (m.past e).byteOperand operand) := by
    rw [hbyte, hacc]
    exact decide_eq_decide.2 UInt8.lt_iff_toNat_lt.symm
  rw [hdiff, hborrow]
  exact holds_putResult_carry h acc _ _

theorem holds_increment (h : m.state = .running) (acc : Accumulator) :
    (Effect.ofResult acc (((m.accumulator acc).toNat + 1) % 256) none (m.pc.toNat + e.size)).Holds m
      ((m.past e).increment acc).counted := by
  have hsum : ((m.accumulator acc).toNat + 1) % 256 = ((m.past e).accumulator acc + 1).toNat := by
    rw [UInt8.toNat_add]
    cases acc <;> rfl
  rw [hsum]
  exact holds_putResult h acc _

theorem holds_decrement (h : m.state = .running) (acc : Accumulator) :
    (Effect.ofResult acc (((m.accumulator acc).toNat + 255) % 256) none (m.pc.toNat + e.size)).Holds m
      ((m.past e).decrement acc).counted := by
  have hdiff : ((m.accumulator acc).toNat + 255) % 256 = ((m.past e).accumulator acc - 1).toNat := by
    rw [UInt8.toNat_sub, Nat.add_comm]
    cases acc <;> rfl
  rw [hdiff]
  exact holds_putResult h acc _

theorem holds_loadX (h : m.state = .running) (operand : Operand) {word : Nat}
    (hword : word = ((m.past e).wordOperand operand).toNat) :
    Effect.Holds { x := some word, flags := Effect.flagsOf 32768 word none, pc := m.pc.toNat + e.size } m
      ((m.past e).loadX operand).counted :=
  { a := rfl, b := rfl, x := hword.symm, dp := rfl, y := rfl, s := rfl, u := rfl
    pc := toNat_past_pc m e
    flags := fun flag => by
      have hcc : ((m.past e).loadX operand).counted.registers.cc =
        m.registers.cc.ofWord ((m.past e).wordOperand operand) := rfl
      rw [hcc, ConditionCodes.has_ofWord, hword]
      cases flag <;> rfl
    memory := fun _ => (ite_self _).symm
    state := h
    steps := rfl }

/-- A memory that is all a step changes. -/
theorem holds_memory (h : m.state = .running) {memory : Memory} {stores : List (Address × Nat)}
    (hread : ∀ address, (memory.read address).toNat =
      if address.toNat < 0x8000 then (stores.lookup address).getD (m.memory.read address).toNat
      else (m.memory.read address).toNat) :
    Effect.Holds { stores := stores, pc := m.pc.toNat + e.size } m
      { m.past e with memory := memory }.counted :=
  { a := rfl, b := rfl, x := rfl, dp := rfl, y := rfl, s := rfl, u := rfl
    pc := toNat_past_pc m e
    flags := fun _ => rfl
    memory := hread
    state := h
    steps := rfl }

theorem lookup_cons_ne {address other : Address} (h : other ≠ address) (value : Nat)
    (stores : List (Address × Nat)) :
    ((address, value) :: stores).lookup other = stores.lookup other := by
  rw [List.lookup_cons, beq_eq_false_iff_ne.2 h]

theorem holds_storeByte (h : m.state = .running) {operand : Operand} {address : Address}
    (haddress : operand.effectiveAddress? = some address) (value : Byte) :
    Effect.Holds { stores := [(address, value.toNat)], pc := m.pc.toNat + e.size } m
      ((m.past e).storeByte operand value).counted := by
  rw [storeByte, haddress]
  refine holds_memory h fun other => ?_
  rw [past_memory, Memory.toNat_read_write]
  by_cases hother : other = address
  · rw [if_pos hother, hother, List.lookup_cons_self, Option.getD_some]
  · rw [if_neg hother, lookup_cons_ne hother, List.lookup_nil, Option.getD_none]

theorem holds_storeWord (h : m.state = .running) {operand : Operand} {address : Address}
    (haddress : operand.effectiveAddress? = some address) (value : Word) :
    Effect.Holds
      { stores := [(address, value.toNat / 256), (address + 1, value.toNat % 256)]
        pc := m.pc.toNat + e.size } m
      ((m.past e).storeWord operand value).counted := by
  rw [storeWord, haddress]
  refine holds_memory h fun other => ?_
  rw [past_memory, Memory.writeWord, Memory.toNat_read_write, Memory.toNat_read_write,
    Word.toNat_high, Word.toNat_low]
  by_cases hhigh : other = address
  · have hlow : other ≠ address + 1 := hhigh ▸ Memory.ne_next address
    rw [if_neg hlow, if_pos hhigh, hhigh, List.lookup_cons_self, Option.getD_some]
    split <;> rfl
  · rw [if_neg hhigh, lookup_cons_ne hhigh]
    by_cases hlow : other = address + 1
    · rw [if_pos hlow, hlow, List.lookup_cons_self, Option.getD_some]
      simp only [ite_self]
    · rw [if_neg hlow, lookup_cons_ne hlow, List.lookup_nil, Option.getD_none]
      simp only [ite_self]

theorem toNat_branchTarget (he : e ∈ Encoding.table) (hm : e.mnemonic.isBranch = true) :
    (((m.past e).branchTarget (m.memory.operandAt e m.pc)).toNat : Int) =
      (m.pc.toNat + e.size + m.branchOffset e) % 65536 := by
  have hsize : e.size = 2 := (Encoding.size_of_mode he).2.1 (Encoding.mode_of_branch he hm)
  have hlt : m.operandNumber e < 256 := by
    simp only [operandNumber, hsize]
    exact UInt8.toNat_lt _
  have hlow : (Word.low (m.memory.operandAt e m.pc).value).toNat = m.operandNumber e := by
    rw [Word.toNat_low, ← operandNumber_eq he, Nat.mod_eq_of_lt hlt]
  have hpast := toNat_past_pc m e
  rw [branchTarget, Mc6809.branchTarget, UInt16.toNat_add, Word.toNat_signExtend, hlow, branchOffset]
  split <;> omega

/-- A branch that is taken changes the program counter only. -/
theorem holds_branch (h : m.state = .running) (he : e ∈ Encoding.table)
    (hm : e.mnemonic.isBranch = true) (mnemonic : Mnemonic) (taken : Bool) :
    Effect.Holds
      { pc := if taken then m.pc.toNat + e.size + m.branchOffset e else m.pc.toNat + e.size } m
      ((m.past e).branch mnemonic (m.memory.operandAt e m.pc) taken).2.counted := by
  cases taken with
  | false => exact holds_past h
  | true =>
    exact
      { a := rfl, b := rfl, x := rfl, dp := rfl, y := rfl, s := rfl, u := rfl
        pc := toNat_branchTarget he hm
        flags := fun _ => rfl
        memory := fun _ => (ite_self _).symm
        state := h
        steps := rfl }

/-- Halting after moving to `next`, and nothing else. -/
theorem holds_halt {next : Address} {pc : Int} (hpc : (next.toNat : Int) = pc % 65536) :
    Effect.Holds { pc := pc, halts := true } m (m.setPc next).halt.counted :=
  { a := rfl, b := rfl, x := rfl, dp := rfl, y := rfl, s := rfl, u := rfl
    pc := hpc
    flags := fun _ => rfl
    memory := fun _ => (ite_self _).symm
    state := rfl
    steps := rfl }

/-! ## The whole set -/

/-- An instruction has its documented effect, once its bytes are fetched. -/
theorem holds_effectOf (h : m.state = .running) (he : e ∈ Encoding.table) :
    (m.effectOf e).Holds m ((m.past e).perform e (m.memory.operandAt e m.pc)).2.counted := by
  have hbyte : e.mnemonic ∈ [.lda, .ldb, .adda, .addb, .suba, .subb] →
      m.operandByte e = ((m.past e).byteOperand (m.memory.operandAt e m.pc)).toNat := fun hm =>
    operandByte_eq he (Encoding.mode_of_value he (by revert hm; cases e.mnemonic <;> decide))
      (by intro hx; rw [hx] at hm; revert hm; decide)
  have haddress : e.mnemonic ∈ [.sta, .stb, .stx] →
      (m.memory.operandAt e m.pc).effectiveAddress? = some (UInt16.ofNat (m.operandNumber e)) := fun hm =>
    effectiveAddress?_operandAt he (Encoding.mode_of_store he hm)
  unfold effectOf perform
  cases hm : e.mnemonic
  case lda => exact holds_load h .a _ (hbyte (by rw [hm]; decide))
  case ldb => exact holds_load h .b _ (hbyte (by rw [hm]; decide))
  case ldx => exact holds_loadX h _ (operandWord_eq he (Encoding.mode_of_value he (by rw [hm]; decide)))
  case sta => exact holds_storeByte h (haddress (by rw [hm]; decide)) _
  case stb => exact holds_storeByte h (haddress (by rw [hm]; decide)) _
  case stx =>
    have hstore := holds_storeWord (e := e) h (haddress (by rw [hm]; decide)) m.registers.x
    have hnext : UInt16.ofNat (m.operandNumber e) + 1 = UInt16.ofNat (m.operandNumber e + 1) :=
      (UInt16.ofNat_add _ _).symm
    rw [hnext] at hstore
    exact hstore
  case adda => exact holds_add h .a _ (hbyte (by rw [hm]; decide))
  case addb => exact holds_add h .b _ (hbyte (by rw [hm]; decide))
  case suba => exact holds_subtract h .a _ (hbyte (by rw [hm]; decide))
  case subb => exact holds_subtract h .b _ (hbyte (by rw [hm]; decide))
  case inca => exact holds_increment h .a
  case incb => exact holds_increment h .b
  case deca => exact holds_decrement h .a
  case decb => exact holds_decrement h .b
  case bra => exact holds_branch h he (by rw [hm]; rfl) .bra true
  case beq => exact holds_branch h he (by rw [hm]; rfl) .beq (m.registers.cc.has .zero)
  case bne => exact holds_branch h he (by rw [hm]; rfl) .bne (!m.registers.cc.has .zero)
  case nop => exact holds_past h
  case stop => exact holds_halt (toNat_past_pc m e)

/-- **The instruction set.** A step of a running processor, whatever is in its
registers and memory, leads to `m'` exactly if `m'` shows the documented effect
of the instruction at the program counter, and nothing besides. -/
theorem step_iff_documented {m m' : Machine} (h : m.state = .running) :
    m.step.2 = m' ↔ m.documented.Holds m m' := by
  apply Effect.Holds.eq_iff
  unfold documented
  split
  next e hfind =>
    rw [step_of_decode? h hfind]
    exact holds_effectOf h (Encoding.mem_of_decode? hfind).1
  next hfind =>
    rw [step_of_no_entry h hfind]
    refine holds_halt ?_
    rw [UInt16.toNat_add]
    simp only [UInt16.reduceToNat]
    omega

/-- `ADDA #$01` is next, with 255 in A. -/
def beforeWrap : Machine :=
  ⟨{ Registers.initial with a := 0xFF }, Memory.blank.writeBytes 0x0000 [0x8B, 0x01], .running, 0⟩

/-- The sum wraps to 0 and sets the carry flag. -/
theorem step_beforeWrap :
    beforeWrap.state = .running ∧
      (Effect.ofResult .a 0 (some true) 2).Holds beforeWrap beforeWrap.step.2 := by
  have hopcode : beforeWrap.memory.read 0x0000 = 0x8B := by
    simp [beforeWrap, Memory.writeBytes, Memory.read_write, Memory.inRom, Memory.romStart]
  have hoperand : beforeWrap.memory.read 0x0001 = 0x01 := by
    simp [beforeWrap, Memory.writeBytes, Memory.read_write, Memory.inRom, Memory.romStart]
  have hdoc : ∀ m : Machine, m.pc = 0x0000 → m.registers.a = 0xFF → m.memory.read 0x0000 = 0x8B →
      m.memory.read 0x0001 = 0x01 → m.documented = .ofResult .a 0 (some true) 2 := by
    intro m hpc ha hopcode hoperand
    have hfind : Encoding.table.find? (·.opcode == m.memory.read m.pc) =
        some ⟨0x8B, .adda, .immediate, 2⟩ := by rw [hpc, hopcode]; rfl
    have hbyte : m.operandByte ⟨0x8B, .adda, .immediate, 2⟩ = 1 := by
      simp only [operandByte, operandNumber, if_true, Memory.byteAt, hpc]
      exact congrArg UInt8.toNat hoperand
    rw [documented, hfind]
    simp only [effectOf, hbyte, ha, hpc]
    rfl
  have hholds := (step_iff_documented (m := beforeWrap) rfl).1 rfl
  rw [hdoc beforeWrap rfl rfl hopcode hoperand] at hholds
  exact ⟨rfl, hholds⟩

end Machine

end Mc6809
