/-
What the registers can hold. An instruction that sets flags sets negative and
zero from one number, which is never both, and of the other flags at most the
carry (`exists_effect`); all else that a reset puts in DP, Y, S, U and the
condition codes stays there. So in every machine that can come about these
registers are zero, and of the 256 condition codes there are six.
-/
import Mathlib.Tactic.MkIffOfInductiveProp
import Mc6809.Proofs.Machine.InstructionSet
import Mc6809.Proofs.Machine.Reachable

namespace Mc6809

namespace ConditionCodes

/-- The interrupt mask is set, the flags that nothing computes are clear, and
no result was both negative and zero. -/
@[mk_iff]
structure Computed (cc : ConditionCodes) : Prop where
  irqMask : cc.has .irqMask = true
  entireState : cc.has .entireState = false
  firqMask : cc.has .firqMask = false
  halfCarry : cc.has .halfCarry = false
  overflow : cc.has .overflow = false
  sign : ¬ (cc.has .negative = true ∧ cc.has .zero = true)

instance (cc : ConditionCodes) : Decidable cc.Computed := decidable_of_iff _ cc.computed_iff.symm

/-- What is left of the 256 values: the interrupt mask with or without carry,
and with a zero, a negative or a positive result. -/
theorem computed_iff_mem_bits {cc : ConditionCodes} :
    cc.Computed ↔ cc.bits ∈ ([0x10, 0x11, 0x14, 0x15, 0x18, 0x19] : List Byte) :=
  byte_forall (fun b => Computed ⟨b⟩ ↔ b ∈ ([0x10, 0x11, 0x14, 0x15, 0x18, 0x19] : List Byte))
    (by decide +kernel) cc.bits

end ConditionCodes

/-- The registers that no instruction writes are zero, and the condition codes
are computed ones. -/
structure Registers.Regular (r : Registers) : Prop where
  dp : r.dp = 0
  y : r.y = 0
  s : r.s = 0
  u : r.u = 0
  cc : r.cc.Computed

/-! ## What an effect does to the flags -/

namespace Effect

/-- The new flags of an effect: none, or those of one number. -/
inductive OfResult : (Flag → Option Bool) → Prop
  | none : OfResult fun _ => none
  | flagsOf {top result : Nat} {carry : Option Bool} (htop : 0 < top) : OfResult (flagsOf top result carry)

theorem ofResult_effectOf (m : Machine) (e : Encoding) : OfResult (m.effectOf e).flags := by
  obtain ⟨opcode, mnemonic, mode, size⟩ := e
  cases mnemonic
  case lda | ldb | adda | addb | suba | subb | inca | incb | deca | decb =>
    exact .flagsOf (by decide : 0 < 128)
  case ldx => exact .flagsOf (by decide : 0 < 32768)
  case sta | stb | stx | bra | beq | bne | nop | stop => exact .none

theorem OfResult.computed {flags : Flag → Option Bool} (h : OfResult flags) {cc cc' : ConditionCodes}
    (hcc : ∀ flag, cc'.has flag = (flags flag).getD (cc.has flag)) (hold : cc.Computed) :
    cc'.Computed := by
  cases h with
  | none => exact ConditionCodes.ext_has hcc ▸ hold
  | @flagsOf top result carry htop =>
    refine ⟨(hcc _).trans hold.irqMask, (hcc _).trans hold.entireState, (hcc _).trans hold.firqMask,
      (hcc _).trans hold.halfCarry, (hcc _).trans hold.overflow, fun ⟨hnegative, hzero⟩ => ?_⟩
    have hnegative : decide (top ≤ result) = true := (hcc .negative).symm.trans hnegative
    have hzero : decide (result = 0) = true := (hcc .zero).symm.trans hzero
    rw [decide_eq_true_eq] at hnegative hzero
    omega

theorem Holds.regular {f : Effect} {m m' : Machine} (h : f.Holds m m') (hf : OfResult f.flags)
    (hm : m.registers.Regular) : m'.registers.Regular where
  dp := h.dp.trans hm.dp
  y := h.y.trans hm.y
  s := h.s.trans hm.s
  u := h.u.trans hm.u
  cc := hf.computed h.flags hm.cc

end Effect

/-! ## Every machine that can come about -/

namespace Machine

/-- A step of a running processor has an effect that sets flags from one number at most. -/
theorem exists_effect {m : Machine} (hrun : m.state = .running) :
    ∃ f : Effect, f.Holds m m.step.2 ∧ Effect.OfResult f.flags := by
  cases hd : Encoding.decode? (m.memory.read m.pc) with
  | none =>
    have hpc : ((m.pc + 1).toNat : Int) = (m.pc.toNat + 1 : Int) % 65536 := by
      rw [UInt16.toNat_add]
      simp only [UInt16.reduceToNat]
      omega
    rw [step_of_no_entry hrun hd]
    exact ⟨_, holds_halt hpc, .none⟩
  | some e =>
    rw [step_of_decode? hrun hd]
    exact ⟨_, holds_effectOf hrun (Encoding.mem_of_decode? hd).1, Effect.ofResult_effectOf m e⟩

theorem regular_step {m : Machine} (hm : m.registers.Regular) : m.step.2.registers.Regular := by
  cases hstate : m.state with
  | halted =>
    rw [step_of_isHalted (isHalted_eq_true.2 hstate)]
    exact hm
  | running =>
    obtain ⟨f, hholds, hflags⟩ := exists_effect hstate
    exact hholds.regular hflags hm

theorem regular_iterate {m : Machine} (hm : m.registers.Regular) (n : ℕ) :
    (iterate n m).registers.Regular := by
  induction n generalizing m with
  | zero => exact hm
  | succ n ih => exact ih (regular_step hm)

theorem regular_reset (m : Machine) : m.reset.registers.Regular where
  dp := rfl
  y := rfl
  s := rfl
  u := rfl
  cc := by
    show ConditionCodes.initial.Computed
    decide

theorem Reachable.regular {m : Machine} (h : m.Reachable) : m.registers.Regular := by
  induction h with
  | blank | reset | attach => exact regular_reset _
  | write _ _ _ ih | writeWord _ _ _ ih | clear _ ih | load _ _ ih => exact ih
  | step _ ih => exact regular_step ih
  | run _ hrun ih =>
    obtain ⟨-, -, rfl⟩ := run_eq_some_iff.1 hrun
    exact regular_iterate ih _

/-- **The registers of every machine that can come about.** DP, Y, S and U are
zero, no flag but negative, zero and carry differs from what a reset makes it,
and negative and zero are never set together; so there are six values of the
condition codes. -/
theorem Reachable.register_values {m : Machine} (h : m.Reachable) :
    m.registers.Regular ∧
      m.registers.cc.bits ∈ ([0x10, 0x11, 0x14, 0x15, 0x18, 0x19] : List Byte) := by
  have hregular := h.regular
  exact ⟨hregular, ConditionCodes.computed_iff_mem_bits.1 hregular.cc⟩

/-- Takes one from zero. -/
def borrow : Program := ⟨[⟨"SUBA", .immediate 1⟩]⟩

/-- The difference is negative and needs a borrow. -/
theorem step_borrow_registers :
    (ofProgram borrow).step.2.registers.Regular ∧ (ofProgram borrow).step.2.registers.cc.bits = 0x19 := by
  have hsize : borrow.size < 0x8000 := by decide
  have hstep := (Program.loaded_ofProgram hsize).step (k := 0) (e := ⟨0x80, .suba, .immediate, 2⟩) rfl
    (Program.ofProgram_pc hsize) rfl rfl
  refine ⟨(reachable_ofProgram borrow).step.register_values.1, ?_⟩
  rw [hstep]
  decide

end Machine

end Mc6809
