/-
The condition codes as eight flags. A flag is one bit of the register
(`has_eq_getLsbD`), so assigning one leaves the others alone (`has_assign`),
and the flags together determine the register (`ext_has`).
-/
import Mc6809.Registers

namespace Mc6809

namespace Flag

/-- The place of a flag in the register. -/
def bit : Flag → Nat
  | entireState => 7
  | firqMask => 6
  | halfCarry => 5
  | irqMask => 4
  | negative => 3
  | zero => 2
  | overflow => 1
  | carry => 0

theorem mem_all (f : Flag) : f ∈ all := by cases f <;> decide

theorem getLsbD_mask (f g : Flag) : f.mask.toBitVec.getLsbD g.bit = decide (g = f) := by
  cases f <;> cases g <;> decide

/-- Every place of the register holds a flag. -/
theorem exists_bit {i : Nat} (h : i < 8) : ∃ f : Flag, f.bit = i := by
  have key : ∀ i : Fin 8, ∃ f ∈ Flag.all, f.bit = i := by decide
  obtain ⟨f, -, hf⟩ := key ⟨i, h⟩
  exact ⟨f, hf⟩

end Flag

namespace ConditionCodes

/-- What holds of the 256 values of a byte holds of every byte. -/
theorem byte_forall (P : Byte → Prop) (h : ∀ n : Fin 256, P (UInt8.ofNat n)) (b : Byte) : P b := by
  have := h ⟨b.toNat, b.toNat_lt⟩
  rwa [UInt8.ofNat_toNat] at this

theorem has_eq_getLsbD (cc : ConditionCodes) (f : Flag) :
    cc.has f = cc.bits.toBitVec.getLsbD f.bit := by
  have key : ∀ f ∈ Flag.all, ∀ n : Fin 256,
      ConditionCodes.has ⟨UInt8.ofNat n⟩ f = (UInt8.ofNat n).toBitVec.getLsbD f.bit := by decide +kernel
  exact byte_forall (fun b => ConditionCodes.has ⟨b⟩ f = b.toBitVec.getLsbD f.bit) (key f f.mem_all)
    cc.bits

theorem has_assign (cc : ConditionCodes) (f g : Flag) (on : Bool) :
    (cc.assign f on).has g = if g = f then on else cc.has g := by
  have hbit : g.bit < 8 := by cases g <;> decide
  rw [has_eq_getLsbD, has_eq_getLsbD]
  cases on with
  | true =>
    simp only [assign, if_true, UInt8.toBitVec_or, BitVec.getLsbD_or, Flag.getLsbD_mask]
    by_cases h : g = f
    · simp [h]
    · simp [h]
  | false =>
    simp only [assign, Bool.false_eq_true, if_false, UInt8.toBitVec_and, UInt8.toBitVec_not,
      BitVec.getLsbD_and, BitVec.getLsbD_not, Flag.getLsbD_mask, hbit, decide_true, Bool.true_and]
    by_cases h : g = f
    · simp [h]
    · simp [h]

theorem ext_has {cc cc' : ConditionCodes} (h : ∀ f, cc.has f = cc'.has f) : cc = cc' := by
  obtain ⟨bits⟩ := cc
  obtain ⟨bits'⟩ := cc'
  congr 1
  apply UInt8.toBitVec_inj.1
  apply BitVec.eq_of_getLsbD_eq
  intro i hi
  obtain ⟨f, rfl⟩ := Flag.exists_bit hi
  have hf := h f
  rwa [has_eq_getLsbD, has_eq_getLsbD] at hf

/-! ## The flags of a result -/

theorem sign_byte (value : Byte) : (value &&& 0x80 != 0) = decide (128 ≤ value.toNat) :=
  byte_forall (fun b => (b &&& 0x80 != 0) = decide (128 ≤ b.toNat)) (by decide +kernel) value

theorem sign_word (value : Word) : (value &&& 0x8000 != 0) = decide (32768 ≤ value.toNat) := by
  have hmsb : value.toBitVec.getLsbD 15 = decide (32768 ≤ value.toNat) :=
    BitVec.msb_eq_decide value.toBitVec
  have hand : (value &&& 0x8000).toBitVec =
      if value.toBitVec.getLsbD 15 then BitVec.twoPow 16 15 else 0#16 := by
    rw [UInt16.toBitVec_and, ← BitVec.and_twoPow]
    rfl
  rw [← hmsb]
  cases hbit : value.toBitVec.getLsbD 15 with
  | true =>
    rw [hbit, if_pos rfl] at hand
    have hand : value &&& 0x8000 = 0x8000 := UInt16.toBitVec_inj.1 hand
    rw [hand]
    decide
  | false =>
    rw [hbit, if_neg (by decide)] at hand
    have hand : value &&& 0x8000 = 0 := UInt16.toBitVec_inj.1 hand
    rw [hand]
    decide

theorem zero_byte (value : Byte) : (value == 0) = decide (value.toNat = 0) := by
  rw [Bool.eq_iff_iff, beq_iff_eq, decide_eq_true_eq, ← UInt8.toNat_inj]
  rfl

theorem zero_word (value : Word) : (value == 0) = decide (value.toNat = 0) := by
  rw [Bool.eq_iff_iff, beq_iff_eq, decide_eq_true_eq, ← UInt16.toNat_inj]
  rfl

/-- An 8-bit result sets two flags and no other. -/
theorem has_ofByte (cc : ConditionCodes) (result : Byte) (f : Flag) :
    (cc.ofByte result).has f =
      if f = .negative then decide (128 ≤ result.toNat)
      else if f = .zero then decide (result.toNat = 0)
      else cc.has f := by
  rw [ofByte, has_assign, has_assign, sign_byte, zero_byte]

/-- A 16-bit result sets two flags and no other. -/
theorem has_ofWord (cc : ConditionCodes) (result : Word) (f : Flag) :
    (cc.ofWord result).has f =
      if f = .negative then decide (32768 ≤ result.toNat)
      else if f = .zero then decide (result.toNat = 0)
      else cc.has f := by
  rw [ofWord, has_assign, has_assign, sign_word, zero_word]

end ConditionCodes

end Mc6809
