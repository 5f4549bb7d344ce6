/-
Bytes, words and addresses. A word is kept big-endian in memory, so it splits
into a high byte, stored first, and a low byte. Addresses are words, and all
arithmetic on them wraps at 2^16.
-/

namespace Mc6809

/-- What one memory cell or one 8-bit register holds. -/
abbrev Byte := UInt8

/-- What a 16-bit register holds. -/
abbrev Word := UInt16

/-- A place in the 64 KiB address space. -/
abbrev Address := UInt16

namespace Word

def high (w : Word) : Byte := (w / 256).toUInt8

def low (w : Word) : Byte := w.toUInt8

/-- The word stored as `high` followed by `low`. -/
def ofBytes (high low : Byte) : Word := high.toUInt16 * 256 + low.toUInt16

/-- An 8-bit offset as a 16-bit one: bit 7 is copied into the high byte. -/
def signExtend (offset : Byte) : Word :=
  if offset < 0x80 then offset.toUInt16 else offset.toUInt16 + 0xFF00

theorem toNat_high (w : Word) : (high w).toNat = w.toNat / 256 := by
  have h := w.toNat_lt
  simp [high]
  omega

theorem toNat_low (w : Word) : (low w).toNat = w.toNat % 256 := by
  simp [low]

theorem toNat_ofBytes (high low : Byte) :
    (ofBytes high low).toNat = 256 * high.toNat + low.toNat := by
  have h := high.toNat_lt
  have l := low.toNat_lt
  simp [ofBytes]
  omega

@[simp] theorem ofBytes_high_low (w : Word) : ofBytes (high w) (low w) = w := by
  apply UInt16.toNat_inj.1
  rw [toNat_ofBytes, toNat_high, toNat_low]
  omega

@[simp] theorem high_ofBytes (h l : Byte) : high (ofBytes h l) = h := by
  apply UInt8.toNat_inj.1
  have := l.toNat_lt
  rw [toNat_high, toNat_ofBytes]
  omega

@[simp] theorem low_ofBytes (h l : Byte) : low (ofBytes h l) = l := by
  apply UInt8.toNat_inj.1
  have := l.toNat_lt
  rw [toNat_low, toNat_ofBytes]
  omega

/-- A word that fits a byte is its low byte. -/
theorem toUInt16_low {w : Word} (h : w.toNat < 256) : (low w).toUInt16 = w := by
  apply UInt16.toNat_inj.1
  rw [UInt8.toNat_toUInt16, toNat_low, Nat.mod_eq_of_lt h]

end Word

/-- Where a relative branch goes: the offset counts from the address that
follows the branch. -/
def branchTarget (next : Address) (offset : Byte) : Address := next + Word.signExtend offset

end Mc6809
