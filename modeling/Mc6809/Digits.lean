/-
Numbers written with a fixed number of digits, as registers, addresses and
bytes are shown: two or four hexadecimal digits in upper case, or eight binary
ones. `fixed_inj` says that the text of a number that fits determines it.
-/
import Mc6809.Word

namespace Mc6809

namespace Digits

/-- The character of one digit, upper case past nine. -/
def digit (n : Nat) : Char := (Nat.digitChar n).toUpper

/-- The last `width` digits of `n`, most significant first. -/
def fixed (base : Nat) : (width n : Nat) → List Char
  | 0, _ => []
  | width + 1, n => fixed base width (n / base) ++ [digit (n % base)]

theorem length_fixed (base : Nat) : ∀ width n, (fixed base width n).length = width
  | 0, _ => rfl
  | width + 1, n => by simp [fixed, length_fixed base width]

theorem digit_inj {m n : Nat} (hm : m < 16) (hn : n < 16) (h : digit m = digit n) : m = n := by
  have key : ∀ a : Fin 16, ∀ b : Fin 16, digit a = digit b → a = b := by decide
  simpa using key ⟨m, hm⟩ ⟨n, hn⟩ h

/-- How many numbers `width` digits can tell apart. -/
def capacity (base : Nat) : (width : Nat) → Nat
  | 0 => 1
  | width + 1 => base * capacity base width

/-- A number that fits its width can be told from its digits. -/
theorem fixed_inj {base : Nat} (hpos : 0 < base) (hbase : base ≤ 16) :
    ∀ {width m n : Nat}, m < capacity base width → n < capacity base width →
      fixed base width m = fixed base width n → m = n
  | 0, m, n, hm, hn, _ => by
    simp only [capacity] at hm hn
    omega
  | width + 1, m, n, hm, hn, h => by
    obtain ⟨hq, hr⟩ := List.append_inj' h rfl
    have hq := fixed_inj hpos hbase (Nat.div_lt_of_lt_mul hm) (Nat.div_lt_of_lt_mul hn) hq
    have hr : m % base = n % base := digit_inj
      (Nat.lt_of_lt_of_le (Nat.mod_lt _ hpos) hbase) (Nat.lt_of_lt_of_le (Nat.mod_lt _ hpos) hbase)
      (by simpa using hr)
    rw [← Nat.div_add_mod m base, ← Nat.div_add_mod n base, hq, hr]

end Digits

/-- A byte as two hexadecimal digits. -/
def Byte.hex (b : Byte) : String := String.ofList (Digits.fixed 16 2 b.toNat)

/-- A byte as eight binary digits. -/
def Byte.binary (b : Byte) : String := String.ofList (Digits.fixed 2 8 b.toNat)

/-- A word as four hexadecimal digits. -/
def Word.hex (w : Word) : String := String.ofList (Digits.fixed 16 4 w.toNat)

/-- A word as hexadecimal digits, no more than it needs but at least two. -/
def Word.shortHex (w : Word) : String :=
  String.ofList (Digits.fixed 16 (if w < 0x100 then 2 else if w < 0x1000 then 3 else 4) w.toNat)

/-- A run of bytes, two hexadecimal digits each, with nothing in between. -/
def Byte.hexRun (bytes : List Byte) : String := String.join (bytes.map Byte.hex)

end Mc6809
