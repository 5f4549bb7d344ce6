/-
Printed digits as literals. A number printed with enough hexadecimal digits,
whatever their number, is what these digits stand for (`denotes_fixed`).
-/
import Mc6809.Digits
import Mc6809.Proofs.Literal.Numeral

namespace Mc6809

namespace Literal

theorem digit_mem_digitChars {k : Nat} (h : k < 16) : Digits.digit k ∈ digitChars := by
  have key : ∀ k : Fin 16, Digits.digit k ∈ digitChars := by decide
  exact key ⟨k, h⟩

theorem isDigit_digit {k : Nat} (h : k < 16) : IsDigit 16 (Digits.digit k) := by
  have key : ∀ k : Fin 16, IsDigit 16 (Digits.digit k) := by decide
  exact key ⟨k, h⟩

theorem worth_digit {k : Nat} (h : k < 16) : worth (Digits.digit k) = k := by
  have key : ∀ k : Fin 16, worth (Digits.digit k) = k := by decide
  exact key ⟨k, h⟩

/-- A digit more shifts the others up one place. -/
theorem placeValue_append_singleton (base : Nat) (digits : List Char) (c : Char) :
    placeValue base (digits ++ [c]) = placeValue base digits * base + worth c := by
  induction digits with
  | nil => simp [placeValue]
  | cons d digits ih =>
    have hpow : Nat.pow base (digits ++ [c]).length = Nat.pow base digits.length * base := by
      rw [List.length_append]
      rfl
    rw [List.cons_append, placeValue, ih, hpow, placeValue, Nat.add_mul, Nat.mul_assoc, Nat.add_assoc]

theorem placeValue_fixed {width n : Nat} (h : n < Digits.capacity 16 width) :
    placeValue 16 (Digits.fixed 16 width n) = n := by
  induction width generalizing n with
  | zero =>
    rw [Digits.capacity] at h
    rw [Digits.fixed, placeValue]
    omega
  | succ width ih =>
    rw [Digits.fixed, placeValue_append_singleton, ih (Nat.div_lt_of_lt_mul h),
      worth_digit (Nat.mod_lt n (by decide)), Nat.div_add_mod']

theorem exists_digit_of_mem_fixed {width n : Nat} {c : Char} (h : c ∈ Digits.fixed 16 width n) :
    ∃ k < 16, Digits.digit k = c := by
  induction width generalizing n with
  | zero => cases h
  | succ width ih =>
    rcases List.mem_append.1 h with h | h
    · exact ih h
    · exact ⟨n % 16, Nat.mod_lt n (by decide), (List.mem_singleton.1 h).symm⟩

theorem isDigit_of_mem_fixed {width n : Nat} : ∀ c ∈ Digits.fixed 16 width n, IsDigit 16 c := by
  intro c hc
  obtain ⟨k, hk, rfl⟩ := exists_digit_of_mem_fixed hc
  exact isDigit_digit hk

/-- Printed digits are in upper case. -/
theorem mem_digitChars_of_mem_fixed {width n : Nat} : ∀ c ∈ Digits.fixed 16 width n, c ∈ digitChars := by
  intro c hc
  obtain ⟨k, hk, rfl⟩ := exists_digit_of_mem_fixed hc
  exact digit_mem_digitChars hk

theorem isNumeral_fixed {width n : Nat} (hpos : 0 < width) : IsNumeral 16 (Digits.fixed 16 width n) := by
  refine ⟨fun hnil => ?_, isDigit_of_mem_fixed⟩
  have hlength := Digits.length_fixed 16 width n
  rw [hnil, List.length_nil] at hlength
  omega

/-- A number that fits its digits is what they stand for. -/
theorem denotes_fixed {width n : Nat} (hpos : 0 < width) (h : n < Digits.capacity 16 width) :
    Denotes ('$' :: Digits.fixed 16 width n) n := by
  have hdenotes := Denotes.hexadecimal (isNumeral_fixed (n := n) hpos)
  rwa [placeValue_fixed h] at hdenotes

end Literal

end Mc6809
