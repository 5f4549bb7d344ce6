/-
Decimal integers as a user types them, within the range of the number that is
wanted. The text is read from the left and refused at the first character that
is no digit or that carries the value out of range, whichever comes first, so
a long run of digits is too large whatever follows it.
-/

namespace Mc6809

/-- Why a text is not an integer of the wanted range. -/
inductive IntegerError where
  | empty
  | invalidDigit
  | tooLarge
  | tooSmall
  deriving Repr, DecidableEq

namespace IntegerError

def message : IntegerError → String
  | empty => "cannot parse integer from empty string"
  | invalidDigit => "invalid digit found in string"
  | tooLarge => "number too large to fit in target type"
  | tooSmall => "number too small to fit in target type"

end IntegerError

structure IntegerRange where
  low : Int
  high : Int
  deriving Repr, DecidableEq

namespace IntegerRange

def signed32 : IntegerRange := ⟨-0x80000000, 0x7FFFFFFF⟩
def signed64 : IntegerRange := ⟨-0x8000000000000000, 0x7FFFFFFFFFFFFFFF⟩
def unsigned64 : IntegerRange := ⟨0, 0xFFFFFFFFFFFFFFFF⟩

/-- The value itself when it is in range, else the side on which it is not. -/
def check (range : IntegerRange) (value : Int) : Except IntegerError Int :=
  if range.high < value then .error .tooLarge
  else if value < range.low then .error .tooSmall
  else .ok value

/-- Reads on after digits worth `value`; `sign` is 1 or -1. -/
def readDigits (range : IntegerRange) (sign value : Int) : List Char → Except IntegerError Int
  | [] => .ok value
  | c :: rest =>
    if c.isDigit then do
      let value ← range.check (value * 10 + sign * (c.toNat - '0'.toNat : Nat))
      readDigits range sign value rest
    else .error .invalidDigit

/-- Reads a whole text. A minus is a sign only where the range has negative
numbers; elsewhere it is a character that is no digit. -/
def read (range : IntegerRange) (text : String) : Except IntegerError Int :=
  match text.toList with
  | [] => .error .empty
  | '+' :: c :: rest => range.readDigits 1 0 (c :: rest)
  | '-' :: c :: rest =>
    if range.low < 0 then range.readDigits (-1) 0 (c :: rest) else .error .invalidDigit
  | digits => range.readDigits 1 0 digits

theorem check_eq_ok_iff {range : IntegerRange} {value v : Int} :
    range.check value = .ok v ↔ v = value ∧ range.low ≤ value ∧ value ≤ range.high := by
  unfold check
  split
  · simp; omega
  · split
    · simp; omega
    · simp only [Except.ok.injEq]
      omega

end IntegerRange

end Mc6809
