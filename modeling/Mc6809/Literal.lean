/-
Number literals of the assembly language: `$` and hexadecimal digits, or
decimal digits with an optional sign. A literal stands for a signed 32-bit
value; leading zeros are free.

`Literal.read` takes the literal a text starts with, `Literal.readAll` wants
the whole text to be one.
-/
import Mc6809.Text.Integer

namespace Mc6809

namespace Literal

/-- Why no literal was read. -/
inductive Failure where
  /-- Digits were wanted where `found` stands. -/
  | noDigits (found : List Char)
  /-- The digits are there, but their value does not fit 32 bits. -/
  | outOfRange (cause : IntegerError)
  deriving Repr, DecidableEq

def isHexDigit (c : Char) : Bool :=
  c.isDigit || ('a' ≤ c && c ≤ 'f') || ('A' ≤ c && c ≤ 'F')

/-- What a hexadecimal digit is worth, in either case. -/
def digitValue (c : Char) : Nat :=
  if c.isDigit then c.toNat - '0'.toNat
  else if 'a' ≤ c then c.toNat - 'a'.toNat + 10
  else c.toNat - 'A'.toNat + 10

/-- What a run of digits is worth. -/
def digitsValue (base : Nat) (digits : List Char) : Nat :=
  digits.foldl (fun value c => value * base + digitValue c) 0

/-- The value of the digits a text starts with, and what follows them. -/
def readDigits (base : Nat) (isDigit : Char → Bool) (sign : Int) (text : List Char) :
    Except Failure (Int × List Char) :=
  match text.takeWhile isDigit with
  | [] => .error (.noDigits text)
  | digits =>
    match IntegerRange.signed32.check (sign * digitsValue base digits) with
    | .ok value => .ok (value, text.dropWhile isDigit)
    | .error cause => .error (.outOfRange cause)

def readHexadecimal (digits : List Char) : Except Failure (Int × List Char) :=
  readDigits 16 isHexDigit 1 digits

def readDecimal : List Char → Except Failure (Int × List Char)
  | '+' :: digits => readDigits 10 Char.isDigit 1 digits
  | '-' :: digits => readDigits 10 Char.isDigit (-1) digits
  | digits => readDigits 10 Char.isDigit 1 digits

/-- The literal that a text starts with, and the text after it. After a `$`
without digits, it is the `$` that is found out of place. -/
def read : List Char → Except Failure (Int × List Char)
  | '$' :: digits =>
    match readHexadecimal digits with
    | .error (.noDigits _) => .error (.noDigits ('$' :: digits))
    | outcome => outcome
  | text => readDecimal text

/-- The value of a text that is one literal and nothing else. -/
def readAll (text : List Char) : Except Failure Int :=
  match read text with
  | .ok (value, []) => .ok value
  | .ok (_, rest) => .error (.noDigits rest)
  | .error failure => .error failure

end Literal

end Mc6809
