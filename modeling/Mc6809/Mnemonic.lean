/-
The instruction subset, by name. `ofName?` reads exactly what `name` writes.
-/

namespace Mc6809

/-- The operations of the subset: loads, stores, sums and differences of the
register that ends the name, then the branches (always, if the zero flag is
set, if it is clear), the one that does nothing and the end of the program. -/
inductive Mnemonic where
  | lda | ldb | ldx
  | sta | stb | stx
  | adda | addb | suba | subb
  | inca | incb | deca | decb
  | bra | beq | bne
  | nop
  | stop
  deriving Repr, DecidableEq

namespace Mnemonic

def all : List Mnemonic :=
  [lda, ldb, ldx, sta, stb, stx, adda, addb, suba, subb, inca, incb, deca, decb,
    bra, beq, bne, nop, stop]

/-- The name in assembly source, in upper case. -/
def name : Mnemonic → String
  | lda => "LDA" | ldb => "LDB" | ldx => "LDX"
  | sta => "STA" | stb => "STB" | stx => "STX"
  | adda => "ADDA" | addb => "ADDB" | suba => "SUBA" | subb => "SUBB"
  | inca => "INCA" | incb => "INCB" | deca => "DECA" | decb => "DECB"
  | bra => "BRA" | beq => "BEQ" | bne => "BNE"
  | nop => "NOP" | stop => "END"

/-- The operation of a name, which must be in upper case. -/
def ofName? (text : String) : Option Mnemonic := all.find? (·.name == text)

/-- Whether the operation is written without an operand. -/
def isInherent : Mnemonic → Bool
  | nop | inca | incb | deca | decb => true
  | _ => false

/-- Whether the operand byte is a relative branch offset. -/
def isBranch : Mnemonic → Bool
  | bra | beq | bne => true
  | _ => false

theorem ofName?_name (m : Mnemonic) : ofName? m.name = some m := by cases m <;> rfl

theorem name_inj {m n : Mnemonic} (h : m.name = n.name) : m = n :=
  Option.some.inj (by rw [← ofName?_name m, ← ofName?_name n, h])

theorem ofName?_eq_some_iff {text : String} {m : Mnemonic} :
    ofName? text = some m ↔ m.name = text := by
  constructor
  · intro h
    simpa using List.find?_some h
  · rintro rfl
    exact ofName?_name m

end Mnemonic

end Mc6809
