/-
Which texts are number literals, and what they stand for, said by places: a
digit is worth its position among the digits, and counts once for each power
of the base that its place has. `readAll_eq_ok_iff` says that the reader takes
exactly the literals whose value fits 32 bits, whole texts only.
-/
import Mc6809.Literal

namespace Mc6809

namespace Literal

/-- The digits up to base sixteen, each at the position that it is worth. -/
def digitChars : List Char :=
  ['0', '1', '2', '3', '4', '5', '6', '7', '8', '9', 'A', 'B', 'C', 'D', 'E', 'F']

/-- A digit of a base, in either case. -/
def IsDigit (base : Nat) (c : Char) : Prop := c.toUpper ∈ digitChars.take base

/-- What a digit is worth. -/
def worth (c : Char) : Nat := digitChars.idxOf c.toUpper

/-- What digits are worth together, each counted by its place. -/
def placeValue (base : Nat) : List Char → Nat
  | [] => 0
  | c :: rest => worth c * Nat.pow base rest.length + placeValue base rest

/-- One or more digits of a base. -/
def IsNumeral (base : Nat) (digits : List Char) : Prop :=
  digits ≠ [] ∧ ∀ c ∈ digits, IsDigit base c

/-- A sign that may stand before decimal digits, and what it multiplies by. -/
inductive Sign : List Char → Int → Prop
  | none : Sign [] 1
  | plus : Sign ['+'] 1
  | minus : Sign ['-'] (-1)

/-- A number literal of any length, and the number it stands for. -/
inductive Denotes : List Char → Int → Prop
  | hexadecimal {digits} (h : IsNumeral 16 digits) : Denotes ('$' :: digits) (placeValue 16 digits)
  | decimal {sign factor digits} (hs : Sign sign factor) (h : IsNumeral 10 digits) :
      Denotes (sign ++ digits) (factor * placeValue 10 digits)

/-- A number that a signed 32-bit integer can hold. -/
def Fits32 (v : Int) : Prop := -2147483648 ≤ v ∧ v ≤ 2147483647

/-! ## Digits -/

instance (base : Nat) (c : Char) : Decidable (IsDigit base c) :=
  inferInstanceAs (Decidable (c.toUpper ∈ digitChars.take base))

theorem ascii_of_toUpper {c : Char} (h : c.toUpper.toNat < 128) : c.toNat < 128 := by
  unfold Char.toUpper at h
  split at h
  next hc =>
    have hle := UInt32.le_iff_toNat_le.1 hc.2
    change c.val.toNat < 128
    exact Nat.lt_of_le_of_lt hle (by decide)
  next => exact h

theorem IsDigit.ascii {base : Nat} {c : Char} (h : IsDigit base c) : c.toNat < 128 := by
  have hall : ∀ d ∈ digitChars, d.toNat < 128 := by simp [digitChars]
  exact ascii_of_toUpper (hall _ (List.mem_of_mem_take h))

theorem isHexDigit_ascii {c : Char} (h : isHexDigit c = true) : c.toNat < 128 := by
  simp only [isHexDigit, Char.isDigit, Bool.or_eq_true, Bool.and_eq_true, decide_eq_true_eq] at h
  have hle : ∀ {d : Char}, c.val ≤ d.val → d.toNat < 128 → c.toNat < 128 := fun hcd hd =>
    Nat.lt_of_le_of_lt (UInt32.le_iff_toNat_le.1 hcd) hd
  rcases h with (⟨-, h⟩ | ⟨-, h⟩) | ⟨-, h⟩
  · exact hle (d := '9') h (by decide)
  · exact hle (d := 'f') h (by decide)
  · exact hle (d := 'F') h (by decide)

/-- What holds of the first 128 characters holds of an ASCII character. -/
theorem of_ascii (P : Char → Prop) (h : ∀ n : Fin 128, P (Char.ofNat n)) {c : Char}
    (hc : c.toNat < 128) : P c := by
  have := h ⟨c.toNat, hc⟩
  rwa [Char.ofNat_toNat] at this

theorem isHexDigit_iff {c : Char} : isHexDigit c = true ↔ IsDigit 16 c := by
  have key := of_ascii (fun c => isHexDigit c = true ↔ IsDigit 16 c) (by decide) (c := c)
  exact ⟨fun h => (key (isHexDigit_ascii h)).1 h, fun h => (key h.ascii).2 h⟩

theorem isDigit_iff {c : Char} : c.isDigit = true ↔ IsDigit 10 c := by
  have key := of_ascii (fun c => c.isDigit = true ↔ IsDigit 10 c) (by decide) (c := c)
  have hhex : c.isDigit = true → isHexDigit c = true := fun h => by simp [isHexDigit, h]
  exact ⟨fun h => (key (isHexDigit_ascii (hhex h))).1 h, fun h => (key h.ascii).2 h⟩

theorem digitValue_eq {c : Char} (h : IsDigit 16 c) : digitValue c = worth c :=
  of_ascii (fun c => IsDigit 16 c → digitValue c = worth c) (by decide) h.ascii h

theorem IsDigit.mono {c : Char} (h : IsDigit 10 c) : IsDigit 16 c :=
  List.mem_of_mem_take (i := 10) (by simpa [IsDigit, List.take_take] using h)

/-- Reading digits from the left gives each of them the value of its place. -/
theorem digitsValue_eq {base : Nat} {digits : List Char} (h : ∀ c ∈ digits, IsDigit 16 c) :
    digitsValue base digits = placeValue base digits := by
  have key : ∀ start, digits.foldl (fun value c => value * base + digitValue c) start =
      start * Nat.pow base digits.length + placeValue base digits := by
    induction digits with
    | nil => exact fun start => (Nat.mul_one start).symm
    | cons c digits ih =>
      intro start
      have hpow : Nat.pow base (c :: digits).length = Nat.pow base digits.length * base := rfl
      rw [List.foldl_cons, ih (fun d hd => h d (by simp [hd])), digitValue_eq (h c (by simp))]
      rw [hpow, placeValue, Nat.add_mul, Nat.mul_assoc, Nat.mul_comm base, Nat.add_assoc]
  simpa [digitsValue] using key 0

/-! ## The readers -/

theorem check_signed32 {value v : Int} :
    IntegerRange.signed32.check value = .ok v ↔ v = value ∧ Fits32 value :=
  IntegerRange.check_eq_ok_iff

/-- Digits are read as a whole when there are some, all of them are digits and
their value fits. -/
theorem readDigits_eq_ok_iff {base : Nat} {isDigit : Char → Bool} {factor : Int}
    {text : List Char} {v : Int} :
    readDigits base isDigit factor text = .ok (v, []) ↔
      text ≠ [] ∧ (∀ c ∈ text, isDigit c = true) ∧
        v = factor * digitsValue base text ∧ Fits32 (factor * digitsValue base text) := by
  have happ := List.takeWhile_append_dropWhile (p := isDigit) (l := text)
  have hall : ∀ c ∈ text.takeWhile isDigit, isDigit c = true := fun c hc =>
    List.all_eq_true.1 List.all_takeWhile c hc
  unfold readDigits
  constructor
  · intro h
    split at h
    · cases h
    next digits hdigits =>
      split at h
      next value hcheck =>
        simp only [Except.ok.injEq, Prod.mk.injEq] at h
        obtain ⟨rfl, hrest⟩ := h
        rw [hrest, List.append_nil] at happ
        obtain ⟨hv, hfits⟩ := check_signed32.1 hcheck
        rw [happ] at hall hv hfits
        exact ⟨fun hnil => hdigits (by rw [hnil]; rfl), hall, hv, hfits⟩
      · cases h
  · intro h
    obtain ⟨hne, hdigits, rfl, hfits⟩ := h
    have htake : text.takeWhile isDigit = text := by
      simpa using @List.takeWhile_append_of_pos _ _ _ [] hdigits
    have hdrop : text.dropWhile isDigit = [] := by
      simpa using @List.dropWhile_append_of_pos _ _ _ [] hdigits
    rw [htake, hdrop]
    split
    · exact absurd rfl hne
    · rw [check_signed32.2 ⟨rfl, hfits⟩]

theorem readHexadecimal_eq_ok_iff {digits : List Char} {v : Int} :
    readHexadecimal digits = .ok (v, []) ↔
      IsNumeral 16 digits ∧ v = placeValue 16 digits ∧ Fits32 v := by
  rw [readHexadecimal, readDigits_eq_ok_iff, Int.one_mul]
  constructor
  · intro h
    obtain ⟨hne, hall, rfl, hfits⟩ := h
    have hall : ∀ c ∈ digits, IsDigit 16 c := fun c hc => isHexDigit_iff.1 (hall c hc)
    exact ⟨⟨hne, hall⟩, by rw [digitsValue_eq hall], hfits⟩
  · intro h
    obtain ⟨⟨hne, hall⟩, rfl, hfits⟩ := h
    rw [digitsValue_eq hall]
    exact ⟨hne, fun c hc => isHexDigit_iff.2 (hall c hc), rfl, hfits⟩

theorem readDecimalDigits_eq_ok_iff {factor : Int} {digits : List Char} {v : Int} :
    readDigits 10 Char.isDigit factor digits = .ok (v, []) ↔
      IsNumeral 10 digits ∧ v = factor * placeValue 10 digits ∧ Fits32 v := by
  rw [readDigits_eq_ok_iff]
  constructor
  · intro h
    obtain ⟨hne, hall, rfl, hfits⟩ := h
    have hall : ∀ c ∈ digits, IsDigit 10 c := fun c hc => isDigit_iff.1 (hall c hc)
    exact ⟨⟨hne, hall⟩, by rw [digitsValue_eq fun c hc => (hall c hc).mono], hfits⟩
  · intro h
    obtain ⟨⟨hne, hall⟩, rfl, hfits⟩ := h
    rw [digitsValue_eq fun c hc => (hall c hc).mono]
    exact ⟨hne, fun c hc => isDigit_iff.2 (hall c hc), rfl, hfits⟩

theorem readDecimal_of_ne {c : Char} {text : List Char} (hplus : c ≠ '+') (hminus : c ≠ '-') :
    readDecimal (c :: text) = readDigits 10 Char.isDigit 1 (c :: text) := by
  unfold readDecimal
  split
  next h => exact absurd (List.cons.inj h).1 hplus
  next h => exact absurd (List.cons.inj h).1 hminus
  next => rfl

theorem read_of_ne {c : Char} {text : List Char} (h : c ≠ '$') :
    read (c :: text) = readDecimal (c :: text) := by
  unfold read
  split
  next heq => exact absurd (List.cons.inj heq).1 h
  next => rfl

/-- Digits start with none of the characters that open another literal. -/
theorem IsNumeral.read_append {digits : List Char} (h : IsNumeral 10 digits) (rest : List Char) :
    read (digits ++ rest) = readDigits 10 Char.isDigit 1 (digits ++ rest) := by
  obtain ⟨hne, hall⟩ := h
  cases digits with
  | nil => exact absurd rfl hne
  | cons c digits =>
    have hc : IsDigit 10 c := hall c List.mem_cons_self
    have hplain : ∀ d, ¬ IsDigit 10 d → c ≠ d := fun d hd heq => hd (heq ▸ hc)
    rw [List.cons_append, read_of_ne (hplain '$' (by decide)),
      readDecimal_of_ne (hplain '+' (by decide)) (hplain '-' (by decide))]

theorem read_of_denotes {text : List Char} {v : Int} (h : Denotes text v) (hfits : Fits32 v) :
    read text = .ok (v, []) := by
  cases h with
  | hexadecimal h =>
    have hread := readHexadecimal_eq_ok_iff.2 ⟨h, rfl, hfits⟩
    simp only [read, hread]
  | decimal hs h =>
    have hread := readDecimalDigits_eq_ok_iff.2 ⟨h, rfl, hfits⟩
    cases hs with
    | none =>
      have hplain := h.read_append []
      rw [List.append_nil] at hplain
      rw [List.nil_append, hplain, hread]
    | plus => exact hread
    | minus => exact hread

theorem denotes_of_readDecimal {text : List Char} {v : Int} (h : readDecimal text = .ok (v, [])) :
    Denotes text v ∧ Fits32 v := by
  unfold readDecimal at h
  split at h
  · obtain ⟨hn, rfl, hfits⟩ := readDecimalDigits_eq_ok_iff.1 h
    exact ⟨.decimal .plus hn, hfits⟩
  · obtain ⟨hn, rfl, hfits⟩ := readDecimalDigits_eq_ok_iff.1 h
    exact ⟨.decimal .minus hn, hfits⟩
  · obtain ⟨hn, rfl, hfits⟩ := readDecimalDigits_eq_ok_iff.1 h
    exact ⟨.decimal .none hn, hfits⟩

theorem denotes_of_read {text : List Char} {v : Int} (h : read text = .ok (v, [])) :
    Denotes text v ∧ Fits32 v := by
  unfold read at h
  split at h
  · split at h
    · cases h
    · obtain ⟨hn, rfl, hfits⟩ := readHexadecimal_eq_ok_iff.1 h
      exact ⟨.hexadecimal hn, hfits⟩
  · exact denotes_of_readDecimal h

/-- A whole text is read exactly when it is a literal whose value fits, and
then it is read as that value. -/
theorem readAll_eq_ok_iff {text : List Char} {v : Int} :
    readAll text = .ok v ↔ Denotes text v ∧ Fits32 v := by
  constructor
  · intro h
    unfold readAll at h
    split at h
    next value hread =>
      cases h
      exact denotes_of_read hread
    · cases h
    · cases h
  · intro h
    obtain ⟨hd, hfits⟩ := h
    rw [readAll, read_of_denotes hd hfits]

end Literal

end Mc6809
