/-
What becomes of a text that is meant as a number. Both readers of such texts
take the same ones: the assembler a literal that is the whole of an operand
and fits 32 bits, the debugger such a literal between blanks that is an
address (`taken_exactly`).

An operand is read from the left, and a value that does not fit is found out
before the rest of the word is looked at. So a word is refused as out of range
when the literal at its start is (`refused_exactly`), whatever stands after
it, even where the word as a whole is no literal (`strayAfterDigits_misnamed`).
-/
import Mc6809.Debugger.Address
import Mc6809.Proofs.Assembler.LineGrammar
import Mc6809.Proofs.Literal.Hexadecimal

namespace Mc6809

namespace Literal

/-- The value lies past that end of the 32-bit range which the error tells of. -/
def Beyond : IntegerError → Int → Prop
  | .tooLarge, v => 2147483647 < v
  | .tooSmall, v => v < -2147483648
  | .empty, _ | .invalidDigit, _ => False

/-- A literal stands at the start of the text whose value lies past an end of
the range. -/
def OpensBeyond (cause : IntegerError) (text : List Char) : Prop :=
  ∃ literal rest v, text = literal ++ rest ∧ Denotes literal v ∧ Beyond cause v

/-- The whole text is a literal, in range or not. -/
def WellFormed (text : List Char) : Prop := ∃ v, Denotes text v

theorem exists_beyond_iff {v : Int} : (∃ cause, Beyond cause v) ↔ ¬ Fits32 v := by
  constructor
  · intro h hfits
    obtain ⟨cause, hbeyond⟩ := h
    cases cause with
    | tooLarge => exact Int.not_lt.2 hfits.2 hbeyond
    | tooSmall => exact Int.not_lt.2 hfits.1 hbeyond
    | empty => exact hbeyond
    | invalidDigit => exact hbeyond
  · intro h
    by_cases hlow : v < -2147483648
    · exact ⟨.tooSmall, hlow⟩
    · have hhigh : 2147483647 < v := by
        unfold Fits32 at h
        omega
      exact ⟨.tooLarge, hhigh⟩

theorem check_signed32_eq_error_iff {value : Int} {cause : IntegerError} :
    IntegerRange.signed32.check value = .error cause ↔ Beyond cause value := by
  have hhigh : IntegerRange.signed32.high = 2147483647 := rfl
  have hlow : IntegerRange.signed32.low = -2147483648 := rfl
  rw [IntegerRange.check, hhigh, hlow]
  split
  next h => cases cause <;> simp [Beyond] <;> omega
  next h =>
    split
    next h' => cases cause <;> simp [Beyond] <;> omega
    next h' => cases cause <;> simp [Beyond] <;> omega

/-! ## What is refused as out of range -/

/-- Digits that follow others make their value no smaller. -/
theorem le_digitsValue_append {base : Nat} (hbase : 0 < base) (digits more : List Char) :
    digitsValue base digits ≤ digitsValue base (digits ++ more) := by
  rw [digitsValue, digitsValue, List.foldl_append]
  generalize digits.foldl (fun value c => value * base + digitValue c) 0 = start
  induction more generalizing start with
  | nil => exact Nat.le_refl start
  | cons c more ih =>
    calc start ≤ start * base := Nat.le_mul_of_pos_right start hbase
      _ ≤ start * base + digitValue c := Nat.le_add_right _ _
      _ ≤ (c :: more).foldl (fun value c => value * base + digitValue c) start := ih _

/-- A sign and what it multiplies by leave a larger value out of range at the
same end. -/
theorem Sign.beyond_mono {sign : List Char} {factor : Int} (hs : Sign sign factor)
    {cause : IntegerError} {m n : Nat} (hmn : m ≤ n) (h : Beyond cause (factor * m)) :
    Beyond cause (factor * n) := by
  cases hs <;> cases cause <;> simp only [Beyond] at h ⊢ <;> omega

/-- Digits are out of range when those at the start are: the reader goes on past
them, and what it finds is only larger. -/
theorem readDigits_eq_outOfRange_iff {base : Nat} {isDigit : Char → Bool} {sign text : List Char}
    {factor : Int} {cause : IntegerError} (hbase : 0 < base)
    (hdigit : ∀ c, isDigit c = true ↔ IsDigit base c) (hwide : ∀ c, IsDigit base c → IsDigit 16 c)
    (hs : Sign sign factor) :
    readDigits base isDigit factor text = .error (.outOfRange cause) ↔
      ∃ digits rest, text = digits ++ rest ∧ IsNumeral base digits ∧
        Beyond cause (factor * placeValue base digits) := by
  unfold readDigits
  constructor
  · intro h
    split at h
    · cases h
    next digits hne =>
      split at h
      · cases h
      next hcheck =>
        cases h
        have hall : ∀ c ∈ text.takeWhile isDigit, IsDigit base c := fun c hc =>
          (hdigit c).1 (List.all_eq_true.1 List.all_takeWhile c hc)
        have hbeyond := check_signed32_eq_error_iff.1 hcheck
        rw [digitsValue_eq fun c hc => hwide c (hall c hc)] at hbeyond
        exact ⟨text.takeWhile isDigit, text.dropWhile isDigit,
          List.takeWhile_append_dropWhile.symm, ⟨hne, hall⟩, hbeyond⟩
  · intro h
    obtain ⟨digits, rest, rfl, ⟨hne, hall⟩, hbeyond⟩ := h
    rw [← digitsValue_eq fun c hc => hwide c (hall c hc)] at hbeyond
    have htake : (digits ++ rest).takeWhile isDigit = digits ++ rest.takeWhile isDigit :=
      List.takeWhile_append_of_pos fun c hc => (hdigit c).2 (hall c hc)
    have hbeyond : Beyond cause (factor * digitsValue base (digits ++ rest.takeWhile isDigit)) :=
      hs.beyond_mono (le_digitsValue_append hbase _ _) hbeyond
    rw [htake]
    split
    next hnil => exact absurd (List.append_eq_nil_iff.1 hnil).1 hne
    next => rw [check_signed32_eq_error_iff.2 hbeyond]

theorem readHexadecimal_eq_outOfRange_iff {text : List Char} {cause : IntegerError} :
    readHexadecimal text = .error (.outOfRange cause) ↔
      ∃ digits rest, text = digits ++ rest ∧ IsNumeral 16 digits ∧
        Beyond cause (placeValue 16 digits) := by
  rw [readHexadecimal,
    readDigits_eq_outOfRange_iff (by decide) (fun _ => isHexDigit_iff) (fun _ h => h) Sign.none]
  simp only [Int.one_mul]

theorem readDecimalDigits_eq_outOfRange_iff {sign text : List Char} {factor : Int}
    {cause : IntegerError} (hs : Sign sign factor) :
    readDigits 10 Char.isDigit factor text = .error (.outOfRange cause) ↔
      ∃ digits rest, text = digits ++ rest ∧ IsNumeral 10 digits ∧
        Beyond cause (factor * placeValue 10 digits) :=
  readDigits_eq_outOfRange_iff (by decide) (fun _ => isDigit_iff) (fun _ => IsDigit.mono) hs

/-- A sign before digits that are out of range. -/
theorem opensBeyond_decimal {sign text : List Char} {factor : Int} {cause : IntegerError}
    (hs : Sign sign factor)
    (h : readDigits 10 Char.isDigit factor text = .error (.outOfRange cause)) :
    OpensBeyond cause (sign ++ text) := by
  obtain ⟨digits, rest, rfl, hn, hbeyond⟩ := (readDecimalDigits_eq_outOfRange_iff hs).1 h
  exact ⟨sign ++ digits, rest, _, (List.append_assoc _ _ _).symm, .decimal hs hn, hbeyond⟩

theorem read_dollar_eq_outOfRange_iff {text : List Char} {cause : IntegerError} :
    read ('$' :: text) = .error (.outOfRange cause) ↔
      readHexadecimal text = .error (.outOfRange cause) := by
  rw [read]
  cases readHexadecimal text with
  | ok outcome => simp
  | error failure => cases failure <;> simp

/-- What is read runs out of the range when the literal at the start does. -/
theorem read_eq_outOfRange_iff {text : List Char} {cause : IntegerError} :
    read text = .error (.outOfRange cause) ↔ OpensBeyond cause text := by
  constructor
  · intro h
    cases text with
    | nil => cases h
    | cons c text =>
      by_cases hdollar : c = '$'
      · subst hdollar
        obtain ⟨digits, rest, rfl, hn, hbeyond⟩ :=
          readHexadecimal_eq_outOfRange_iff.1 (read_dollar_eq_outOfRange_iff.1 h)
        exact ⟨'$' :: digits, rest, _, rfl, .hexadecimal hn, hbeyond⟩
      · rw [read_of_ne hdollar] at h
        unfold readDecimal at h
        split at h
        next digits heq => exact heq ▸ opensBeyond_decimal .plus h
        next digits heq => exact heq ▸ opensBeyond_decimal .minus h
        next => exact opensBeyond_decimal .none h
  · intro h
    obtain ⟨literal, rest, v, rfl, hd, hbeyond⟩ := h
    cases hd with
    | hexadecimal hn =>
      exact read_dollar_eq_outOfRange_iff.2
        (readHexadecimal_eq_outOfRange_iff.2 ⟨_, rest, rfl, hn, hbeyond⟩)
    | @decimal sign factor digits hs hn =>
      have hread : readDigits 10 Char.isDigit factor (digits ++ rest) = .error (.outOfRange cause) :=
        (readDecimalDigits_eq_outOfRange_iff hs).2 ⟨digits, rest, rfl, hn, hbeyond⟩
      cases hs with
      | none =>
        rw [List.nil_append, hn.read_append]
        exact hread
      | plus => exact hread
      | minus => exact hread

theorem readAll_eq_outOfRange_iff {text : List Char} {cause : IntegerError} :
    readAll text = .error (.outOfRange cause) ↔ OpensBeyond cause text := by
  rw [← read_eq_outOfRange_iff, readAll]
  split
  next h => simp [h]
  next h => simp [h]
  next h => simp [h]

/-! ## The two readers -/

theorem readAddress_eq_ok_iff {text : String} {a : Address} :
    readAddress text = .ok a ↔ ∃ core, Text.Trims text.toList core ∧ Denotes core a.toNat := by
  have hlt := a.toNat_lt
  unfold readAddress
  constructor
  · intro h
    split at h
    next value hread =>
      split at h
      next hrange =>
        cases h
        have hvalue := Line.toNat_word_ofInt value
        rw [Int.emod_eq_of_lt hrange.1 hrange.2] at hvalue
        refine ⟨Text.trim text.toList, Text.trims_trim _, ?_⟩
        rw [hvalue]
        exact (readAll_eq_ok_iff.1 hread).1
      · cases h
    · cases h
  · intro h
    obtain ⟨core, htrims, hd⟩ := h
    have hread : readAll (Text.trim text.toList) = .ok (a.toNat : Int) := by
      rw [htrims.trim_eq]
      exact readAll_eq_ok_iff.2 ⟨hd, by unfold Fits32; omega⟩
    have ha : UInt16.ofInt (a.toNat : Int) = a := Line.eq_word_ofInt (by omega)
    rw [hread]
    simp only [ha]
    exact if_pos (by omega)

/-- **Number literals are taken exactly.** An operand is taken when it is a
literal, nothing before or after it, whose value fits 32 bits; an address,
when it is one without the blanks around it and has a value of 16 bits. -/
theorem taken_exactly (text : String) :
    (∀ v, Line.readLiteral text.toList = .ok v ↔ Denotes text.toList v ∧ Fits32 v) ∧
      ∀ a, readAddress text = .ok a ↔
        ∃ core, Text.Trims text.toList core ∧ Denotes core a.toNat :=
  ⟨fun _ => Line.readLiteral_eq_ok_iff, fun _ => readAddress_eq_ok_iff⟩

example : Line.readLiteral "-002147483648".toList = .ok (-2147483648) := rfl

/-- Why a word was refused as an operand. -/
structure Refused (word : List Char) (e : LineError) : Prop where
  outOfRange : ∀ cause, e = .literalOutOfRange (String.ofList word) cause ↔ OpensBeyond cause word
  invalid : e = .invalidLiteral (String.ofList word) ↔ ∀ cause, ¬ OpensBeyond cause word

theorem refused_of_readLiteral {word : List Char} {e : LineError}
    (h : Line.readLiteral word = .error e) : Refused word e := by
  unfold Line.readLiteral at h
  split at h
  · cases h
  next hread =>
    cases h
    have hbeyond : ∀ cause, ¬ OpensBeyond cause word := fun cause hopens => by
      rw [readAll_eq_outOfRange_iff.2 hopens] at hread
      cases hread
    exact ⟨fun cause => ⟨fun heq => (by cases heq), fun hopens => absurd hopens (hbeyond cause)⟩,
      fun _ => hbeyond, fun _ => rfl⟩
  next cause hread =>
    cases h
    have hopens := readAll_eq_outOfRange_iff.1 hread
    refine ⟨fun other => ⟨fun heq => ?_, fun hother => ?_⟩, fun heq => (by cases heq), fun hnone => ?_⟩
    · cases heq
      exact hopens
    · rw [readAll_eq_outOfRange_iff.2 hother] at hread
      cases hread
      rfl
    · exact absurd hopens (hnone cause)

/-- **Why an operand is refused.** It is out of range when the literal that it
starts with is, at the end of the range that is told, and invalid otherwise. So
among the words that do not go on after such a literal, those refused as out of
range are the literals whose value does not fit, and those refused as invalid
are no literals. -/
theorem refused_exactly {word : List Char} {e : LineError} (h : Line.readLiteral word = .error e) :
    Refused word e ∧
      ((∀ cause, OpensBeyond cause word → WellFormed word) →
        ((∃ cause, e = .literalOutOfRange (String.ofList word) cause) ↔
          ∃ v, Denotes word v ∧ ¬ Fits32 v) ∧
        (e = .invalidLiteral (String.ofList word) ↔ ¬ WellFormed word)) := by
  have hrefused := refused_of_readLiteral h
  have hfits : ∀ v, Denotes word v → ¬ Fits32 v := fun v hd hv => by
    rw [Line.readLiteral_eq_ok_iff.2 ⟨hd, hv⟩] at h
    cases h
  have hopens : ∀ v, Denotes word v → ∃ cause, OpensBeyond cause word := fun v hd => by
    obtain ⟨cause, hbeyond⟩ := exists_beyond_iff.2 (hfits v hd)
    exact ⟨cause, word, [], v, (List.append_nil word).symm, hd, hbeyond⟩
  refine ⟨hrefused, fun hwhole => ⟨⟨fun hout => ?_, fun hlit => ?_⟩, fun hinvalid hlit => ?_, fun hlit => ?_⟩⟩
  · obtain ⟨cause, hout⟩ := hout
    obtain ⟨v, hd⟩ := hwhole cause ((hrefused.outOfRange cause).1 hout)
    exact ⟨v, hd, hfits v hd⟩
  · obtain ⟨v, hd, -⟩ := hlit
    obtain ⟨cause, hcause⟩ := hopens v hd
    exact ⟨cause, (hrefused.outOfRange cause).2 hcause⟩
  · obtain ⟨v, hd⟩ := hlit
    obtain ⟨cause, hcause⟩ := hopens v hd
    exact hrefused.invalid.1 hinvalid cause hcause
  · exact hrefused.invalid.2 fun cause hcause => hlit (hwhole cause hcause)

/-- A literal that is just too large. -/
theorem firstTooLarge_refused :
    Line.readLiteral "$80000000".toList = .error (.literalOutOfRange "$80000000" .tooLarge) ∧
      OpensBeyond .tooLarge "$80000000".toList ∧ ∃ v, Denotes "$80000000".toList v ∧ ¬ Fits32 v := by
  have hread : Line.readLiteral "$80000000".toList =
      .error (.literalOutOfRange "$80000000" .tooLarge) := rfl
  have hdenotes : Denotes ('$' :: Digits.fixed 16 8 0x80000000) 0x80000000 :=
    denotes_fixed (by decide) (by decide)
  have hliteral : WellFormed "$80000000".toList := ⟨_, hdenotes⟩
  obtain ⟨hrefused, hwhole⟩ := refused_exactly hread
  exact ⟨hread, (hrefused.outOfRange .tooLarge).1 rfl,
    (hwhole fun _ _ => hliteral).1.1 ⟨.tooLarge, rfl⟩⟩

/-- Digits that are too many hide that the word they start is no literal. -/
theorem strayAfterDigits_misnamed :
    Line.readLiteral "99999999999x".toList =
        .error (.literalOutOfRange "99999999999x" .tooLarge) ∧
      ¬ WellFormed "99999999999x".toList := by
  refine ⟨rfl, fun hliteral => ?_⟩
  obtain ⟨v, hd⟩ := hliteral
  have hx : 'x' ∈ "99999999999x".toList := by decide
  have hfirst : "99999999999x".toList.head? = some '9' := rfl
  generalize "99999999999x".toList = word at hd hx hfirst
  cases hd with
  | hexadecimal hn => cases hfirst
  | @decimal sign factor digits hs hn =>
    cases hs with
    | none => exact absurd (hn.2 'x' hx) (by decide)
    | plus => cases hfirst
    | minus => cases hfirst

end Literal

end Mc6809
