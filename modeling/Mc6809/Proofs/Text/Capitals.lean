/-
Texts in capitals. Only the letters of ASCII change, and to none of the
questions that the reader of a line asks of a character does that matter
(`apply_toUpper`): a blank stays a blank, a digit a digit, a semicolon a
semicolon. So the words of a text in capitals are its words in capitals
(`words_capitals`), and two texts that are the same in capitals have the same
words up to the case of their letters.
-/
import Mc6809.Proofs.Literal.Numeral
import Mc6809.Proofs.Text.Words

namespace Mc6809

namespace Text

/-- A text with the letters of ASCII in upper case. -/
def capitals (text : List Char) : List Char := text.map Char.toUpper

/-! ## Characters -/

theorem toUpper_of_le {c : Char} (h : 128 ≤ c.toNat) : c.toUpper = c := by
  unfold Char.toUpper
  split
  next hc =>
    have hle : c.toNat ≤ 'z'.toNat := UInt32.le_iff_toNat_le.1 hc.2
    have hz : 'z'.toNat < 128 := by decide
    omega
  next => rfl

/-- What cannot tell the characters of ASCII from their capitals cannot tell
any character from its capital. -/
theorem apply_toUpper {α : Type} (f : Char → α)
    (h : ∀ n : Fin 128, f (Char.ofNat n).toUpper = f (Char.ofNat n)) (c : Char) :
    f c.toUpper = f c := by
  rcases Nat.lt_or_ge c.toNat 128 with hc | hc
  · exact Literal.of_ascii (fun c => f c.toUpper = f c) h hc
  · rw [toUpper_of_le hc]

/-- A character that is no letter is the capital of itself alone. -/
theorem toUpper_eq_iff {d : Char}
    (h : ∀ n : Fin 128, ((Char.ofNat n).toUpper == d) = (Char.ofNat n == d)) {c : Char} :
    c.toUpper = d ↔ c = d := by
  rw [← beq_iff_eq, apply_toUpper (· == d) h, beq_iff_eq]

theorem isBlank_toUpper (c : Char) : isBlank c.toUpper = isBlank c :=
  apply_toUpper isBlank (by decide) c

theorem toUpper_toUpper (c : Char) : c.toUpper.toUpper = c.toUpper :=
  apply_toUpper Char.toUpper (by decide) c

/-! ## Texts -/

@[simp] theorem capitals_nil : capitals [] = [] := rfl

@[simp] theorem capitals_cons (c : Char) (text : List Char) :
    capitals (c :: text) = c.toUpper :: capitals text := rfl

@[simp] theorem capitals_append (s t : List Char) : capitals (s ++ t) = capitals s ++ capitals t :=
  List.map_append

theorem capitals_eq_nil_iff {text : List Char} : capitals text = [] ↔ text = [] :=
  List.map_eq_nil_iff

@[simp] theorem capitals_capitals (text : List Char) : capitals (capitals text) = capitals text := by
  simp only [capitals, List.map_map]
  exact List.map_congr_left fun c _ => toUpper_toUpper c

theorem takeWhile_capitals {p : Char → Bool} (hp : ∀ c, p c.toUpper = p c) (text : List Char) :
    (capitals text).takeWhile p = capitals (text.takeWhile p) := by
  have hcomp : p ∘ Char.toUpper = p := funext hp
  rw [capitals, List.takeWhile_map, hcomp, capitals]

theorem dropWhile_capitals {p : Char → Bool} (hp : ∀ c, p c.toUpper = p c) (text : List Char) :
    (capitals text).dropWhile p = capitals (text.dropWhile p) := by
  have hcomp : p ∘ Char.toUpper = p := funext hp
  rw [capitals, List.dropWhile_map, hcomp, capitals]

theorem all_capitals {p : Char → Bool} (hp : ∀ c, p c.toUpper = p c) (text : List Char) :
    (capitals text).all p = text.all p := by
  have hcomp : p ∘ Char.toUpper = p := funext hp
  rw [capitals, List.all_map, hcomp]

/-! ## Words -/

theorem Blanks.capitals {text : List Char} (h : Blanks text) : Blanks (capitals text) := by
  intro d hd
  obtain ⟨c, hc, rfl⟩ := List.mem_map.1 hd
  rw [isBlank_toUpper]
  exact h c hc

theorem IsWord.capitals {word : List Char} (h : IsWord word) : IsWord (capitals word) := by
  refine ⟨fun hnil => h.1 (capitals_eq_nil_iff.1 hnil), fun d hd => ?_⟩
  obtain ⟨c, hc, rfl⟩ := List.mem_map.1 hd
  rw [isBlank_toUpper]
  exact h.2 c hc

theorem StartsBlank.capitals {text : List Char} (h : StartsBlank text) : StartsBlank (capitals text) := by
  cases text with
  | nil => exact h
  | cons c text =>
    intro d hd
    cases hd
    rw [isBlank_toUpper]
    exact h c rfl

theorem Spaced.capitals {text : List Char} {ws : List (List Char)} (h : Spaced text ws) :
    Spaced (capitals text) (ws.map Text.capitals) := by
  induction h with
  | blanks hgap => exact .blanks hgap.capitals
  | word hgap hword hrest _ ih =>
    rw [capitals_append, capitals_append]
    exact .word hgap.capitals hword.capitals hrest.capitals ih

theorem words_capitals (text : List Char) : words (capitals text) = (words text).map capitals :=
  (spaced_words text).capitals.words_eq

end Text

end Mc6809
