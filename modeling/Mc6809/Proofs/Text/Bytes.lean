/-
Cutting a text at a byte. A text can be cut where a character ends and
nowhere else (`front_iff`), so a number of bytes determines what stands before
the cut and what stands after it.
-/
import Mc6809.Text.Blank

namespace Mc6809

namespace Text

/-- What a text starts with takes so many bytes. -/
def Front (text : List Char) (bytes : Nat) (front : List Char) : Prop :=
  ∃ rest, text = front ++ rest ∧ byteLength front = bytes

theorem takeBytes?_zero (text : List Char) : takeBytes? text 0 = some [] := by
  cases text <;> rfl

theorem takeBytes?_cons {n : Nat} (hpos : 0 < n) (c : Char) (text : List Char) :
    takeBytes? (c :: text) n =
      if c.utf8Size ≤ n then (takeBytes? text (n - c.utf8Size)).map (c :: ·) else none := by
  cases n with
  | zero => exact absurd hpos (Nat.lt_irrefl 0)
  | succ n => rfl

theorem dropBytes?_zero (text : List Char) : dropBytes? text 0 = some text := by
  cases text <;> rfl

theorem dropBytes?_cons {n : Nat} (hpos : 0 < n) (c : Char) (text : List Char) :
    dropBytes? (c :: text) n = if c.utf8Size ≤ n then dropBytes? text (n - c.utf8Size) else none := by
  cases n with
  | zero => exact absurd hpos (Nat.lt_irrefl 0)
  | succ n => rfl

theorem takeBytes?_append (front rest : List Char) :
    takeBytes? (front ++ rest) (byteLength front) = some front := by
  induction front with
  | nil => exact takeBytes?_zero rest
  | cons c front ih =>
    have hpos := c.utf8Size_pos
    rw [List.cons_append, byteLength_cons, takeBytes?_cons (by omega), if_pos (by omega),
      Nat.add_sub_cancel_left, ih]
    rfl

theorem dropBytes?_append (front rest : List Char) :
    dropBytes? (front ++ rest) (byteLength front) = some rest := by
  induction front with
  | nil => exact dropBytes?_zero rest
  | cons c front ih =>
    have hpos := c.utf8Size_pos
    rw [List.cons_append, byteLength_cons, dropBytes?_cons (by omega), if_pos (by omega),
      Nat.add_sub_cancel_left, ih]

theorem front_of_takeBytes? {text front : List Char} {n : Nat} (h : takeBytes? text n = some front) :
    Front text n front := by
  induction text generalizing n front with
  | nil =>
    cases n with
    | zero =>
      cases h
      exact ⟨[], rfl, rfl⟩
    | succ n => cases h
  | cons c text ih =>
    cases Nat.eq_zero_or_pos n with
    | inl hzero =>
      rw [hzero, takeBytes?_zero] at h
      cases h
      exact ⟨c :: text, rfl, hzero.symm⟩
    | inr hpos =>
      rw [takeBytes?_cons hpos] at h
      split at h
      next hle =>
        obtain ⟨front, htake, rfl⟩ := Option.map_eq_some_iff.1 h
        obtain ⟨rest, rfl, hbytes⟩ := ih htake
        refine ⟨rest, rfl, ?_⟩
        rw [byteLength_cons, hbytes]
        omega
      · cases h

/-- Cutting finds the one front that takes the bytes. -/
theorem front_iff {text front : List Char} {n : Nat} :
    Front text n front ↔ takeBytes? text n = some front := by
  constructor
  · intro h
    obtain ⟨rest, rfl, rfl⟩ := h
    exact takeBytes?_append front rest
  · exact front_of_takeBytes?

theorem Front.unique {text front front' : List Char} {n : Nat} (h : Front text n front)
    (h' : Front text n front') : front = front' :=
  Option.some.inj ((front_iff.1 h).symm.trans (front_iff.1 h'))

end Text

end Mc6809
