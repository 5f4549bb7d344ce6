/-
The line of the registers. Each value on it takes a fixed number of characters,
two or four hexadecimal digits or a place for each flag, so values stand at the
same columns on every line: lines that are equal have equal values, and these
determine the registers (`text_inj`).

So nothing is lost when machines are compared by the lines of their registers,
along a run or at its end (`registerLine_determines`).
-/
import Mc6809.Invocation.Event
import Mc6809.Proofs.Machine.ConditionCodes
import Mc6809.Proofs.Machine.Trajectory

namespace Mc6809

open Machine (iterate trail)

namespace Text

/-- The last value of a line that ends in one of a fixed length, and what is before it. -/
theorem field_inj {front front' label value value' : String} (hlength : value.length = value'.length)
    (h : front ++ label ++ value = front' ++ label ++ value') : front = front' ∧ value = value' := by
  have hlist := congrArg String.toList h
  simp only [String.toList_append] at hlist
  obtain ⟨hfront, hvalue⟩ := List.append_inj' hlist hlength
  exact ⟨String.toList_inj.1 (List.append_cancel_right hfront), String.toList_inj.1 hvalue⟩

end Text

/-! ## The values -/

theorem Byte.length_hex (b : Byte) : (Byte.hex b).length = 2 := by
  rw [Byte.hex, String.length_ofList, Digits.length_fixed]

theorem Byte.hex_inj {a b : Byte} (h : Byte.hex a = Byte.hex b) : a = b := by
  have ha : a.toNat < Digits.capacity 16 2 := a.toNat_lt
  have hb : b.toNat < Digits.capacity 16 2 := b.toNat_lt
  exact UInt8.toNat_inj.1
    (Digits.fixed_inj (by decide) (Nat.le_refl 16) ha hb (String.ofList_inj.1 h))

theorem Word.length_hex (w : Word) : (Word.hex w).length = 4 := by
  rw [Word.hex, String.length_ofList, Digits.length_fixed]

theorem Word.hex_inj {v w : Word} (h : Word.hex v = Word.hex w) : v = w := by
  have hv : v.toNat < Digits.capacity 16 4 := v.toNat_lt
  have hw : w.toNat < Digits.capacity 16 4 := w.toNat_lt
  exact UInt16.toNat_inj.1
    (Digits.fixed_inj (by decide) (Nat.le_refl 16) hv hw (String.ofList_inj.1 h))

namespace ConditionCodes

theorem length_text (cc : ConditionCodes) : cc.text.length = 8 := by
  rw [text, String.length_ofList, List.length_map]
  rfl

/-- No flag has a letter that could be taken for the dash of a clear one. -/
theorem place_inj (f : Flag) : ∀ on on' : Bool,
    (if on then f.letter else '-') = (if on' then f.letter else '-') → on = on' := by
  cases f <;> decide

theorem text_inj {cc cc' : ConditionCodes} (h : cc.text = cc'.text) : cc = cc' := by
  have hplaces := List.map_inj_left.1 (String.ofList_inj.1 h)
  exact ext_has fun f => place_inj f _ _ (hplaces f f.mem_all)

end ConditionCodes

/-! ## The line -/

namespace Registers

open Text (field_inj)

/-- The values are taken off the end of the line one by one. -/
theorem text_inj {r r' : Registers} (h : r.text = r'.text) : r = r' := by
  have hbyte : ∀ a b : Byte, (Byte.hex a).length = (Byte.hex b).length := fun a b => by
    rw [Byte.length_hex, Byte.length_hex]
  have hword : ∀ v w : Word, (Word.hex v).length = (Word.hex w).length := fun v w => by
    rw [Word.length_hex, Word.length_hex]
  have hflags : r.cc.text.length = r'.cc.text.length := by
    rw [ConditionCodes.length_text, ConditionCodes.length_text]
  obtain ⟨h, hpc⟩ := field_inj (hword r.pc r'.pc) h
  obtain ⟨h, hu⟩ := field_inj (hword r.u r'.u) h
  obtain ⟨h, hs⟩ := field_inj (hword r.s r'.s) h
  obtain ⟨h, hy⟩ := field_inj (hword r.y r'.y) h
  obtain ⟨h, hx⟩ := field_inj (hword r.x r'.x) h
  obtain ⟨h, hcc⟩ := field_inj hflags h
  obtain ⟨h, hdp⟩ := field_inj (hbyte r.dp r'.dp) h
  obtain ⟨h, hb⟩ := field_inj (hbyte r.b r'.b) h
  have ha := (String.append_right_inj _).1 h
  obtain ⟨a, b, dp, cc, x, y, s, u, pc⟩ := r
  obtain rfl : a = _ := Byte.hex_inj ha
  obtain rfl : b = _ := Byte.hex_inj hb
  obtain rfl : dp = _ := Byte.hex_inj hdp
  obtain rfl : cc = _ := ConditionCodes.text_inj hcc
  obtain rfl : x = _ := Word.hex_inj hx
  obtain rfl : y = _ := Word.hex_inj hy
  obtain rfl : s = _ := Word.hex_inj hs
  obtain rfl : u = _ := Word.hex_inj hu
  obtain rfl : pc = _ := Word.hex_inj hpc
  rfl

theorem text_eq_iff {r r' : Registers} : r.text = r'.text ↔ r = r' :=
  ⟨text_inj, fun h => by rw [h]⟩

end Registers

/-- The lines along two runs are the same exactly if the registers are at every step. -/
theorem Machine.map_text_trail_eq_iff {n : ℕ} {m m' : Machine} :
    (trail n m).map (fun before => before.registers.text) =
        (trail n m').map (fun before => before.registers.text) ↔
      ∀ k < n, (iterate k m).registers = (iterate k m').registers := by
  simp only [trail, List.map_map, List.map_inj_left, List.mem_range, Function.comp_apply,
    Registers.text_eq_iff]

/-- The report of the end of a run tells the steps made and the registers. -/
theorem InvocationEvent.entry_ended_eq_iff {steps steps' : ℕ} {r r' : Registers} :
    (ended steps r).entry = (ended steps' r').entry ↔ steps = steps' ∧ r = r' := by
  have hsteps : toString steps = toString steps' ↔ steps = steps' := by
    refine ⟨fun h => ?_, fun h => by rw [h]⟩
    -- a number is read back from its decimal digits
    have hread := congrArg (fun text => Nat.ofDigitChars 10 (String.toList text) 0) h
    simpa only [Nat.toString_eq_repr, Nat.toList_repr, Nat.ofDigitChars_ten_toDigits] using hread
  simp only [entry, Log.Field.ofNat, Log.Entry.mk.injEq, List.cons.injEq, Log.Field.mk.injEq, true_and,
    and_true, hsteps, Registers.text_eq_iff]

/-- **The line of the registers determines them**, whatever their values. So
runs whose lines are the same have the same registers at every step, and
reports of the end that are the same have the same registers there. -/
theorem registerLine_determines :
    (∀ r r' : Registers, r.text = r'.text ↔ r = r') ∧
      (∀ (n : ℕ) (m m' : Machine),
        (trail n m).map (fun before => before.registers.text) =
            (trail n m').map (fun before => before.registers.text) ↔
          ∀ k < n, (iterate k m).registers = (iterate k m').registers) ∧
      ∀ (steps steps' : ℕ) (r r' : Registers),
        (InvocationEvent.ended steps r).entry = (InvocationEvent.ended steps' r').entry ↔
          steps = steps' ∧ r = r' :=
  ⟨fun _ _ => Registers.text_eq_iff, fun _ _ _ => Machine.map_text_trail_eq_iff,
    fun _ _ _ _ => InvocationEvent.entry_ended_eq_iff⟩

end Mc6809
