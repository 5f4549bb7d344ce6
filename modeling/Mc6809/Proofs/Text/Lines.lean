/-
Lines and where they stand in a text. A text with a line feed after it is made
of its lines with a line feed after each (`fed_lines`). So the lines of texts
that a line feed joins are the lines of both (`lines_append`), the lines before
a place are counted by the line feeds before it (`count_fed`), and bytes are
counted from one line to the next.
-/
import Mc6809.Proofs.Text.Words

namespace Mc6809

namespace Text

/-- Lines as they stand in a text that goes on after them. -/
def fed (ls : List (List Char)) : List Char := ls.flatMap (· ++ ['\n'])

@[simp] theorem fed_nil : fed [] = [] := rfl

@[simp] theorem fed_cons (line : List Char) (ls : List (List Char)) :
    fed (line :: ls) = line ++ '\n' :: fed ls := by
  simp [fed]

@[simp] theorem fed_append (ls ls' : List (List Char)) : fed (ls ++ ls') = fed ls ++ fed ls' := by
  simp [fed]

theorem fed_eq_intercalate {ls : List (List Char)} (h : ls ≠ []) :
    fed ls = ['\n'].intercalate ls ++ ['\n'] := by
  induction ls with
  | nil => exact absurd rfl h
  | cons line ls ih =>
    cases ls with
    | nil => simp
    | cons line' ls => rw [fed_cons, ih (by simp), List.intercalate_cons_cons]; simp

/-- Nothing of a text is lost in its lines. -/
theorem fed_lines (text : List Char) : fed (lines text) = text ++ ['\n'] := by
  rw [lines, fed_eq_intercalate (pieces_ne_nil _ _), intercalate_pieces]

/-- Lines that are fed into a text are its first lines. -/
theorem lines_fed_append {ls : List (List Char)} (h : ∀ line ∈ ls, '\n' ∉ line) (rest : List Char) :
    lines (fed ls ++ rest) = ls ++ lines rest := by
  induction ls with
  | nil => rfl
  | cons line ls ih =>
    rw [List.forall_mem_cons] at h
    have ih := ih h.2
    rw [fed_cons, List.append_assoc, List.cons_append, lines, pieces_append h.1, ← lines, ih,
      List.cons_append]

theorem not_mem_of_mem_lines {text line : List Char} (h : line ∈ lines text) : '\n' ∉ line :=
  not_mem_of_mem_pieces h

theorem lines_append (text rest : List Char) :
    lines (text ++ '\n' :: rest) = lines text ++ lines rest := by
  rw [← lines_fed_append (fun _ => not_mem_of_mem_lines) rest, fed_lines, List.append_assoc,
    List.singleton_append]

theorem count_fed {ls : List (List Char)} (h : ∀ line ∈ ls, '\n' ∉ line) :
    (fed ls).count '\n' = ls.length := by
  induction ls with
  | nil => rfl
  | cons line ls ih =>
    rw [List.forall_mem_cons] at h
    rw [fed_cons, List.count_append, List.count_cons_self, List.count_eq_zero_of_not_mem h.1, ih h.2,
      List.length_cons, Nat.zero_add]

theorem length_lines (text : List Char) : (lines text).length = 1 + text.count '\n' := by
  rw [← count_fed (fun _ => not_mem_of_mem_lines), fed_lines, List.count_append,
    List.count_singleton_self, Nat.add_comm]

/-- A line that starts at the top of a text or after a line feed. -/
theorem fed_eq_nil_or (ls : List (List Char)) : fed ls = [] ∨ ∃ above, fed ls = above ++ ['\n'] := by
  rcases List.eq_nil_or_concat ls with rfl | ⟨ls, line, rfl⟩
  · exact .inl rfl
  · exact .inr ⟨fed ls ++ line, by simp⟩

/-- What stands before and after a line of a text. -/
theorem exists_eq_fed_append {text line : List Char} {before after : List (List Char)}
    (h : lines text = before ++ line :: after) : ∃ below, text = fed before ++ line ++ below := by
  -- The line feed after the last line is not of the text.
  have hfed := fed_lines text
  rw [h, fed_append, fed_cons] at hfed
  rcases fed_eq_nil_or after with hafter | ⟨below, hafter⟩
  · refine ⟨[], (List.append_left_inj ['\n']).1 ?_⟩
    rw [← hfed, hafter]
    simp
  · refine ⟨'\n' :: below, (List.append_left_inj ['\n']).1 ?_⟩
    rw [← hfed, hafter]
    simp

/-! ## Bytes -/

/-- Characters take the bytes that they are encoded in. -/
theorem utf8ByteSize_ofList (text : List Char) : (String.ofList text).utf8ByteSize = byteLength text := by
  induction text with
  | nil => rfl
  | cons c text ih =>
    rw [String.ofList_cons, String.utf8ByteSize_append, String.utf8ByteSize_singleton, ih,
      byteLength_cons]

theorem byteLength_toList (s : String) : byteLength s.toList = s.utf8ByteSize := by
  rw [← utf8ByteSize_ofList, String.ofList_toList]

theorem byteLength_fed_cons (line : List Char) (ls : List (List Char)) :
    byteLength (fed (line :: ls)) = byteLength line + 1 + byteLength (fed ls) := by
  rw [fed_cons, byteLength_append, byteLength_cons, Nat.add_assoc]
  rfl

theorem byteLength_fed_lines (text : List Char) : byteLength (fed (lines text)) = byteLength text + 1 := by
  rw [fed_lines, byteLength_append]
  rfl

end Text

end Mc6809
