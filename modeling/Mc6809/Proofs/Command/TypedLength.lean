/-
How much of a line is typed of the word that a completion goes on from. A
reader adds to a word only what it has read: a backslash that may still turn
out to stand for itself counts as `held`, and with it no character adds more
bytes than it takes (`byteLength_add_le`). So the words in front of the cursor
together have no more bytes than the line has there (`WordsAt.sum_le`).

What a completion takes back from the cursor therefore never leads to before
the line, and a candidate, which starts with the typed word, can be cut right
after it (`complete_within`).
-/
import Mathlib.Algebra.Ring.Nat
import Mc6809.Debugger.CommandLine
import Mc6809.Proofs.Command.Candidates
import Mc6809.Proofs.Text.ShellWords

namespace Mc6809

open Text

namespace ShellWords

/-- The bytes of a backslash that was read and is not yet part of a word. -/
def Mode.held : Mode → Nat
  | .gapEscape | .bareEscape | .doubleEscape => 1
  | .gap | .bare | .single | .double | .comment => 0

/-- The bytes of all words so far, with what may still be added to the last one. -/
def Reading.bytes (r : Reading) : Nat :=
  (r.words.map byteLength).sum + byteLength r.word + r.mode.held

variable {mode next : Mode} {word text added : List Char} {words : List (List Char)} {c : Char}

/-- A character adds no more bytes to a word than it takes. -/
theorem byteLength_add_le (h : move mode c = .add added next) :
    byteLength added + next.held ≤ mode.held + c.utf8Size := by
  have hpos := c.utf8Size_pos
  have hbackslash : ('\\' : Char).utf8Size = 1 := rfl
  -- An escape that comes to nothing adds the backslash too, and that one is held.
  cases mode
  all_goals
    simp only [move] at h
    repeat' split at h
  all_goals cases h
  all_goals
    simp only [Mode.held, byteLength_cons, byteLength_nil]
    omega

/-- Only a bare word is ended. -/
theorem eq_bare_of_endWord (h : move mode c = .endWord) : mode = .bare := by
  cases mode with
  | bare => rfl
  | _ => grind [move]

/-- Reading a text yields no more bytes than it takes. -/
theorem bytes_scan_le (mode : Mode) (word text : List Char) :
    (scan mode word text).bytes ≤ byteLength word + mode.held + byteLength text := by
  induction text generalizing mode word with
  | nil => simp [scan, Reading.bytes]
  | cons c text ih =>
    rw [scan, byteLength_cons]
    cases hmove : move mode c with
    | add added next =>
      have hadd := byteLength_add_le hmove
      have hrest := ih next (word ++ added)
      rw [byteLength_append] at hrest
      simp only
      omega
    | endWord =>
      obtain rfl := eq_bare_of_endWord hmove
      have hrest := ih .gap []
      simp only [Reading.bytes, Mode.held, byteLength_nil, List.map_cons, List.sum_cons] at hrest ⊢
      omega

/-- What is held at the end of a text is all that is added there. -/
theorem sum_byteLength_finish_le (h : finish mode word = some words) :
    (words.map byteLength).sum ≤ byteLength word + mode.held := by
  have hbackslash : ('\\' : Char).utf8Size = 1 := rfl
  cases mode <;> cases h <;> simp [Mode.held, hbackslash]

/-- The words of a text take no more bytes than the text. -/
theorem sum_byteLength_le (h : split text = some words) :
    (words.map byteLength).sum ≤ byteLength text := by
  rw [split, splitFrom_eq] at h
  obtain ⟨last, hlast, rfl⟩ := Option.map_eq_some_iff.1 h
  have hfinish := sum_byteLength_finish_le hlast
  have hscan := bytes_scan_le .gap [] text
  rw [Reading.bytes, byteLength_nil, Mode.held.eq_def .gap] at hscan
  rw [List.map_append, List.sum_append]
  simp only at hscan
  omega

end ShellWords

namespace Completion

open ShellWords

variable {V : Type} {c : CommandSpec V} {line : String} {pos typed : Nat}
  {words names : List String}

/-- The words in front of the cursor take no more bytes than the line up to there. -/
theorem WordsAt.sum_le (h : WordsAt line pos words) : (words.map (·.utf8ByteSize)).sum ≤ pos := by
  obtain ⟨text, whole, ⟨rest, -, rfl⟩, hwhole, rfl⟩ := h
  have hwords := sum_byteLength_le hwhole
  have hsize : ∀ word : List Char, (String.ofList word).utf8ByteSize = byteLength word := fun word => by
    rw [← byteLength_toList, String.toList_ofList]
  have hlast : ((if text.getLast? = some ' ' ∨ text.getLast? = some '\t' then [""] else []).map
      (·.utf8ByteSize)).sum = 0 := by
    split <;> rfl
  rw [List.map_append, List.sum_append, hlast, Nat.add_zero, List.map_map]
  simpa only [Function.comp_def, hsize] using hwords

/-- What is typed is the last of the words, or nothing. -/
theorem fst_candidates_le (c : CommandSpec V) (words : List String) :
    (candidates c words).1 ≤ (words.map (·.utf8ByteSize)).sum := by
  rcases List.eq_nil_or_concat' words with rfl | ⟨init, last, rfl⟩
  · exact Nat.zero_le _
  · rcases candidates_append_singleton c init last with ⟨-, heq⟩ | ⟨node, -, -, heq⟩
    · rw [heq]
      exact Nat.zero_le _
    · rw [heq, List.map_append, List.sum_append]
      exact Nat.le_add_left _ _

theorem candidatesAt?_eq_some_iff {found : Nat × List String} :
    candidatesAt? c line pos = some found ↔ ∃ words, WordsAt line pos words ∧ candidates c words = found := by
  simp only [candidatesAt?, Option.map_eq_some_iff, wordsBefore?_eq_some_iff]

theorem typed_le (h : candidatesAt? c line pos = some (typed, names)) : typed ≤ pos := by
  obtain ⟨words, hwords, heq⟩ := candidatesAt?_eq_some_iff.1 h
  have hle := fst_candidates_le c words
  rw [heq] at hle
  exact hle.trans hwords.sum_le

/-- Every candidate starts with what is typed. -/
theorem front_of_candidate (h : candidatesAt? c line pos = some (typed, names)) {name : String}
    (hname : name ∈ names) : ∃ front, Front name.toList typed front := by
  obtain ⟨words, hwords, heq⟩ := candidatesAt?_eq_some_iff.1 h
  have hmem : name ∈ (candidates c words).2 := by rwa [heq]
  rcases List.eq_nil_or_concat' words with rfl | ⟨init, last, rfl⟩
  · cases hmem
  · obtain ⟨node, -, -, rest, rfl⟩ := mem_candidates_iff.1 hmem
    have htyped := fst_candidates_of_mem hmem
    rw [heq] at htyped
    exact ⟨last.toList, rest.toList, String.toList_append, by rw [byteLength_toList, ← htyped]⟩

/-- Nothing is looked for past the end of a line, or within a character. -/
theorem candidatesAt?_of_no_front (h : ∀ front, ¬ Front line.toList pos front) (c : CommandSpec V) :
    candidatesAt? c line pos = none := by
  refine Option.eq_none_iff_forall_ne_some.2 fun found hfound => ?_
  obtain ⟨words, ⟨text, -, hfront, -⟩, -⟩ := candidatesAt?_eq_some_iff.1 hfound
  exact h text hfront

/-- A completion and a hint at a place of a line stay within the line and within
the candidates. -/
structure StaysWithin (c : CommandSpec V) (line : String) (pos : Nat) : Prop where
  outside : (∀ front, ¬ Front line.toList pos front) → candidatesAt? c line pos = none
  words : ∀ words, WordsAt line pos words → (words.map (·.utf8ByteSize)).sum ≤ pos
  nothing : candidatesAt? c line pos = none → complete c line pos = (pos, []) ∧ hint? c line pos = none
  typed : ∀ typed names, candidatesAt? c line pos = some (typed, names) →
    typed ≤ pos ∧ complete c line pos = (pos - typed, names)
  candidate : ∀ typed names, candidatesAt? c line pos = some (typed, names) →
    ∀ name ∈ names, ∃ front, Front name.toList typed front
  hint : ∀ typed only, candidatesAt? c line pos = some (typed, [only]) →
    ∃ front rest, only.toList = front ++ rest ∧ byteLength front = typed ∧
      hint? c line pos = some (String.ofList rest)

/-- **A completion stays within the line.** Whatever the tree of commands, the
line and the place, it takes back no more bytes than stand before the place;
and a hint cuts its candidate where a character ends. -/
theorem complete_within (c : CommandSpec V) (line : String) (pos : Nat) : StaysWithin c line pos where
  outside h := candidatesAt?_of_no_front h c
  words _ h := h.sum_le
  nothing h := by
    rw [complete, hint?, h]
    exact ⟨rfl, rfl⟩
  typed typed names h := by
    refine ⟨typed_le h, ?_⟩
    rw [complete, h]
  candidate _ _ h _ := front_of_candidate h
  hint typed only h := by
    obtain ⟨front, rest, honly, rfl⟩ := front_of_candidate h (List.mem_singleton_self only)
    refine ⟨front, rest, honly, rfl, ?_⟩
    rw [hint?, h]
    simp only
    rw [honly, dropBytes?_append]
    rfl

example : candidatesAt? DebuggerCommand.spec "info \"s\"t" 9 = some (2, ["steps"]) ∧
    complete DebuggerCommand.spec "info \"s\"t" 9 = (7, ["steps"]) ∧
    hint? DebuggerCommand.spec "info \"s\"t" 9 = some "eps" := by decide

end Completion

end Mc6809
