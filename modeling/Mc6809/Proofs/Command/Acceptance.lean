/-
What becomes of a line when a completion is accepted: the line up to where the
completion starts, and then the candidate. The words before the one that is
being typed are kept, and the candidate follows them, when the typed word
stands on the line just as it is read (`complete_keeps`). That is so on every
line without quotes, backslashes, `#` and line feeds.

The start is found by the bytes of the word as it is read. Where the line
spells it with more, in quotes for instance, the completion starts within the
word and may leave its quote open (`quotedWord_damaged`).
-/
import Mc6809.Debugger.CommandLine
import Mc6809.Proofs.Command.Candidates
import Mc6809.Proofs.Text.ShellWords

namespace Mc6809

namespace Completion

open Text ShellWords

/-- With `name` put where the completion starts, the line has the words `init`
and then that name. -/
def Keeps (line : String) (start : Nat) (init : List String) (name : String) : Prop :=
  ∃ before, Front line.toList start before ∧
    split (before ++ name.toList) = some ((init ++ [name]).map String.toList)

/-- The word that is being typed stands on the line as it is read, and the
words `init` are complete before it. -/
def StandsAsRead (line : String) (pos : Nat) (init : List String) (last : String) : Prop :=
  ∃ before, Front line.toList pos (before ++ last.toList) ∧ EndsInGap before (init.map String.toList)

/-- No quotes, backslashes, `#` or line feeds up to a byte of a line. -/
def Unmarked (line : String) (pos : Nat) : Prop :=
  ∀ text, Front line.toList pos text → ∀ c ∈ text, c ∉ ['\'', '"', '\\', '#', '\n']

/-- When a candidate put at `start` keeps the words before it. -/
structure KeepsWhere (line : String) (pos start : Nat) (init : List String) (last name : String) :
    Prop where
  standing : StandsAsRead line pos init last →
    (Keeps line start init name ↔ split name.toList = some [name.toList])
  unmarked : Unmarked line pos → StandsAsRead line pos init last
  bare : IsBare name.toList → (Keeps line start init name ↔
    ∃ before, Front line.toList start before ∧
      (scanFront before).Invites (init.map String.toList) name.toList)

variable {V : Type} {line : String} {pos start : Nat} {init : List String} {last name : String}

theorem map_toList_ofList (words : List (List Char)) :
    (words.map String.ofList).map String.toList = words := by
  simp [List.map_map, Function.comp_def]

/-- The place where a typed word starts. -/
theorem front_start {before : List Char} (h : Front line.toList pos (before ++ last.toList)) :
    Front line.toList (pos - last.utf8ByteSize) before := by
  obtain ⟨rest, hline, hbytes⟩ := h
  refine ⟨last.toList ++ rest, by rw [hline, List.append_assoc], ?_⟩
  rw [← hbytes, byteLength_append, byteLength_toList, Nat.add_sub_cancel]

theorem keeps_iff_of_standsAsRead (h : StandsAsRead line pos init last) :
    Keeps line (pos - last.utf8ByteSize) init name ↔ split name.toList = some [name.toList] := by
  obtain ⟨before, hfront, hgap⟩ := h
  have hstart := front_start hfront
  rw [← hgap.split_append_eq_iff]
  constructor
  · intro hkeeps
    obtain ⟨before', hfront', hsplit⟩ := hkeeps
    rw [hstart.unique hfront', hsplit, List.map_append]
    rfl
  · intro hsplit
    refine ⟨before, hstart, ?_⟩
    rw [hsplit, List.map_append]
    rfl

/-- A typed word without marks stands as it is read. -/
theorem standsAsRead_of_unmarked (hwords : WordsAt line pos (init ++ [last]))
    (h : Unmarked line pos) : StandsAsRead line pos init last := by
  obtain ⟨text, whole, hfront, hwhole, heq⟩ := hwords
  obtain ⟨before, words, word, rfl, hgap, hword, hblank⟩ := exists_endsInGap (h text hfront)
  rw [hgap.split_append] at hwhole
  rcases hword with rfl | hword
  · obtain rfl : words = whole := by
      rw [← List.append_nil words]
      exact Option.some.inj hwhole
    rw [List.append_nil] at hfront heq
    rcases hblank with rfl | hblank
    · obtain rfl : words = [] := (congrArg Reading.words hgap).symm
      exact absurd heq (by simp)
    · rw [if_pos hblank] at heq
      obtain ⟨rfl, hlast⟩ := List.append_inj' heq rfl
      obtain rfl := List.singleton_inj.1 hlast
      refine ⟨before, by simpa using hfront, ?_⟩
      rw [map_toList_ofList]
      exact hgap
  · rw [split_of_isBare hword, Option.map_some, Option.some.injEq] at hwhole
    have hsolid : ¬ ((before ++ word).getLast? = some ' ' ∨ (before ++ word).getLast? = some '\t') := by
      rw [List.getLast?_append_of_ne_nil _ hword.1]
      intro hend
      rcases hend with hend | hend
      · exact hword.2.2 _ (List.mem_of_getLast? hend) (by decide)
      · exact hword.2.2 _ (List.mem_of_getLast? hend) (by decide)
    rw [if_neg hsolid, List.append_nil, ← hwhole, List.map_append] at heq
    obtain ⟨rfl, hlast⟩ := List.append_inj' heq rfl
    obtain rfl := List.singleton_inj.1 hlast
    refine ⟨before, by rwa [String.toList_ofList], ?_⟩
    rw [map_toList_ofList]
    exact hgap

theorem start_of_complete {c : CommandSpec V} {names : List String}
    (h : complete c line pos = (start, names)) (hname : name ∈ names)
    (hwords : WordsAt line pos (init ++ [last])) : start = pos - last.utf8ByteSize := by
  rw [complete_of_wordsAt hwords] at h
  obtain ⟨rfl, rfl⟩ := Prod.mk.inj h
  rw [fst_candidates_of_mem hname]

/-- **What accepting a completion does to a line.** If the typed word stands as
it is read, the words before it are kept and the candidate is the next one,
provided that the candidate means itself. A bare candidate is taken so just
where the text before the completion invites it. -/
theorem complete_keeps {c : CommandSpec V} {names : List String}
    (h : complete c line pos = (start, names)) (hname : name ∈ names) :
    (∃ init last, WordsAt line pos (init ++ [last])) ∧
      ∀ init last, WordsAt line pos (init ++ [last]) → KeepsWhere line pos start init last name := by
  obtain ⟨init, last, hwords, -⟩ := exists_of_mem_complete (by rw [h]; exact hname)
  refine ⟨⟨init, last, hwords⟩, fun init last hwords => ?_⟩
  rw [start_of_complete h hname hwords]
  refine ⟨keeps_iff_of_standsAsRead, standsAsRead_of_unmarked hwords, fun hbare => ?_⟩
  rw [Keeps, List.map_append]
  exact exists_congr fun before => and_congr_right fun _ => split_append_isBare_iff hbare

/-- A quoted word before the one that is typed is no hindrance. -/
theorem afterQuotedWord_kept :
    complete DebuggerCommand.spec "\"info\" st" 9 = (7, ["steps"]) ∧
      WordsAt "\"info\" st" 9 (["info"] ++ ["st"]) ∧ Keeps "\"info\" st" 7 ["info"] "steps" := by
  have hcomplete : complete DebuggerCommand.spec "\"info\" st" 9 = (7, ["steps"]) := by decide
  have hwords : WordsAt "\"info\" st" 9 (["info"] ++ ["st"]) :=
    wordsBefore?_eq_some_iff.1 (by decide)
  have hkeeps := (complete_keeps hcomplete (List.mem_singleton_self "steps")).2 _ _ hwords
  exact ⟨hcomplete, hwords, (hkeeps.standing ⟨"\"info\" ".toList, ⟨[], rfl, rfl⟩, rfl⟩).2 rfl⟩

/-- The completion of a word in quotes starts within the quotes. -/
theorem quotedWord_damaged :
    complete DebuggerCommand.spec "\"st\"" 4 = (2, ["step"]) ∧ WordsAt "\"st\"" 4 ([] ++ ["st"]) ∧
      ¬ Keeps "\"st\"" 2 [] "step" := by
  refine ⟨by decide, wordsBefore?_eq_some_iff.1 (by decide), fun hkeeps => ?_⟩
  obtain ⟨before, hfront, hsplit⟩ := hkeeps
  obtain rfl : ['"', 's'] = before := Front.unique ⟨['t', '"'], rfl, rfl⟩ hfront
  cases hsplit

/-! ## The commands of the debugger -/

/-- All names of the debugger's commands and registers are bare. -/
theorem isBare_of_offers {node : CommandSpec DebuggerCommand.Argument} {words : List String}
    (h : DebuggerCommand.spec.Leads words node) (hname : Offers node name) : IsBare name.toList := by
  have hall : ∀ name ∈ offered DebuggerCommand.spec, IsBare name.toList := by decide
  have hbelow : ∀ sub ∈ DebuggerCommand.spec.subcommands, ∀ name ∈ offered sub,
      IsBare name.toList := by decide
  have hlast : ∀ sub ∈ DebuggerCommand.spec.subcommands, ∀ topic ∈ sub.subcommands,
      (∀ name ∈ offered topic, IsBare name.toList) ∧ topic.subcommands = [] := by decide
  rw [← mem_offered_iff] at hname
  -- The tree is two levels deep, so no third word leads on.
  cases h with
  | here => exact hall name hname
  | down hfirst hrest =>
    have hsub := hfirst.mem
    cases hrest with
    | here => exact hbelow _ hsub name hname
    | down hfirst hrest =>
      obtain ⟨hbare, hnone⟩ := hlast _ hsub _ hfirst.mem
      cases hrest with
      | here => exact hbare name hname
      | down hfirst hrest => exact absurd hfirst.mem (by simp [hnone])

/-- In the debugger, a completion that is accepted keeps the words of every
line without quotes, backslashes, `#` and line feeds. -/
theorem debugger_keeps {names : List String}
    (h : complete DebuggerCommand.spec line pos = (start, names)) (hname : name ∈ names)
    (hwords : WordsAt line pos (init ++ [last])) (hunmarked : Unmarked line pos) :
    Keeps line start init name := by
  obtain ⟨_, _, node, -, hleads, hoffers, -⟩ := mem_complete_iff.1 (by rw [h]; exact hname)
  rw [start_of_complete h hname hwords,
    keeps_iff_of_standsAsRead (standsAsRead_of_unmarked hwords hunmarked)]
  exact split_of_isBare (isBare_of_offers hleads hoffers)

end Completion

end Mc6809
