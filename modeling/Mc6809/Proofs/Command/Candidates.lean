/-
What a completion offers. The words in front of the cursor, all but the last,
lead down the tree of commands (`CommandSpec.Leads`); offered are the words
that may stand after the command reached there (`Offers`) and go on from the
last one, in order and each once. A hint is given when there is only one.

`complete_offers` says this of every line and cursor: where the line has no
words yet, or they lead nowhere, nothing is offered.
-/
import Mathlib.Order.Defs.LinearOrder
import Mathlib.Data.String.Basic
import Mc6809.Command.Completion
import Mc6809.Proofs.Text.Bytes
import Mc6809.Proofs.Text.Lines

namespace Mc6809

variable {V : Type}

namespace CommandSpec

/-- A command is called by its name or by any of its aliases. -/
def Called (c : CommandSpec V) (word : String) : Prop :=
  word = c.name ∨ word ∈ c.hiddenAliases ∨ word ∈ c.visibleAliases

/-- The first subcommand that is called so. -/
def FirstCalled (c : CommandSpec V) (word : String) (sub : CommandSpec V) : Prop :=
  ∃ before after, c.subcommands = before ++ sub :: after ∧ sub.Called word ∧
    ∀ other ∈ before, ¬ other.Called word

/-- Words that lead from a command to one below it. -/
inductive Leads : CommandSpec V → List String → CommandSpec V → Prop
  | here {c} : Leads c [] c
  | down {c sub node : CommandSpec V} {word rest} (h : c.FirstCalled word sub)
      (hrest : Leads sub rest node) : Leads c (word :: rest) node

theorem FirstCalled.mem {c sub : CommandSpec V} {word : String} (h : c.FirstCalled word sub) :
    sub ∈ c.subcommands := by
  obtain ⟨before, after, hsplit, -⟩ := h
  rw [hsplit]
  exact List.mem_append_right before List.mem_cons_self

theorem answersTo_iff {c : CommandSpec V} {word : String} : c.answersTo word = true ↔ c.Called word := by
  simp only [answersTo, aliases, Called, Bool.or_eq_true, beq_iff_eq, List.contains_iff_mem,
    List.mem_append, eq_comm (a := word)]

theorem find?_eq_some_iff {c sub : CommandSpec V} {word : String} :
    c.find? word = some sub ↔ c.FirstCalled word sub := by
  rw [find?, List.find?_eq_some_iff_append, answersTo_iff]
  constructor
  · intro h
    obtain ⟨hcalled, before, after, hsplit, hbefore⟩ := h
    refine ⟨before, after, hsplit, hcalled, fun other hother hother' => ?_⟩
    have hno := hbefore other hother
    rw [answersTo_iff.2 hother'] at hno
    cases hno
  · intro h
    obtain ⟨before, after, hsplit, hcalled, hbefore⟩ := h
    refine ⟨hcalled, before, after, hsplit, fun other hother => ?_⟩
    rw [Bool.not_eq_true', Bool.eq_false_iff]
    exact fun hother' => hbefore other hother (answersTo_iff.1 hother')

theorem leads_nil_iff {c node : CommandSpec V} : Leads c [] node ↔ node = c := by
  constructor
  · intro h
    cases h
    rfl
  · intro h
    subst h
    exact .here

theorem leads_cons_iff {c node : CommandSpec V} {word : String} {rest : List String} :
    Leads c (word :: rest) node ↔ ∃ sub, c.find? word = some sub ∧ Leads sub rest node := by
  constructor
  · intro h
    cases h with
    | down hcalled hrest => exact ⟨_, find?_eq_some_iff.2 hcalled, hrest⟩
  · intro h
    obtain ⟨sub, hfind, hrest⟩ := h
    exact .down (find?_eq_some_iff.1 hfind) hrest

end CommandSpec

namespace Completion

open CommandSpec Text

/-- What may stand after a command: its subcommands by their names and visible
aliases, `help` if it has any, and the ten registers if it takes one first. -/
inductive Offers (c : CommandSpec V) : String → Prop
  | name {sub} (h : sub ∈ c.subcommands) : Offers c sub.name
  | visibleAlias {sub name} (h : sub ∈ c.subcommands) (hname : name ∈ sub.visibleAliases) :
      Offers c name
  | help {sub} (h : sub ∈ c.subcommands) : Offers c "help"
  | register {p rest name} (h : c.positionals = p :: rest) (hid : p.id = "register")
      (hname : name ∈ ["a", "b", "d", "dp", "cc", "x", "y", "s", "u", "pc"]) : Offers c name

/-- The words in front of byte `pos`, the one that is being typed last: it is
empty after a space or a tab. -/
def WordsAt (line : String) (pos : Nat) (words : List String) : Prop :=
  ∃ text whole, Front line.toList pos text ∧ ShellWords.split text = some whole ∧
    words = whole.map String.ofList ++
      if text.getLast? = some ' ' ∨ text.getLast? = some '\t' then [""] else []

/-! ## The order of the candidates -/

theorem mem_insertName {name other : String} {names : List String} :
    other ∈ insertName name names ↔ other = name ∨ other ∈ names := by
  induction names with
  | nil => simp [insertName]
  | cons first rest ih =>
    unfold insertName
    split
    · simp
    · split
      next h => simp [h]
      next => simp [ih, or_left_comm]

theorem mem_sortNames {name : String} {names : List String} : name ∈ sortNames names ↔ name ∈ names := by
  induction names with
  | nil => simp [sortNames]
  | cons first rest ih =>
    rw [sortNames, List.foldr_cons, mem_insertName, List.mem_cons]
    exact or_congr_right ih

theorem pairwise_insertName {name : String} {names : List String} (h : names.Pairwise (· < ·)) :
    (insertName name names).Pairwise (· < ·) := by
  induction names with
  | nil => exact List.pairwise_singleton _ _
  | cons first rest ih =>
    obtain ⟨hfirst, hrest⟩ := List.pairwise_cons.1 h
    unfold insertName
    split
    next hlt =>
      refine List.pairwise_cons.2 ⟨fun other hother => ?_, h⟩
      rcases List.mem_cons.1 hother with rfl | hother
      · exact hlt
      · exact lt_trans hlt (hfirst other hother)
    next hlt =>
      split
      next => exact h
      next hne =>
        refine List.pairwise_cons.2 ⟨fun other hother => ?_, ih hrest⟩
        rcases mem_insertName.1 hother with rfl | hother
        · exact lt_of_le_of_ne (not_lt.1 hlt) (Ne.symm hne)
        · exact hfirst other hother

theorem pairwise_sortNames (names : List String) : (sortNames names).Pairwise (· < ·) := by
  induction names with
  | nil => exact List.Pairwise.nil
  | cons first rest ih => exact pairwise_insertName ih

/-! ## What is offered -/

/-- The registers that are offered are the ten there are. -/
theorem registerNames_eq : registerNames = ["a", "b", "d", "dp", "cc", "x", "y", "s", "u", "pc"] := rfl

theorem mem_offered_iff {c : CommandSpec V} {name : String} : name ∈ offered c ↔ Offers c name := by
  simp only [offered, List.mem_append, List.mem_flatMap, List.mem_cons]
  constructor
  · intro h
    rcases h with (⟨sub, hsub, hname⟩ | hhelp) | hregister
    · rcases hname with rfl | halias
      · exact .name hsub
      · exact .visibleAlias hsub halias
    · cases hsubs : c.subcommands with
      | nil => simp [hsubs] at hhelp
      | cons sub rest =>
        simp only [hsubs, List.isEmpty_cons, Bool.false_eq_true, if_false, List.mem_singleton] at hhelp
        subst hhelp
        have hsub : sub ∈ c.subcommands := by
          rw [hsubs]
          exact List.mem_cons_self
        exact .help hsub
    · cases hpositionals : c.positionals with
      | nil => simp [hpositionals] at hregister
      | cons p rest =>
        split at hregister
        next hid =>
          rw [registerNames_eq] at hregister
          exact .register hpositionals (by simpa [hpositionals] using hid) hregister
        next => cases hregister
  · intro h
    cases h with
    | name hsub => exact .inl (.inl ⟨_, hsub, .inl rfl⟩)
    | visibleAlias hsub halias => exact .inl (.inl ⟨_, hsub, .inr halias⟩)
    | @help sub hsub =>
      refine .inl (.inr ?_)
      cases hsubs : c.subcommands with
      | nil => simp [hsubs] at hsub
      | cons first rest => simp
    | register hpositionals hid hname =>
      refine .inr ?_
      rw [if_pos (by simp [hpositionals, hid]), registerNames_eq]
      exact hname

theorem continues_iff {typed name : String} :
    continues typed name = true ↔ ∃ rest, name = typed ++ rest := by
  rw [continues, List.isPrefixOf_iff_prefix]
  constructor
  · intro h
    obtain ⟨rest, hrest⟩ := h
    exact ⟨String.ofList rest, String.toList_inj.1 (by simp [hrest])⟩
  · intro h
    obtain ⟨rest, rfl⟩ := h
    exact ⟨rest.toList, by simp⟩

theorem candidates_cons {c : CommandSpec V} {first : String} {rest : List String} (h : rest ≠ []) :
    candidates c (first :: rest) =
      match c.find? first with
      | some sub => candidates sub rest
      | none => (0, []) := by
  cases rest with
  | nil => exact absurd rfl h
  | cons second rest => rfl

/-- Where no words lead, and where they lead somewhere. -/
theorem candidates_append_singleton (c : CommandSpec V) (init : List String) (last : String) :
    ((∀ node, ¬ Leads c init node) ∧ candidates c (init ++ [last]) = (0, [])) ∨
      ∃ node, Leads c init node ∧ (∀ node', Leads c init node' → node' = node) ∧
        candidates c (init ++ [last]) =
          (last.utf8ByteSize, sortNames ((offered node).filter (continues last))) := by
  induction init generalizing c with
  | nil => exact .inr ⟨c, .here, fun node' h => leads_nil_iff.1 h, rfl⟩
  | cons first init ih =>
    rw [List.cons_append, candidates_cons (by simp)]
    cases hfind : c.find? first with
    | none =>
      refine .inl ⟨fun node h => ?_, rfl⟩
      obtain ⟨sub, hsub, -⟩ := leads_cons_iff.1 h
      rw [hfind] at hsub
      cases hsub
    | some sub =>
      have hdown : ∀ node, Leads c (first :: init) node ↔ Leads sub init node := fun node => by
        rw [leads_cons_iff, hfind]
        simp
      simp only [hdown]
      exact ih sub

theorem mem_candidates_iff {c : CommandSpec V} {init : List String} {last name : String} :
    name ∈ (candidates c (init ++ [last])).2 ↔
      ∃ node, Leads c init node ∧ Offers node name ∧ ∃ rest, name = last ++ rest := by
  rcases candidates_append_singleton c init last with ⟨hnone, heq⟩ | ⟨node, hleads, honly, heq⟩
  · rw [heq]
    constructor
    · exact fun h => by cases h
    · intro h
      obtain ⟨node, hleads, -⟩ := h
      exact absurd hleads (hnone node)
  · rw [heq, mem_sortNames, List.mem_filter, mem_offered_iff, continues_iff]
    constructor
    · exact fun h => ⟨node, hleads, h⟩
    · intro h
      obtain ⟨node', hleads', h⟩ := h
      exact honly node' hleads' ▸ h

/-- Where something is offered, the bytes of the last word are what is typed. -/
theorem fst_candidates_of_mem {c : CommandSpec V} {init : List String} {last name : String}
    (h : name ∈ (candidates c (init ++ [last])).2) :
    (candidates c (init ++ [last])).1 = last.utf8ByteSize := by
  rcases candidates_append_singleton c init last with ⟨-, heq⟩ | ⟨node, -, -, heq⟩
  · rw [heq] at h
    cases h
  · rw [heq]

theorem pairwise_candidates (c : CommandSpec V) (words : List String) :
    (candidates c words).2.Pairwise (· < ·) := by
  rcases List.eq_nil_or_concat' words with rfl | ⟨init, last, rfl⟩
  · exact List.Pairwise.nil
  · rcases candidates_append_singleton c init last with ⟨-, heq⟩ | ⟨node, -, -, heq⟩
    · rw [heq]
      exact List.Pairwise.nil
    · rw [heq]
      exact pairwise_sortNames _

/-! ## On a line -/

theorem wordsBefore?_of_split {line : String} {pos : Nat} {text : List Char}
    {whole : List (List Char)} (htext : takeBytes? line.toList pos = some text)
    (hwhole : ShellWords.split text = some whole) :
    wordsBefore? line pos = some (whole.map String.ofList ++
      if text.getLast? = some ' ' ∨ text.getLast? = some '\t' then [""] else []) := by
  simp only [wordsBefore?, htext, hwhole, Option.bind_eq_bind, Option.bind_some]
  split
  next h => rw [if_pos (.inl h)]
  next h => rw [if_pos (.inr h)]
  next hspace htab => rw [if_neg (not_or.2 ⟨hspace, htab⟩), List.append_nil]

theorem wordsBefore?_eq_some_iff {line : String} {pos : Nat} {words : List String} :
    wordsBefore? line pos = some words ↔ WordsAt line pos words := by
  constructor
  · intro h
    obtain ⟨text, htext, hrest⟩ := Option.bind_eq_some_iff.1 h
    obtain ⟨whole, hwhole, -⟩ := Option.bind_eq_some_iff.1 hrest
    rw [wordsBefore?_of_split htext hwhole, Option.some.injEq] at h
    exact ⟨text, whole, front_iff.2 htext, hwhole, h.symm⟩
  · intro h
    obtain ⟨text, whole, htext, hwhole, rfl⟩ := h
    exact wordsBefore?_of_split (front_iff.1 htext) hwhole

theorem WordsAt.unique {line : String} {pos : Nat} {words words' : List String}
    (h : WordsAt line pos words) (h' : WordsAt line pos words') : words = words' :=
  Option.some.inj ((wordsBefore?_eq_some_iff.2 h).symm.trans (wordsBefore?_eq_some_iff.2 h'))

theorem complete_of_wordsAt {line : String} {pos : Nat} {words : List String}
    (h : WordsAt line pos words) (c : CommandSpec V) :
    complete c line pos = (pos - (candidates c words).1, (candidates c words).2) := by
  rw [complete, candidatesAt?, wordsBefore?_eq_some_iff.2 h]
  rfl

theorem complete_of_no_words {line : String} {pos : Nat} (h : ∀ words, ¬ WordsAt line pos words)
    (c : CommandSpec V) : complete c line pos = (pos, []) := by
  have hnone : wordsBefore? line pos = none :=
    Option.eq_none_iff_forall_ne_some.2 fun words hwords => h words (wordsBefore?_eq_some_iff.1 hwords)
  rw [complete, candidatesAt?, hnone]
  rfl

theorem pairwise_complete (c : CommandSpec V) (line : String) (pos : Nat) :
    (complete c line pos).2.Pairwise (· < ·) := by
  by_cases hwords : ∃ words, WordsAt line pos words
  · obtain ⟨words, hwords⟩ := hwords
    rw [complete_of_wordsAt hwords]
    exact pairwise_candidates c words
  · rw [complete_of_no_words (not_exists.1 hwords)]
    exact List.Pairwise.nil

/-- A candidate completes the last of some words. -/
theorem exists_of_mem_complete {c : CommandSpec V} {line name : String} {pos : Nat}
    (h : name ∈ (complete c line pos).2) :
    ∃ init last, WordsAt line pos (init ++ [last]) ∧ name ∈ (candidates c (init ++ [last])).2 := by
  by_cases hwords : ∃ words, WordsAt line pos words
  · obtain ⟨words, hwords⟩ := hwords
    rw [complete_of_wordsAt hwords] at h
    rcases List.eq_nil_or_concat' words with rfl | ⟨init, last, rfl⟩
    · cases h
    · exact ⟨init, last, hwords, h⟩
  · rw [complete_of_no_words (not_exists.1 hwords)] at h
    cases h

theorem mem_complete_iff {c : CommandSpec V} {line name : String} {pos : Nat} :
    name ∈ (complete c line pos).2 ↔
      ∃ init last node, WordsAt line pos (init ++ [last]) ∧ Leads c init node ∧ Offers node name ∧
        ∃ rest, name = last ++ rest := by
  constructor
  · intro h
    obtain ⟨init, last, hwords, hmem⟩ := exists_of_mem_complete h
    obtain ⟨node, hnode⟩ := mem_candidates_iff.1 hmem
    exact ⟨init, last, node, hwords, hnode⟩
  · intro h
    obtain ⟨init, last, node, hwords, hnode⟩ := h
    rw [complete_of_wordsAt hwords]
    exact mem_candidates_iff.2 ⟨node, hnode⟩

theorem dropBytes?_typed (typed rest : String) :
    (dropBytes? (typed ++ rest).toList typed.utf8ByteSize).map String.ofList = some rest := by
  rw [String.toList_append, ← byteLength_toList, dropBytes?_append]
  simp

/-- The hint goes on from the last word to the only candidate. -/
theorem hint?_eq_some_iff {c : CommandSpec V} {line rest : String} {pos : Nat} :
    hint? c line pos = some rest ↔
      ∃ init last, WordsAt line pos (init ++ [last]) ∧ (complete c line pos).2 = [last ++ rest] := by
  constructor
  · intro h
    unfold hint? candidatesAt? at h
    split at h
    next typed only hcandidates =>
      obtain ⟨words, hwords, hcandidates⟩ := Option.map_eq_some_iff.1 hcandidates
      have hwords := wordsBefore?_eq_some_iff.1 hwords
      have hnames : (complete c line pos).2 = [only] := by rw [complete_of_wordsAt hwords, hcandidates]
      obtain ⟨init, last, hlast, hmem⟩ :=
        exists_of_mem_complete (c := c) (by rw [hnames]; exact List.mem_singleton_self only)
      obtain rfl := hwords.unique hlast
      obtain ⟨node, -, -, more, rfl⟩ := mem_candidates_iff.1 hmem
      have htyped : typed = last.utf8ByteSize := by
        rw [← fst_candidates_of_mem hmem, hcandidates]
      rw [htyped, dropBytes?_typed] at h
      cases h
      exact ⟨init, last, hlast, hnames⟩
    · cases h
  · intro h
    obtain ⟨init, last, hwords, hnames⟩ := h
    rw [complete_of_wordsAt hwords] at hnames
    have hmem : last ++ rest ∈ (candidates c (init ++ [last])).2 := by
      rw [hnames]
      exact List.mem_singleton_self _
    have htyped := fst_candidates_of_mem hmem
    have hcandidates : candidatesAt? c line pos = some (last.utf8ByteSize, [last ++ rest]) := by
      rw [candidatesAt?, wordsBefore?_eq_some_iff.2 hwords, Option.map_some, ← htyped, ← hnames]
    rw [hint?, hcandidates]
    exact dropBytes?_typed last rest

/-- The words that a completion offers at a place of a line, and the hint there. -/
structure OffersExactly (c : CommandSpec V) (line : String) (pos : Nat) (names : List String)
    (hint? : Option String) : Prop where
  ordered : names.Pairwise (· < ·)
  offered : ∀ name, name ∈ names ↔
    ∃ init last node, WordsAt line pos (init ++ [last]) ∧ Leads c init node ∧ Offers node name ∧
      ∃ rest, name = last ++ rest
  hinted : (∃ rest, hint? = some rest) ↔ ∃ only, names = [only]
  hint : ∀ rest, hint? = some rest →
    ∃ init last, WordsAt line pos (init ++ [last]) ∧ names = [last ++ rest]

/-- **Completion offers the right words.** -/
theorem complete_offers (c : CommandSpec V) (line : String) (pos : Nat) :
    OffersExactly c line pos (complete c line pos).2 (hint? c line pos) where
  ordered := pairwise_complete c line pos
  offered name := mem_complete_iff
  hinted := by
    constructor
    · intro h
      obtain ⟨rest, hhint⟩ := h
      obtain ⟨init, last, -, hnames⟩ := hint?_eq_some_iff.1 hhint
      exact ⟨last ++ rest, hnames⟩
    · intro h
      obtain ⟨only, honly⟩ := h
      obtain ⟨init, last, -, hwords, -, -, rest, rfl⟩ :=
        mem_complete_iff.1 (by rw [honly]; exact List.mem_singleton_self only)
      exact ⟨rest, hint?_eq_some_iff.2 ⟨init, last, hwords, honly⟩⟩
  hint rest h := hint?_eq_some_iff.1 h

end Completion

end Mc6809
