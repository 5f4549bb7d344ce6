/-
What the listings of a program show. The command and the page list the same
lines, one for each instruction, and a row shows its line without loss: what
stands in its columns is read back by `ListingLine.ofRow`.

The lines follow one another from the start of the RAM on (`Spans`), as the
loader places the bytes. So when a program fits, each line says what is in
memory at its address, and where no line says anything memory is zero
(`listings_exact`).
-/
import Mc6809.Invocation
import Mc6809.Proofs.Assembler.Readback
import Mc6809.Proofs.Drivers
import Mc6809.Proofs.Program.Placement

namespace Mc6809

open Literal

namespace Text

theorem toList_padRight (width : Nat) (text : String) :
    (padRight width text).toList = text.toList ++ List.replicate (width - text.length) ' ' := by
  rw [padRight, String.toList_append, String.toList_ofList]

end Text

open Text (words Blanks IsWord)

/-! ## The columns of a row -/

theorem isWord_fixed {width n : Nat} (hpos : 0 < width) : IsWord (Digits.fixed 16 width n) :=
  ⟨(isNumeral_fixed hpos).1, fun c hc => (isDigit_of_mem_fixed c hc).isPlain.1⟩

namespace ListingLine

/-- The column that the text of an instruction starts at. -/
def textColumn : Nat := 4 + 2 + bytesWidth + 2

/-- The line that a row shows, read by its columns. -/
def ofRow (row : String) : ListingLine :=
  let columns := row.toList
  { address := .ofNat (placeValue 16 (columns.take 4))
    bytes := (words ((columns.drop 6).take bytesWidth)).map fun digits =>
      .ofNat (placeValue 16 digits)
    text := .ofList (columns.drop textColumn) }

/-- The bytes of a line as its row shows them, spaces included. -/
def byteColumns (line : ListingLine) : List Char :=
  (Text.padRight bytesWidth (" ".intercalate (line.bytes.map Byte.hex))).toList

variable {line : ListingLine}

theorem toList_row (line : ListingLine) :
    line.row.toList = Digits.fixed 16 4 line.address.toNat ++ "  ".toList ++ line.byteColumns ++
      "  ".toList ++ line.text.toList := by
  rw [row, Word.hex, byteColumns]
  simp only [String.toList_append, String.toList_ofList]

theorem toList_intercalate_hex (bytes : List Byte) :
    (" ".intercalate (bytes.map Byte.hex)).toList =
      [' '].intercalate (bytes.map fun b => Digits.fixed 16 2 b.toNat) := by
  rw [String.toList_intercalate, List.map_map]
  refine congrArg _ (List.map_congr_left fun b _ => ?_)
  exact String.toList_ofList

/-- The bytes are what is read between the blanks. -/
theorem words_byteColumns (line : ListingLine) :
    words line.byteColumns = line.bytes.map fun b => Digits.fixed 16 2 b.toNat := by
  have hblanks : Blanks (List.replicate (bytesWidth -
      (" ".intercalate (line.bytes.map Byte.hex)).length) ' ') := fun c hc => by
    rw [List.eq_of_mem_replicate hc]
    rfl
  rw [byteColumns, Text.toList_padRight, Text.words_append_blanks hblanks, toList_intercalate_hex]
  refine Text.words_intercalate fun w hw => ?_
  obtain ⟨b, -, rfl⟩ := List.mem_map.1 hw
  exact isWord_fixed (by decide)

/-- Three bytes fill their columns, fewer are padded. -/
theorem length_byteColumns (h : line.bytes.length ≤ 3) : line.byteColumns.length = bytesWidth := by
  have hle : (" ".intercalate (line.bytes.map Byte.hex)).length ≤ bytesWidth := by
    rw [← String.length_toList, toList_intercalate_hex]
    obtain ⟨address, bytes, text⟩ := line
    match bytes, h with
    | [], _ => simp
    | [_], _ => simp [Digits.length_fixed, bytesWidth]
    | [_, _], _ => simp [Digits.length_fixed, bytesWidth]
    | [_, _, _], _ => simp [Digits.length_fixed, bytesWidth]
  rw [byteColumns, Text.toList_padRight, List.length_append, String.length_toList,
    List.length_replicate, Nat.add_sub_cancel' hle]

/-- The text of every instruction starts at the same column. -/
theorem drop_textColumn_row (h : line.bytes.length ≤ 3) :
    line.row.toList.drop textColumn = line.text.toList := by
  rw [toList_row]
  refine List.drop_left' ?_
  simp only [List.length_append, Digits.length_fixed, length_byteColumns h]
  rfl

theorem byteColumns_of_row (h : line.bytes.length ≤ 3) :
    (line.row.toList.drop 6).take bytesWidth = line.byteColumns := by
  have hdrop : line.row.toList.drop 6 = line.byteColumns ++ ("  ".toList ++ line.text.toList) := by
    rw [toList_row, List.append_assoc, List.append_assoc]
    exact List.drop_left' (by rw [List.length_append, Digits.length_fixed]; rfl)
  rw [hdrop]
  exact List.take_left' (length_byteColumns h)

theorem ofNat_placeValue_byte (b : Byte) : UInt8.ofNat (placeValue 16 (Digits.fixed 16 2 b.toNat)) = b := by
  have hcapacity : b.toNat < Digits.capacity 16 2 := b.toNat_lt
  rw [placeValue_fixed hcapacity, UInt8.ofNat_toNat]

/-- A row shows all of its line. -/
theorem ofRow_row (h : line.bytes.length ≤ 3) : ofRow line.row = line := by
  have haddress : UInt16.ofNat (placeValue 16 (line.row.toList.take 4)) = line.address := by
    have htake : line.row.toList.take 4 = Digits.fixed 16 4 line.address.toNat := by
      rw [toList_row]
      simp only [List.append_assoc]
      exact List.take_left' (Digits.length_fixed ..)
    have hcapacity : line.address.toNat < Digits.capacity 16 4 := line.address.toNat_lt
    rw [htake, placeValue_fixed hcapacity, UInt16.ofNat_toNat]
  have hbytes : ((words ((line.row.toList.drop 6).take bytesWidth)).map fun digits =>
      UInt8.ofNat (placeValue 16 digits)) = line.bytes := by
    rw [byteColumns_of_row h, words_byteColumns, List.map_map]
    exact (List.map_congr_left fun b _ => ofNat_placeValue_byte b).trans (List.map_id _)
  rw [ofRow]
  simp only [haddress, hbytes, drop_textColumn_row h, String.ofList_toList]

/-- Before its text a row has spaces and digits only. -/
theorem mem_row {c : Char} (h : c ∈ line.row.toList) : c = ' ' ∨ IsDigit 16 c ∨ c ∈ line.text.toList := by
  have hspaces : ∀ c ∈ "  ".toList, c = ' ' := by simp
  rw [toList_row, List.mem_append, List.mem_append, List.mem_append, List.mem_append] at h
  rcases h with (((h | h) | h) | h) | h
  · exact .inr (.inl (isDigit_of_mem_fixed c h))
  · exact .inl (hspaces c h)
  · rw [byteColumns, Text.toList_padRight, toList_intercalate_hex, List.mem_append] at h
    rcases h with h | h
    · rcases Text.mem_of_mem_intercalate h with h | ⟨w, hw, h⟩
      · exact .inl (List.mem_singleton.1 h)
      · obtain ⟨b, -, rfl⟩ := List.mem_map.1 hw
        exact .inr (.inl (isDigit_of_mem_fixed c h))
    · exact .inl (List.eq_of_mem_replicate h)
  · exact .inl (hspaces c h)
  · exact .inr (.inr h)

/-! ## Lines one after the other -/

/-- The line shows what is in this cell. -/
def Covers (line : ListingLine) (address : Address) : Prop :=
  line.address.toNat ≤ address.toNat ∧ address.toNat < line.address.toNat + line.bytes.length

instance (line : ListingLine) (address : Address) : Decidable (line.Covers address) :=
  inferInstanceAs (Decidable (_ ∧ _))

/-- The bytes of the lines follow one another, from a place up to another. -/
def Spans : (start stop : Nat) → List ListingLine → Prop
  | start, stop, [] => start = stop
  | start, stop, line :: rest =>
    line.address.toNat = start ∧ Spans (start + line.bytes.length) stop rest

variable {lines : List ListingLine} {start stop : Nat}

theorem Spans.le (h : Spans start stop lines) : start ≤ stop := by
  induction lines generalizing start with
  | nil => exact Nat.le_of_eq h
  | cons line rest ih => exact (Nat.le_add_right _ _).trans (ih h.2)

/-- They show the cells between the two places, and no other. -/
theorem Spans.covers_iff (h : Spans start stop lines) {address : Address} :
    (∃ line ∈ lines, line.Covers address) ↔ start ≤ address.toNat ∧ address.toNat < stop := by
  induction lines generalizing start with
  | nil =>
    obtain rfl : start = stop := h
    simp only [List.not_mem_nil, false_and, exists_false, false_iff]
    omega
  | cons line rest ih =>
    obtain ⟨haddress, hrest⟩ := h
    have hle := hrest.le
    rw [List.exists_mem_cons_iff, ih hrest, Covers, haddress]
    omega

end ListingLine

/-! ## The lines of a program -/

namespace Program

open ListingLine (Spans)

variable {p : Program}

theorem getElem?_lines {k : Nat} (hk : k < p.instructions.length) :
    p.lines[k]? = some ⟨UInt16.ofNat (p.offset k), p.instructions[k].bytes, p.instructions[k].text⟩ := by
  rw [lines, List.getElem?_map, getElem?_layout p hk]
  rfl

theorem length_lines (p : Program) : p.lines.length = p.instructions.length := by
  rw [lines, List.length_map, length_layout]

/-- A line is that of an instruction, at its place. -/
theorem exists_of_mem_lines {line : ListingLine} (h : line ∈ p.lines) :
    ∃ (k : Nat) (hk : k < p.instructions.length),
      line = ⟨UInt16.ofNat (p.offset k), p.instructions[k].bytes, p.instructions[k].text⟩ := by
  obtain ⟨k, hget⟩ := List.mem_iff_getElem?.1 h
  have hk : k < p.instructions.length := by
    rw [← length_lines]
    exact (List.getElem?_eq_some_iff.1 hget).1
  rw [getElem?_lines hk] at hget
  exact ⟨k, hk, (Option.some.inj hget).symm⟩

theorem spans_layoutFrom {start : Address} {is : List Instruction}
    (hfits : start.toNat + size ⟨is⟩ ≤ 0x8000) :
    Spans start.toNat (start.toNat + size ⟨is⟩)
      ((layoutFrom start is).map fun (address, i) => ⟨address, i.bytes, i.text⟩) := by
  induction is generalizing start with
  | nil => rfl
  | cons i is ih =>
    have hsize : size ⟨i :: is⟩ = i.size + size ⟨is⟩ := rfl
    have hnext : (start + i.size.toUInt16).toNat = start.toNat + i.size := by
      have hmod : i.size.toUInt16.toNat = i.size % 65536 := UInt16.toNat_ofNat'
      rw [UInt16.toNat_add, hmod]
      omega
    rw [hsize] at hfits ⊢
    refine ⟨rfl, ?_⟩
    rw [← Nat.add_assoc]
    show Spans (start.toNat + i.bytes.length) _ _
    rw [i.length_bytes, ← hnext]
    exact ih (by omega)

theorem spans_lines (hfits : p.size ≤ 0x8000) : Spans 0 p.size p.lines := by
  have hstart : programStart.toNat = 0 := rfl
  have hspans : Spans programStart.toNat (programStart.toNat + p.size) p.lines :=
    spans_layoutFrom (by
      rw [hstart, Nat.zero_add]
      exact hfits)
  rwa [hstart, Nat.zero_add] at hspans

/-- Each line says what is in memory at its address. -/
theorem dump_of_mem_lines (hfits : p.size ≤ 0x8000) {line : ListingLine} (h : line ∈ p.lines) :
    (Machine.ofProgram p).memory.dump line.address line.bytes.length = line.bytes := by
  obtain ⟨k, hk, rfl⟩ := exists_of_mem_lines h
  exact (at_instruction (at_ofProgram hfits) hk).dump

end Program

/-! ## Both listings -/

theorem InvocationEvent.entry_assembled (instructions bytes : Nat) :
    (assembled instructions bytes).entry = ⟨.info, .assembling, "Program assembled",
      [⟨"instructions", toString instructions⟩, ⟨"bytes", toString bytes⟩]⟩ := rfl

theorem sourceText_toUTF8 (source : String) : sourceText (.ok source.toUTF8) = .ok source := by
  have htext : String.fromUTF8? source.toUTF8 = some source := dif_pos source.isValidUTF8
  simp only [sourceText, htext]

/-- Listing the file that holds a source: the records of assembling it, and the listing. -/
theorem listFile_of_assemble {source : String} {p : Program} (h : assemble source = .ok p)
    (path : String) :
    listFile path (.ok source.toUTF8) =
      ⟨.ofInvocation (.reading path) :: (assembleRecords source).map .record ++ p.listingOutputs, 0⟩ := by
  rw [listFile, assembleFile, sourceText_toUTF8]
  simp only [h]

/-- What is put out besides the rows are records of the log. -/
theorem filterMap_line?_listFile {source : String} {p : Program} (h : assemble source = .ok p)
    (path : String) :
    (listFile path (.ok source.toUTF8)).outputs.filterMap Output.line? =
      p.lines.map ListingLine.row := by
  have hrecords : ∀ {α : Type} (xs : List α) (f : α → Log.Record),
      (xs.map fun x => Output.record (f x)).filterMap Output.line? = [] := fun xs f => by
    simp [List.filterMap_map, Output.line?, Function.comp_def]
  have hrows : (p.lines.map fun line => Output.line line.row).filterMap Output.line? =
      p.lines.map ListingLine.row := by
    simp [List.filterMap_map, Output.line?, Function.comp_def]
  rw [listFile_of_assemble h, Program.listingOutputs]
  simp only [List.cons_append, List.filterMap_cons, List.filterMap_append, List.filterMap_nil,
    Output.ofInvocation, Output.line?, hrecords, hrows, List.nil_append, List.append_nil]

namespace Program

/-- What the page and the command list of a program, and what is in memory once
the program is loaded. -/
structure ListedExactly (p : Program) (page : Listing) (command : Outcome) : Prop where
  /-- The lines are those of the instructions, in order. -/
  length : page.lines.length = p.instructions.length
  line : ∀ (k : Nat) (hk : k < p.instructions.length), page.lines[k]? =
    some ⟨UInt16.ofNat (p.offset k), p.instructions[k].bytes, p.instructions[k].text⟩
  /-- The rows are those of the lines, and each of them is one line of text. -/
  rows : command.outputs.filterMap Output.line? = page.lines.map ListingLine.row
  unbroken : ∀ line ∈ page.lines, '\n' ∉ line.row.toList
  /-- Both tell the size. -/
  size : page.size = p.size
  reported : Output.ofInvocation (.assembled p.instructions.length page.size) ∈ command.outputs
  logged : ⟨.info, .assembling, "Program assembled",
    [⟨"instructions", toString p.instructions.length⟩, ⟨"bytes", toString page.size⟩]⟩ ∈
      command.outputs.filterMap Output.entry?
  /-- Each line shows the memory at its address. -/
  memory : ∀ line ∈ page.lines,
    (Machine.ofProgram p).memory.dump line.address line.bytes.length = line.bytes
  spans : ListingLine.Spans 0 page.size page.lines
  blank : ∀ address : Address, address.toNat < 0x8000 → (∀ line ∈ page.lines, ¬ line.Covers address) →
    (Machine.ofProgram p).memory.read address = 0
  /-- Nothing of a line is lost in its row. -/
  column : ∀ line ∈ page.lines, line.row.toList.drop ListingLine.textColumn = line.text.toList
  readBack : ∀ line ∈ page.lines, ListingLine.ofRow line.row = line

/-- **Listings describe the loaded memory.** -/
theorem listings_exact {source : String} {p : Program} (h : assemble source = .ok p)
    (hfits : p.size ≤ 0x8000) (s : Simulator) (path : String) :
    ∃ page, s.assemble source = (.ok page, ⟨Machine.ofProgram p⟩) ∧
      p.ListedExactly page (listFile path (.ok source.toUTF8)) := by
  have hthree : ∀ line ∈ p.lines, line.bytes.length ≤ 3 := by
    intro line hline
    obtain ⟨k, hk, rfl⟩ := exists_of_mem_lines hline
    rw [Instruction.length_bytes]
    exact (Instruction.size_bounds _).2
  have hreported : Output.ofInvocation (.assembled p.instructions.length p.size) ∈
      (listFile path (.ok source.toUTF8)).outputs := by
    rw [listFile_of_assemble h, listingOutputs]
    simp
  refine ⟨⟨p.lines, p.size⟩, by rw [Simulator.assemble, h], ?_⟩
  exact {
    length := p.length_lines
    line := fun _ => getElem?_lines
    rows := filterMap_line?_listFile h path
    unbroken := by
      intro line hline hfeed
      obtain ⟨k, hk, rfl⟩ := exists_of_mem_lines hline
      rcases ListingLine.mem_row hfeed with hspace | hdigit | htext
      · exact absurd hspace (by decide)
      · exact absurd hdigit (by decide)
      · exact (isSourced_of_assemble h _ (List.getElem_mem hk)).not_mem_lineFeed htext
    size := rfl
    reported := hreported
    logged := by
      rw [← InvocationEvent.entry_assembled]
      exact List.mem_filterMap.2 ⟨_, hreported, rfl⟩
    memory := fun _ => dump_of_mem_lines hfits
    spans := spans_lines hfits
    blank := by
      intro address hram huncovered
      refine read_ofProgram_past (Nat.le_of_not_lt fun hlt => ?_) hram
      obtain ⟨line, hline, hcovers⟩ := (spans_lines hfits).covers_iff.2 ⟨Nat.zero_le _, hlt⟩
      exact huncovered line hline hcovers
    column := fun line hline => ListingLine.drop_textColumn_row (hthree line hline)
    readBack := fun line hline => ListingLine.ofRow_row (hthree line hline) }

/-- An instruction of each size, one whose operand is cut to a byte and one
that has no encoding. -/
def mixedSizes : Program :=
  ⟨[⟨"LDX", .immediate 0x1234⟩, ⟨"LDA", .immediate 300⟩, ⟨"FOO", .direct 0x10⟩, ⟨"INCA", .inherent⟩]⟩

theorem mixedSizes_listed :
    assemble "LDX #$1234\nLDA #300\nFOO 16\nINCA\nEND" = .ok mixedSizes ∧
      (listFile "mixed.asm" (.ok "LDX #$1234\nLDA #300\nFOO 16\nINCA\nEND".toUTF8)).outputs.filterMap
          Output.line? =
        ["0000  8E 12 34  LDX #$1234", "0003  86 2C     LDA #$12C", "0005  00 10     FOO $10",
          "0007  4C        INCA"] ∧
      ListingLine.ofRow "0003  86 2C     LDA #$12C" = ⟨0x0003, [0x86, 0x2C], "LDA #$12C"⟩ ∧
      (Machine.ofProgram mixedSizes).memory.dump 0x0003 2 = [0x86, 0x2C] ∧
      (Machine.ofProgram mixedSizes).memory.read 0x0008 = 0 := by
  have hassemble : assemble "LDX #$1234\nLDA #300\nFOO 16\nINCA\nEND" = .ok mixedSizes := by rfl
  obtain ⟨page, hpage, hlisted⟩ :=
    listings_exact hassemble (by decide) Simulator.initial "mixed.asm"
  obtain rfl : ⟨mixedSizes.lines, mixedSizes.size⟩ = page := by
    rw [Simulator.assemble, hassemble, Prod.mk.injEq] at hpage
    exact Except.ok.inj hpage.1
  have hline : ⟨0x0003, [0x86, 0x2C], "LDA #$12C"⟩ ∈ mixedSizes.lines := by decide
  have hrow : ListingLine.row ⟨0x0003, [0x86, 0x2C], "LDA #$12C"⟩ = "0003  86 2C     LDA #$12C" := by
    decide
  have hrows : mixedSizes.lines.map ListingLine.row = ["0000  8E 12 34  LDX #$1234",
      "0003  86 2C     LDA #$12C", "0005  00 10     FOO $10", "0007  4C        INCA"] := by decide
  have hmemory := hlisted.memory _ hline
  refine ⟨hassemble, hlisted.rows.trans hrows, ?_, hmemory, ?_⟩
  · rw [← hrow]
    exact hlisted.readBack _ hline
  · exact hlisted.blank 0x0008 (by decide) (by decide)

end Program

end Mc6809
