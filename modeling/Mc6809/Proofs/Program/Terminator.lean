/-
What stands after a loaded program. Loading writes no end of its own: a program
that ends before the RAM does is followed by a zero cell, which ends it, but one
that fills the RAM to its last cell is followed by the ROM, whose first byte is
no opcode. Neither is warned of (`overflowWarned_iff`), so the lack of a warning
alone does not say how the program ends.
-/
import Mc6809.Proofs.Machine.Reset

namespace Mc6809

namespace Machine

variable {m : Machine}

theorem step_of_nop (hrun : m.state = .running) (hread : m.memory.read m.pc = 0x12) :
    m.step = (.executed .nop .inherent 1, (m.setPc (m.pc + 1)).counted) := by
  have hd : Encoding.decode? (m.memory.read m.pc) = some ⟨0x12, .nop, .inherent, 1⟩ := by
    rw [hread]
    rfl
  rw [step_of_decode? hrun hd]
  rfl

/-- What is read where nothing was programmed is no opcode. -/
theorem step_of_fill (hrun : m.state = .running) (hread : m.memory.read m.pc = Rom.fill) :
    m.step = (.invalidOpcode Rom.fill, (m.setPc (m.pc + 1)).halt.counted) := by
  have hd : Encoding.decode? (m.memory.read m.pc) = none := by
    rw [hread]
    rfl
  rw [step_of_no_entry hrun hd, hread]

end Machine

namespace Program

variable {p : Program}

/-- A program that fills the RAM is followed by the ROM. -/
theorem read_ofProgram_full (hsize : p.size = 0x8000) :
    (Machine.ofProgram p).memory.read (UInt16.ofNat p.size) = Rom.fill := by
  rw [hsize]
  exact (Memory.hasPowerOnRom (Machine.reachable_ofProgram p).rom).fill _ (by decide) (by decide)

/-- **What a program runs into past its end.** When no warning is given, the
byte after a program is the end-of-program opcode, unless the program fills
the RAM to its last byte. A processor that arrives there, with that byte as it
was loaded, ends the program; after one that fills the RAM it halts at the
invalid opcode `$FF` of the ROM. -/
theorem step_past_end (hquiet : ¬ p.OverflowWarned) :
    ((Machine.ofProgram p).memory.read (UInt16.ofNat p.size) = Encoding.sentinel ↔ p.size ≠ 0x8000) ∧
      ∀ m : Machine, m.state = .running → m.pc = UInt16.ofNat p.size →
        m.memory.read m.pc = (Machine.ofProgram p).memory.read m.pc →
        m.step.1 = if p.size = 0x8000 then .invalidOpcode Rom.fill else .ended := by
  rw [overflowWarned_iff] at hquiet
  by_cases hsize : p.size = 0x8000
  · have hread := read_ofProgram_full hsize
    refine ⟨⟨fun h => ?_, fun h => absurd hsize h⟩, fun m hrun hpc hsame => ?_⟩
    · rw [hread] at h
      cases h
    · rw [hpc, hread, ← hpc] at hsame
      rw [if_pos hsize, Machine.step_of_fill hrun hsame]
  · have hread := (loaded_ofProgram (show p.size < 0x8000 by omega)).last
    refine ⟨⟨fun _ => hsize, fun _ => hread⟩, fun m hrun hpc hsame => ?_⟩
    rw [hpc, hread, ← hpc] at hsame
    rw [if_neg hsize, Machine.step_of_sentinel hrun hsame]

/-! ## A program of any length -/

theorem read_nops {n k : Nat} (hn : n ≤ 0x8000) (hk : k < n) :
    (Machine.ofProgram (nops n)).memory.read (UInt16.ofNat k) = 0x12 := by
  have haddress : (UInt16.ofNat k).toNat = k := UInt16.toNat_ofNat_of_lt (by
    have hsize : UInt16.size = 65536 := rfl
    omega)
  have hlast : IsGreatest {i | i < (nops n).size ∧ i % 65536 = (UInt16.ofNat k).toNat} k := by
    rw [size_nops, haddress]
    refine ⟨⟨hk, Nat.mod_eq_of_lt (by omega)⟩, fun i hi => ?_⟩
    have hlt : i < n := hi.1
    have hmod : i % 65536 = k := hi.2
    omega
  have hread := Memory.read_load_last Memory.blank (by omega) hlast
  rw [bytes_nops, List.getElem?_replicate, if_pos hk] at hread
  rw [Machine.ofProgram_eq]
  exact (Option.some.inj hread).symm

/-- Instructions that do nothing are stepped over one by one. -/
theorem iterate_nops {n k : Nat} (hn : n ≤ 0x8000) (hk : k ≤ n) :
    Machine.iterate k (.ofProgram (nops n)) =
      { (Machine.ofProgram (nops n)).setPc (UInt16.ofNat k) with steps := k } := by
  induction k with
  | zero => rw [Machine.ofProgram_eq]; rfl
  | succ k ih =>
    have hread := read_nops hn (show k < n by omega)
    rw [Machine.iterate_succ, ih (by omega), Machine.step_of_nop ?_ hread, UInt16.ofNat_add]
    · rfl
    · rw [Machine.ofProgram_eq]
      rfl

/-- Past the last of them the program and its memory are as they were loaded. -/
theorem nops_arrive {n : Nat} (hn : n ≤ 0x8000) :
    (Machine.iterate n (.ofProgram (nops n))).state = .running ∧
      (Machine.iterate n (.ofProgram (nops n))).pc = UInt16.ofNat (nops n).size ∧
      (Machine.iterate n (.ofProgram (nops n))).memory = (Machine.ofProgram (nops n)).memory := by
  rw [iterate_nops hn (Nat.le_refl n), size_nops, Machine.ofProgram_eq]
  exact ⟨rfl, rfl, rfl⟩

theorem not_overflowWarned_nops {n : Nat} (hn : n ≤ 0x8000) : ¬ (nops n).OverflowWarned := by
  rw [overflowWarned_iff, size_nops]
  exact Nat.not_lt.2 hn

theorem step_past_nops :
    (Machine.ofProgram (nops 0x7FFF)).memory.read (UInt16.ofNat (nops 0x7FFF).size) = 0x00 ∧
      (Machine.iterate 0x7FFF (.ofProgram (nops 0x7FFF))).step.1 = .ended := by
  have hsize : (nops 0x7FFF).size = 0x7FFF := size_nops _
  obtain ⟨hrun, hpc, hmemory⟩ := nops_arrive (n := 0x7FFF) (by decide)
  obtain ⟨hread, hstep⟩ := step_past_end (not_overflowWarned_nops (n := 0x7FFF) (by decide))
  have hstep := hstep _ hrun hpc (by rw [hmemory])
  rw [if_neg (by omega)] at hstep
  exact ⟨hread.2 (by omega), hstep⟩

/-- A program that just fits: no warning is given, and yet it runs off its end
to an invalid opcode. -/
theorem nops_run_into_rom :
    ¬ (nops 0x8000).OverflowWarned ∧
      (Machine.ofProgram (nops 0x8000)).memory.read (UInt16.ofNat (nops 0x8000).size) = 0xFF ∧
      ∃ m, m = Machine.iterate 0x8000 (.ofProgram (nops 0x8000)) ∧
        m.state = .running ∧ m.pc = UInt16.ofNat (nops 0x8000).size ∧
        m.memory = (Machine.ofProgram (nops 0x8000)).memory ∧ m.step.1 = .invalidOpcode 0xFF := by
  have hsize : (nops 0x8000).size = 0x8000 := size_nops _
  obtain ⟨hrun, hpc, hmemory⟩ := nops_arrive (n := 0x8000) (Nat.le_refl _)
  have hread := read_ofProgram_full hsize
  refine ⟨not_overflowWarned_nops (Nat.le_refl _), hread, _, rfl, hrun, hpc, hmemory, ?_⟩
  rw [Machine.step_of_fill hrun (by rw [hmemory, hpc, hread])]
  rfl

end Program

end Mc6809
