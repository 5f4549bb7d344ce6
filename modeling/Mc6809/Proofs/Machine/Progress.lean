/-
How long a machine runs without branching. Outside the ROM a step that takes no
branch moves the program counter on (`pc_lt_of_no_branch`), whatever the bytes
are that it executes or overwrites, and in the ROM every step halts. So the
distance to the ROM bounds the number of steps between two taken branches, and
only a run that branches again and again can be endless.
-/
import Mc6809.Proofs.Disassembly.Stepping
import Mc6809.Proofs.Machine.Reachable

namespace Mc6809

namespace Machine

variable {m : Machine}

/-- In RAM, a step that takes no branch goes to a higher address. -/
theorem pc_lt_of_no_branch (hrun : m.state = .running) (hpc : m.pc.toNat < 0x8000)
    (hplain : m.step.1.landing? = none) : m.pc.toNat < m.step.2.pc.toNat := by
  have hsize := m.memory.size_disassemble_bounds m.pc
  have hpast := toNat_pc_step hrun hplain
  omega

/-- From at most `distance` cells before the ROM, one step more than that halts
unless a branch is taken. -/
theorem isHalted_of_no_branch (hrom : m.memory.rom = Rom.blank) {distance : ℕ}
    (hdistance : 0x8000 - m.pc.toNat ≤ distance)
    (hplain : ∀ k ≤ distance, (iterate k m).step.1.landing? = none) :
    (iterate (distance + 1) m).isHalted = true := by
  induction distance generalizing m with
  | zero =>
    cases hhalted : m.isHalted with
    | true => exact isHalted_iterate_of_le (j := 0) hhalted (Nat.zero_le 1)
    | false =>
      exact isHalted_eq_true.2 (step_of_rom hrom (isHalted_eq_false.1 hhalted) (by omega))
  | succ distance ih =>
    have hrest : ∀ k ≤ distance, (iterate k m.step.2).step.1.landing? = none := fun k hk =>
      hplain (k + 1) (by omega)
    cases hhalted : m.isHalted with
    | true => exact isHalted_iterate_of_le (j := 0) hhalted (Nat.zero_le _)
    | false =>
      have hrun := isHalted_eq_false.1 hhalted
      by_cases hpc : m.pc.toNat < 0x8000
      · have hlt := pc_lt_of_no_branch hrun hpc (hplain 0 (Nat.zero_le _))
        exact ih ((rom_step m).trans hrom) (by omega) hrest
      · have hstop := step_of_rom hrom hrun (by omega)
        exact isHalted_iterate_of_le (j := 1) (isHalted_eq_true.2 hstop) (by omega)

/-- Without a taken branch the machine halts within the number of steps that
it takes to walk to the ROM; in the ROM it halts at once; and if it never
halts, it branches again and again. -/
structure BranchBounded (m : Machine) : Prop where
  plain : (∀ k < max 1 (0x8000 - m.pc.toNat + 1), (iterate k m).step.1.landing? = none) →
    m.haltTime ≤ (max 1 (0x8000 - m.pc.toNat + 1) : ℕ)
  rom : 0x8000 ≤ m.pc.toNat → m.step.2.state = .halted
  endless : m.haltTime = ⊤ → {k | (iterate k m).step.1.landing? ≠ none}.Infinite

/-- **Bounded execution between taken branches.** -/
theorem Reachable.branchBounded (h : m.Reachable) (hrun : m.state = .running) : m.BranchBounded where
  plain := fun hplain => by
    have hmax : max 1 (0x8000 - m.pc.toNat + 1) = 0x8000 - m.pc.toNat + 1 := by omega
    rw [hmax] at hplain ⊢
    exact haltTime_le_iff.2 (isHalted_of_no_branch h.rom le_rfl fun k hk => hplain k (by omega))
  rom := step_of_rom h.rom hrun
  endless := fun htop => by
    rw [haltTime_eq_top_iff] at htop
    refine Set.infinite_of_not_bddAbove fun hbounded => ?_
    obtain ⟨last, hlast⟩ := hbounded
    -- After the last taken branch the machine would have to halt.
    have hplain : ∀ k, (iterate k (iterate (last + 1) m)).step.1.landing? = none := fun k => by
      rw [← iterate_add]
      by_contra hbranch
      have hle : last + 1 + k ≤ last := hlast hbranch
      omega
    have hhalted := isHalted_of_no_branch ((rom_iterate (last + 1) m).trans h.rom)
      (Nat.sub_le 0x8000 _) fun k _ => hplain k
    rw [← iterate_add, htop] at hhalted
    cases hhalted

/-- Branches from the start of memory to the top of it. -/
def jumpToRom : Program := ⟨[⟨"BRA", .direct 0x80⟩]⟩

theorem jumpToRom_branchBounded :
    (ofProgram jumpToRom).step.2.pc = 0xFF82 ∧ (ofProgram jumpToRom).step.2.step.2.state = .halted := by
  have hsize : jumpToRom.size < 0x8000 := by decide
  have hstep := (Program.loaded_ofProgram hsize).step (k := 0) (e := ⟨0x20, .bra, .direct, 2⟩) rfl
    (Program.ofProgram_pc hsize) rfl rfl
  have hpc : (ofProgram jumpToRom).step.2.pc = 0xFF82 := by
    rw [hstep]
    show Mc6809.branchTarget ((ofProgram jumpToRom).pc + 2) 0x80 = 0xFF82
    rw [Program.ofProgram_pc hsize]
    decide
  have hrun : (ofProgram jumpToRom).step.2.state = .running := by
    rw [hstep]
    rfl
  refine ⟨hpc, (Reachable.branchBounded (reachable_ofProgram jumpToRom).step hrun).rom ?_⟩
  rw [hpc]
  decide

end Machine

end Mc6809
