/-
What a step changes, written in plain numbers. An `Effect` gives the new value
of each register, flag and cell that gets one; `Effect.Holds` says that these
changed and nothing else did. Since it fixes every part of the machine, two
machines that the same effect leads to are equal (`Effect.Holds.unique`).
-/
import Mc6809.Machine
import Mc6809.Proofs.Machine.ConditionCodes
import Mc6809.Proofs.Machine.Memory

namespace Mc6809

/-- The new values of what a step changes. What has none is kept. -/
structure Effect where
  a : Option Nat := none
  b : Option Nat := none
  x : Option Nat := none
  flags : Flag → Option Bool := fun _ => none
  /-- The bytes that are stored, with their addresses. -/
  stores : List (Address × Nat) := []
  /-- The next instruction, before the address wraps. -/
  pc : Int
  halts : Bool := false

namespace Effect

/-- The flags of a result whose sign is set from `top` on. Only a result with
a carry changes the carry flag. -/
def flagsOf (top result : Nat) (carry : Option Bool) : Flag → Option Bool
  | .negative => some (decide (top ≤ result))
  | .zero => some (decide (result = 0))
  | .carry => carry
  | _ => none

/-- A result that goes to an accumulator and to the flags. -/
def ofResult (acc : Accumulator) (result : Nat) (carry : Option Bool) (pc : Int) : Effect :=
  { a := if acc = .a then some result else none
    b := if acc = .b then some result else none
    flags := flagsOf 128 result carry
    pc := pc }

/-- One step from `m` leads to `m'` with this effect and no other. Stores reach
RAM only, and the step is counted. -/
structure Holds (f : Effect) (m m' : Machine) : Prop where
  a : m'.registers.a.toNat = f.a.getD m.registers.a.toNat
  b : m'.registers.b.toNat = f.b.getD m.registers.b.toNat
  x : m'.registers.x.toNat = f.x.getD m.registers.x.toNat
  dp : m'.registers.dp = m.registers.dp
  y : m'.registers.y = m.registers.y
  s : m'.registers.s = m.registers.s
  u : m'.registers.u = m.registers.u
  pc : (m'.registers.pc.toNat : Int) = f.pc % 65536
  flags : ∀ flag, m'.registers.cc.has flag = (f.flags flag).getD (m.registers.cc.has flag)
  memory : ∀ address, (m'.memory.read address).toNat =
    if address.toNat < 0x8000 then (f.stores.lookup address).getD (m.memory.read address).toNat
    else (m.memory.read address).toNat
  state : m'.state = if f.halts then .halted else .running
  steps : m'.steps = m.steps + 1

/-- An effect leaves nothing open. -/
theorem Holds.unique {f : Effect} {m m₁ m₂ : Machine} (h₁ : f.Holds m m₁) (h₂ : f.Holds m m₂) :
    m₁ = m₂ := by
  have ha : m₁.registers.a = m₂.registers.a := UInt8.toNat_inj.1 (h₁.a.trans h₂.a.symm)
  have hb : m₁.registers.b = m₂.registers.b := UInt8.toNat_inj.1 (h₁.b.trans h₂.b.symm)
  have hx : m₁.registers.x = m₂.registers.x := UInt16.toNat_inj.1 (h₁.x.trans h₂.x.symm)
  have hdp := h₁.dp.trans h₂.dp.symm
  have hy := h₁.y.trans h₂.y.symm
  have hs := h₁.s.trans h₂.s.symm
  have hu := h₁.u.trans h₂.u.symm
  have hpc : m₁.registers.pc = m₂.registers.pc :=
    UInt16.toNat_inj.1 (Int.ofNat.inj (h₁.pc.trans h₂.pc.symm))
  have hcc : m₁.registers.cc = m₂.registers.cc :=
    ConditionCodes.ext_has fun flag => (h₁.flags flag).trans (h₂.flags flag).symm
  have hmemory : m₁.memory = m₂.memory :=
    Memory.ext_read fun address =>
      UInt8.toNat_inj.1 ((h₁.memory address).trans (h₂.memory address).symm)
  have hstate := h₁.state.trans h₂.state.symm
  have hsteps := h₁.steps.trans h₂.steps.symm
  obtain ⟨⟨a, b, dp, cc, x, y, s, u, pc⟩, memory, state, steps⟩ := m₁
  obtain ⟨⟨a', b', dp', cc', x', y', s', u', pc'⟩, memory', state', steps'⟩ := m₂
  simp only at ha hb hx hdp hy hs hu hpc hcc hmemory hstate hsteps
  rw [ha, hb, hx, hdp, hy, hs, hu, hpc, hcc, hmemory, hstate, hsteps]

/-- So a machine is the next one exactly if it shows the effect, once one does. -/
theorem Holds.eq_iff {f : Effect} {m m₁ m₂ : Machine} (h₁ : f.Holds m m₁) : m₁ = m₂ ↔ f.Holds m m₂ := by
  constructor
  · intro h
    subst h
    exact h₁
  · exact h₁.unique

end Effect

end Mc6809
