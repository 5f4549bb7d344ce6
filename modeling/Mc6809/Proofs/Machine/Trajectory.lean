/-
How long a machine runs. `haltTime` is the number of steps that leave it
halted, `⊤` if none does. Whatever drives a machine stops when it is halted or
when a bound of its own is reached, so it makes the lesser of the two numbers
of steps (`Makes`); `makes_succ_iff` follows that number along one step, and
`trail` lists the machines that it goes through.
-/
import Mathlib.Data.ENat.Lattice
import Mc6809.Proofs.Program.Execution

namespace Mc6809

namespace Machine

variable {m : Machine}

theorem iterate_add (j k : Nat) (m : Machine) : iterate (j + k) m = iterate k (iterate j m) := by
  induction j generalizing m with
  | zero => rw [Nat.zero_add]; rfl
  | succ j ih => rw [Nat.succ_add, iterate, ih]; rfl

theorem iterate_of_isHalted (h : m.isHalted = true) (n : Nat) : iterate n m = m := by
  induction n with
  | zero => rfl
  | succ n ih => rw [iterate, step_of_isHalted h, ih]

theorem isHalted_iterate_of_le {j k : Nat} (h : (iterate j m).isHalted = true) (hle : j ≤ k) :
    (iterate k m).isHalted = true := by
  obtain ⟨d, rfl⟩ := Nat.exists_eq_add_of_le hle
  rw [iterate_add, iterate_of_isHalted h]
  exact h

/-- The trace of a step tells whether it halts the processor. -/
theorem isHalt_step (h : m.isHalted = false) : m.step.1.isHalt = m.step.2.isHalted := by
  have hrun := isHalted_eq_false.1 h
  cases hd : Encoding.decode? (m.memory.read m.pc) with
  | none => rw [step_of_no_entry hrun hd]; rfl
  | some e =>
    have hstate := perform_state (m.past e) e (m.memory.operandAt e m.pc)
    rw [step_of_decode? hrun hd, perform_trace, isHalted]
    simp only [counted]
    rw [hstate]
    by_cases hstop : e.mnemonic = .stop
    · rw [if_pos hstop, if_pos hstop]
      rfl
    · rw [if_neg hstop, if_neg hstop, show (m.past e).state = .running from hrun]
      split <;> rfl

/-! ## The time of the halt -/

/-- The least number of steps that leave the machine halted, `⊤` if none does. -/
noncomputable def haltTime (m : Machine) : ℕ∞ :=
  ⨅ (n : ℕ) (_ : (iterate n m).isHalted = true), (n : ℕ∞)

theorem haltTime_le_iff {n : ℕ} : m.haltTime ≤ n ↔ (iterate n m).isHalted = true := by
  constructor
  · intro h
    by_contra hrun
    have hlater : ((n + 1 : ℕ) : ℕ∞) ≤ m.haltTime := by
      refine le_iInf₂ fun k hk => ENat.natCast_le_natCast.2 (Nat.lt_of_not_le fun hle => ?_)
      exact hrun (isHalted_iterate_of_le hk hle)
    have hle := ENat.natCast_le_natCast.1 (hlater.trans h)
    omega
  · intro h
    exact iInf₂_le n h

theorem lt_haltTime_iff {n : ℕ} : (n : ℕ∞) < m.haltTime ↔ (iterate n m).isHalted = false := by
  rw [← not_le, haltTime_le_iff, Bool.not_eq_true]

theorem haltTime_eq_top_iff : m.haltTime = ⊤ ↔ ∀ n, (iterate n m).isHalted = false := by
  rw [ENat.eq_top_iff_forall_gt]
  exact forall_congr' fun n => lt_haltTime_iff

theorem haltTime_of_isHalted (h : m.isHalted = true) : m.haltTime = 0 :=
  nonpos_iff_eq_zero.1 (haltTime_le_iff.2 h)

/-- A running machine has one step more to make than the next one. -/
theorem haltTime_of_running (h : m.isHalted = false) : m.haltTime = m.step.2.haltTime + 1 := by
  refine ENat.eq_of_forall_natCast_le_iff fun n => ?_
  cases n with
  | zero => simp
  | succ n =>
    rw [Nat.cast_add, Nat.cast_one, ENat.natCast_add_one_le_iff, lt_haltTime_iff,
      ENat.add_le_add_iff_right ENat.one_ne_top]
    cases n with
    | zero => simp [iterate, h]
    | succ n =>
      rw [iterate, ← lt_haltTime_iff, Nat.cast_add, Nat.cast_one, ENat.natCast_add_one_le_iff]

/-! ## Bounded runs -/

/-- Of `bound` steps the machine makes `n`: all of them, or those up to its halt. -/
def Makes (m : Machine) (bound : ℕ∞) (n : ℕ) : Prop := (n : ℕ∞) = min bound m.haltTime

theorem makes_zero (m : Machine) : m.Makes 0 0 := by simp [Makes]

theorem makes_of_isHalted (h : m.isHalted = true) (bound : ℕ∞) : m.Makes bound 0 := by
  simp [Makes, haltTime_of_isHalted h]

theorem makes_succ_iff {bound : ℕ∞} {n : ℕ} (h : m.isHalted = false) :
    m.Makes (bound + 1) (n + 1) ↔ m.step.2.Makes bound n := by
  rw [Makes, haltTime_of_running h, min_add_add_right, Nat.cast_add, Nat.cast_one]
  exact (ENat.add_left_injective_of_ne_top ENat.one_ne_top).eq_iff

/-- There is such a number unless both the bound and the run are endless. -/
theorem exists_makes {bound : ℕ∞} (h : min bound m.haltTime ≠ ⊤) : ∃ n, m.Makes bound n :=
  ENat.ne_top_iff_exists.1 h

theorem exists_makes_nat (m : Machine) (bound : ℕ) : ∃ n, m.Makes bound n :=
  exists_makes (ne_top_of_le_ne_top (ENat.natCast_ne_top bound) (min_le_left _ _))

theorem Makes.unique {bound : ℕ∞} {n n' : ℕ} (h : m.Makes bound n) (h' : m.Makes bound n') : n = n' :=
  ENat.natCast_inj.1 (h.trans h'.symm)

/-- A running machine makes its first step, and the rest from there. -/
theorem Makes.of_running {bound : ℕ∞} {n : ℕ} (h : m.Makes (bound + 1) n) (hrun : m.isHalted = false) :
    ∃ k, n = k + 1 ∧ m.step.2.Makes bound k := by
  cases n with
  | zero =>
    rw [Makes, haltTime_of_running hrun, min_add_add_right, Nat.cast_zero] at h
    exact absurd h (add_pos_of_right zero_lt_one _).ne
  | succ k => exact ⟨k, rfl, (makes_succ_iff hrun).1 h⟩

/-- The run ends within the bound exactly if the machine is halted by then. -/
theorem Makes.isHalted_iff {bound : ℕ∞} {n : ℕ} (h : m.Makes bound n) :
    (iterate n m).isHalted = true ↔ m.haltTime ≤ bound := by
  rw [← haltTime_le_iff, h, le_min_iff]
  exact and_iff_left le_rfl

/-! ## The machines gone through -/

/-- The machines before each of the next `n` steps. -/
def trail (n : ℕ) (m : Machine) : List Machine := (List.range n).map fun k => iterate k m

/-- What each of the next `n` steps does. -/
def traces (n : ℕ) (m : Machine) : List Trace := (trail n m).map fun before => before.step.1

theorem trail_zero (m : Machine) : trail 0 m = [] := rfl

theorem trail_succ (n : ℕ) (m : Machine) : trail (n + 1) m = m :: trail n m.step.2 := by
  simp only [trail, List.range_succ_eq_map, List.map_cons, List.map_map]
  rfl

/-! ## Running until the halt -/

theorem run_of_makes {fuel n : ℕ} (h : m.Makes fuel n) :
    m.run fuel = if (iterate n m).isHalted then some (n, iterate n m) else none := by
  induction fuel generalizing n m with
  | zero =>
    obtain rfl : n = 0 := h.unique m.makes_zero
    rw [run, iterate]
  | succ fuel ih =>
    rw [run]
    cases hhalted : m.isHalted with
    | true =>
      obtain rfl : n = 0 := h.unique (makes_of_isHalted hhalted _)
      rw [iterate, hhalted]
      rfl
    | false =>
      rw [Nat.cast_succ] at h
      obtain ⟨n, rfl, hn⟩ := h.of_running hhalted
      rw [if_neg Bool.false_ne_true, iterate]
      cases hlast : (iterate n m.step.2).isHalted with
      | true => simp [ih hn, hlast]
      | false => simp [ih hn, hlast]

/-- A run comes to its end exactly with the number of steps up to the halt. -/
theorem run_eq_some_iff {fuel n : ℕ} {final : Machine} :
    m.run fuel = some (n, final) ↔ (n : ℕ∞) = m.haltTime ∧ n ≤ fuel ∧ final = iterate n m := by
  obtain ⟨k, hk⟩ := m.exists_makes_nat fuel
  rw [run_of_makes hk]
  cases hhalted : (iterate k m).isHalted with
  | true =>
    have hle := hk.isHalted_iff.1 hhalted
    have htime : (k : ℕ∞) = m.haltTime := hk.trans (min_eq_right hle)
    rw [← htime] at hle ⊢
    have hle := ENat.natCast_le_natCast.1 hle
    simp only [if_true, Option.some.injEq, Prod.mk.injEq, ENat.natCast_inj]
    constructor
    · rintro ⟨rfl, rfl⟩
      exact ⟨rfl, hle, rfl⟩
    · rintro ⟨rfl, -, rfl⟩
      exact ⟨rfl, rfl⟩
  | false =>
    have hlate : ¬ m.haltTime ≤ fuel := fun hle => by
      rw [hk.isHalted_iff.2 hle] at hhalted
      cases hhalted
    simp only [Bool.false_eq_true, if_false, reduceCtorEq, false_iff]
    rintro ⟨htime, hle, -⟩
    exact hlate (htime ▸ ENat.natCast_le_natCast.2 hle)

end Machine

end Mc6809
