/-
The memory that a page shows. A range is shown if all of its numbers are
addresses, and then its bytes are those at these addresses, without going round
(`memory_views_exact`).

The page works this out in words of the host that it runs on, of 32 bits or
more. `memoryViewOn` does so with every sum and every conversion checked. None
of them fails, so it comes to the same (`memoryViewOn_eq`).
-/
import Mathlib.Algebra.Group.Nat.Defs
import Mc6809.Proofs.Machine.Dump
import Mc6809.Simulator

namespace Mc6809

/-! ## Words of the host -/

/-- The host that a page runs on. Its words have 32 bits or more. -/
structure Host where
  bits : Nat
  wide : 32 ≤ bits

namespace Host

variable (host : Host)

/-- A number as a word, unless it is too large for one. -/
def word? (n : Nat) : Option (BitVec host.bits) :=
  if n < 2 ^ host.bits then some (BitVec.ofNat host.bits n) else none

/-- The sum of two words, unless it overflows. -/
def sum? (a b : BitVec host.bits) : Option (BitVec host.bits) :=
  if a.uaddOverflow b then none else some (a + b)

/-- How many addresses there are. -/
def addressSpace? : Option (BitVec host.bits) := do
  host.sum? (← host.word? Ram.size) (← host.word? Rom.size)

/-- Where so many bytes from an address on stop. -/
def stop? (first : Address) (length : BitVec host.bits) : Option (BitVec host.bits) := do
  host.sum? (← host.word? first.toNat) length

variable {host}

theorem lt_two_pow {n : Nat} (h : n < 2 ^ 32) : n < 2 ^ host.bits :=
  Nat.lt_of_lt_of_le h (Nat.pow_le_pow_right (by decide) host.wide)

/-- A number of 32 bits is a word. -/
theorem word?_fits {n : Nat} (h : n < 2 ^ 32) : ∃ w, host.word? n = some w ∧ w.toNat = n :=
  ⟨BitVec.ofNat host.bits n, if_pos (lt_two_pow h), by
    rw [BitVec.toNat_ofNat, Nat.mod_eq_of_lt (lt_two_pow h)]⟩

/-- A sum of 32 bits does not overflow. -/
theorem sum?_fits {a b : BitVec host.bits} (h : a.toNat + b.toNat < 2 ^ 32) :
    ∃ w, host.sum? a b = some w ∧ w.toNat = a.toNat + b.toNat := by
  have hfits : a.uaddOverflow b = false := decide_eq_false (Nat.not_le.2 (lt_two_pow h))
  exact ⟨a + b, by rw [sum?, hfits, if_neg Bool.false_ne_true], BitVec.toNat_add_of_lt (lt_two_pow h)⟩

theorem addressSpace?_fits (host : Host) :
    ∃ w, host.addressSpace? = some w ∧ w.toNat = Memory.addressSpace := by
  obtain ⟨ram, hram, hramSize⟩ := host.word?_fits (n := Ram.size) (by decide)
  obtain ⟨rom, hrom, hromSize⟩ := host.word?_fits (n := Rom.size) (by decide)
  have hspace : ram.toNat + rom.toNat = Memory.addressSpace := by rw [hramSize, hromSize]; rfl
  obtain ⟨w, hsum, hw⟩ := host.sum?_fits (a := ram) (b := rom) (by rw [hspace]; decide)
  refine ⟨w, ?_, hw.trans hspace⟩
  rw [addressSpace?, hram, hrom]
  exact hsum

theorem stop?_fits {first : Address} {length : BitVec host.bits}
    (h : first.toNat + length.toNat < 2 ^ 32) :
    ∃ w, host.stop? first length = some w ∧ w.toNat = first.toNat + length.toNat := by
  obtain ⟨w, hword, hw⟩ := host.word?_fits (Nat.lt_of_le_of_lt (Nat.le_add_right ..) h)
  rw [stop?, hword, ← hw]
  exact sum?_fits (hw.symm ▸ h)

end Host

/-- A number as an address, unless it is too large for one. -/
def address? (n : Nat) : Option Address := if n ≤ 0xFFFF then some (UInt16.ofNat n) else none

/-- The difference of two numbers, zero if it would be negative. -/
def difference (a b : UInt32) : UInt32 := if b ≤ a then a - b else 0

theorem toNat_difference (a b : UInt32) : (difference a b).toNat = a.toNat - b.toNat := by
  rw [difference]
  split
  next h => exact UInt32.toNat_sub_of_le _ _ h
  next h =>
    have hlt : a.toNat < b.toNat := UInt32.lt_iff_toNat_lt.1 (UInt32.not_le.1 h)
    rw [Nat.sub_eq_zero_of_le (Nat.le_of_lt hlt)]
    rfl

theorem address?_of_le {n : Nat} (h : n ≤ 0xFFFF) : address? n = some (UInt16.ofNat n) := if_pos h

theorem address?_of_lt {n : Nat} (h : 0xFFFF < n) : address? n = none := if_neg (Nat.not_le.2 h)

/-- A traversal in which nothing fails. -/
theorem mapM_eq_some_map {α β : Type} {f : α → Option β} {g : α → β} {l : List α}
    (h : ∀ x ∈ l, f x = some (g x)) : l.mapM f = some (l.map g) := by
  induction l with
  | nil => rfl
  | cons x l ih =>
    have hrest : l.mapM f = some (l.map g) := ih fun y hy => h y (List.mem_cons_of_mem x hy)
    rw [List.mapM_cons, h x List.mem_cons_self, hrest]
    rfl

namespace Memory

/-- The bytes from `start` on, each index a word of the host; nothing if a
conversion does not fit. -/
def dumpOn (m : Memory) (host : Host) (start : Address) (length : BitVec host.bits) : Option (List Byte) :=
  (List.range length.toNat).mapM fun i => do
    let index ← host.word? i
    let offset ← address? (index.toNat &&& 0xFFFF)
    return m.read (start + offset)

/-- Every index fits, since the length does. -/
theorem dumpOn_eq (m : Memory) (host : Host) (start : Address) {length : BitVec host.bits}
    (h : length.toNat < 2 ^ 32) : m.dumpOn host start length = some (m.dump start length.toNat) := by
  refine mapM_eq_some_map fun i hi => ?_
  have hmask : i &&& 0xFFFF = i % 65536 := Nat.and_two_pow_sub_one_eq_mod i 16
  have hround : UInt16.ofNat (i % 65536) = UInt16.ofNat i := UInt16.ofNat_mod_size
  obtain ⟨index, hword, hindex⟩ := host.word?_fits (Nat.lt_trans (List.mem_range.1 hi) h)
  rw [hword, Option.bind_eq_bind, Option.bind_some, hindex, hmask, address?_of_le (by omega), hround]
  rfl

end Memory

namespace Simulator

/-- The memory that a page shows, in words of the host; nothing if a sum or a
conversion that is taken to fit does not. -/
def memoryViewOn (s : Simulator) (host : Host) (start stop : UInt32) :
    Option (Except InvalidRange MemoryView) := do
  let addressSpace ← host.addressSpace?
  match address? start.toNat, host.word? (difference stop start).toNat with
  | some first, some length =>
    if stop < start then return .error ⟨start, stop⟩
    else
      if addressSpace < (← host.stop? first length) then return .error ⟨start, stop⟩
      else return .ok ⟨start, stop, ← s.machine.memory.dumpOn host first length⟩
  | _, _ => return .error ⟨start, stop⟩

/-- All numbers from `start` up to `stop` are addresses. -/
def Addressable (start stop : UInt32) : Prop :=
  start.toNat ≤ 0xFFFF ∧ start.toNat ≤ stop.toNat ∧ stop.toNat ≤ 0x10000

instance (start stop : UInt32) : Decidable (Addressable start stop) :=
  inferInstanceAs (Decidable (_ ∧ _))

/-- The bytes at those addresses. -/
def viewOf (s : Simulator) (start stop : UInt32) : MemoryView :=
  ⟨start, stop, s.machine.memory.dump start.toUInt16 (stop.toNat - start.toNat)⟩

theorem memoryView_eq (s : Simulator) (start stop : UInt32) :
    s.memoryView start stop =
      if Addressable start stop then .ok (s.viewOf start stop) else .error ⟨start, stop⟩ := by
  have hrefused : (0xFFFF < start || stop < start ||
      Memory.addressSpace < start.toNat + (stop.toNat - start.toNat)) = true ↔
        ¬Addressable start stop := by
    have hspace : Memory.addressSpace = 0x10000 := rfl
    have hlast : (0xFFFF : UInt32).toNat = 0xFFFF := rfl
    simp only [Bool.or_eq_true, decide_eq_true_eq, UInt32.lt_iff_toNat_lt, hspace, hlast, Addressable]
    omega
  rw [memoryView]
  by_cases h : Addressable start stop
  · rw [if_pos h, if_neg (mt hrefused.1 (not_not_intro h))]
    rfl
  · rw [if_neg h, if_pos (hrefused.2 h)]

theorem eq_viewOf {s : Simulator} {start stop : UInt32} {view : MemoryView}
    (h : s.memoryView start stop = .ok view) : Addressable start stop ∧ view = s.viewOf start stop := by
  rw [memoryView_eq] at h
  split at h
  next hall => exact ⟨hall, (Except.ok.inj h).symm⟩
  next => cases h

/-- Nothing overflows. -/
theorem memoryViewOn_eq (s : Simulator) (host : Host) (start stop : UInt32) :
    s.memoryViewOn host start stop = some (s.memoryView start stop) := by
  obtain ⟨space, hspace, hsize⟩ := host.addressSpace?_fits
  obtain ⟨length, hword, hlength⟩ := host.word?_fits (difference stop start).toNat_lt
  rw [toNat_difference] at hlength
  rw [memoryViewOn, hspace, hword, memoryView_eq, Option.bind_eq_bind, Option.bind_some]
  by_cases hfirst : start.toNat ≤ 0xFFFF
  case neg =>
    rw [address?_of_lt (Nat.not_le.1 hfirst), if_neg fun h => hfirst h.1]
    rfl
  have haddress : (UInt16.ofNat start.toNat).toNat = start.toNat :=
    UInt16.toNat_ofNat_of_lt (Nat.lt_succ_of_le hfirst)
  rw [address?_of_le hfirst]
  by_cases hstop : stop < start
  case pos =>
    rw [if_neg fun h => Nat.not_lt.2 h.2.1 (UInt32.lt_iff_toNat_lt.1 hstop)]
    exact if_pos hstop
  -- From here on the start and the length add up to the end, which fits.
  have hle : start.toNat ≤ stop.toNat := UInt32.le_iff_toNat_le.1 (UInt32.not_lt.1 hstop)
  have hsum : (UInt16.ofNat start.toNat).toNat + length.toNat = stop.toNat := by
    rw [haddress, hlength, Nat.add_sub_cancel' hle]
  obtain ⟨last, hlast, hend⟩ := host.stop?_fits (hsum ▸ stop.toNat_lt)
  have hrefused : space < last ↔ ¬Addressable start stop := by
    rw [BitVec.lt_def, hsize, hend, hsum]
    exact ⟨fun h hall => Nat.not_lt.2 hall.2.2 h, fun h =>
      Nat.not_le.1 fun hspan => h ⟨hfirst, hle, hspan⟩⟩
  have hdump : s.machine.memory.dumpOn host (UInt16.ofNat start.toNat) length =
      some (s.viewOf start stop).bytes := by
    rw [Memory.dumpOn_eq _ _ _ (Nat.lt_of_le_of_lt (Nat.le_add_left ..) (hsum ▸ stop.toNat_lt)), hlength]
    rfl
  simp only [if_neg hstop, hlast, hdump, Option.bind_some]
  by_cases h : Addressable start stop
  · rw [if_neg (mt hrefused.1 (not_not_intro h)), if_pos h]
    rfl
  · rw [if_pos (hrefused.2 h), if_neg h]
    rfl

/-- What a page shows of its memory, and what it does not. -/
structure ViewsExactly (s : Simulator) : Prop where
  shown_iff : ∀ start stop, (∃ view, s.memoryView start stop = .ok view) ↔
    start.toNat ≤ 0xFFFF ∧ start.toNat ≤ stop.toNat ∧ stop.toNat ≤ 0x10000
  /-- What is shown is the range that was asked for. -/
  range : ∀ start stop view, s.memoryView start stop = .ok view →
    view.start = start ∧ view.stop = stop ∧ view.bytes.length = stop.toNat - start.toNat
  /-- Each number of the range is an address, and its byte is the one that is there. -/
  byte : ∀ start stop view, s.memoryView start stop = .ok view → ∀ i, i < stop.toNat - start.toNat →
    start.toNat + i < 0x10000 ∧
      view.bytes[i]? = some (s.machine.memory.read (UInt16.ofNat (start.toNat + i)))
  refused : ∀ start stop,
    ¬(start.toNat ≤ 0xFFFF ∧ start.toNat ≤ stop.toNat ∧ stop.toNat ≤ 0x10000) →
      s.memoryView start stop = .error ⟨start, stop⟩
  /-- On no host there is a sum or a conversion that does not fit. -/
  fits : ∀ (host : Host) start stop, s.memoryViewOn host start stop = some (s.memoryView start stop)
  /-- The length of a range is always a word, so no range is refused because it is not. -/
  length : ∀ (host : Host) start stop, ∃ w, host.word? (difference stop start).toNat = some w ∧
    w.toNat = stop.toNat - start.toNat

/-- **Memory is shown as it is, and nothing overflows.** -/
theorem memory_views_exact (s : Simulator) : s.ViewsExactly where
  shown_iff start stop := by
    constructor
    · rintro ⟨view, hview⟩
      exact (eq_viewOf hview).1
    · intro h
      exact ⟨s.viewOf start stop, by rw [memoryView_eq]; exact if_pos h⟩
  range start stop view h := by
    obtain ⟨-, rfl⟩ := eq_viewOf h
    exact ⟨rfl, rfl, Memory.length_dump ..⟩
  byte start stop view h i hi := by
    obtain ⟨⟨hfirst, hle, hspan⟩, rfl⟩ := eq_viewOf h
    have hround : start.toUInt16.toNat + i = start.toNat + i := by
      rw [UInt32.toNat_toUInt16, Nat.mod_eq_of_lt (Nat.lt_succ_of_le hfirst)]
    refine ⟨by omega, ?_⟩
    rw [viewOf, Memory.getElem?_dump _ _ hi, Memory.add_ofNat, hround, Nat.mod_eq_of_lt (by omega)]
  refused start stop h := by rw [memoryView_eq]; exact if_neg h
  fits := s.memoryViewOn_eq
  length host start stop := by
    rw [← toNat_difference]
    exact host.word?_fits (difference stop start).toNat_lt

end Simulator

end Mc6809
