import WormholeFilters.Lanes
import Mathlib.Tactic.IntervalCases

/-! The 16-bit tag both filters store: twelve bits of fingerprint above four bits
of distance from the home bucket. A tag of zero is an empty slot. -/
namespace WormholeFilters

abbrev Word := BitVec 64

def tagPerBuk : Nat := 4
def maxProb : Nat := 16

def tagMask : Nat := 0xFFFF
def disMask : Nat := 0x000F
def fptMask : Nat := 0xFFF0

def haszero16 (x : Word) : Word := (x - 0x0001000100010001#64) &&& ~~~x &&& 0x8000800080008000#64

def hasvalue16 (x n : Word) : Word := haszero16 (x ^^^ (0x0001000100010001#64 * n))

/-- Slot `j` of a bucket word, as `((uint16_t *)&bucket)[j]` on a little-endian machine. -/
def slot (x : Word) (j : Nat) : Nat := Lanes.lane 16 x.toNat j

def setSlot (x : Word) (j t : Nat) : Word := BitVec.ofNat 64 (Lanes.setLane 16 x.toNat j (t % 2 ^ 16))

theorem slot_lt (x : Word) (j : Nat) : slot x j < 2 ^ 16 := Lanes.lane_lt _ _ _

theorem slot_setSlot {x : Word} {j k t : Nat} (inside : j < 4) (bound : t < 2 ^ 16) :
    slot (setSlot x j t) k = if k = j then t else slot x k := by
  have word := Lanes.setLane_lt (n := 4) x.isLt bound inside
  rw [slot, setSlot, BitVec.toNat_ofNat, Nat.mod_eq_of_lt bound, Nat.mod_eq_of_lt word]
  by_cases same : k = j
  · subst same
    rw [if_pos rfl, Lanes.lane_setLane_self _ _ bound]
  · rw [if_neg same, Lanes.lane_setLane_ne _ bound same, slot]

theorem word_eq_of_slots {x y : Word} (same : ∀ j < 4, slot x j = slot y j) : x = y :=
  BitVec.eq_of_toNat_eq (Lanes.eq_of_lanes (n := 4) x.isLt y.isLt same)

private theorem top_bits : ∀ i < 64, (0x8000800080008000#64).getLsbD i = true →
    ∃ j < 4, i = 16 * j + (16 - 1) := by decide

private theorem spread_ones : Lanes.ones 16 4 = 0x0001000100010001 := by decide

private theorem toNat_sub_ones (x : Word) :
    (x - 0x0001000100010001#64).toNat = Lanes.subOnes 16 4 x.toNat := by
  rw [BitVec.toNat_sub, Lanes.subOnes, spread_ones, Nat.add_comm]
  rfl

theorem haszero16_ne_zero_iff (x : Word) : haszero16 x ≠ 0#64 ↔ ∃ j < 4, slot x j = 0 := by
  rw [show (∃ j < 4, slot x j = 0) ↔ _ from (Lanes.exists_marked_iff (by decide) 4 x.toNat).symm]
  constructor
  · intro nonzero
    by_contra unmarked
    apply nonzero
    apply BitVec.eq_of_getLsbD_eq
    intro i inside
    rw [haszero16, BitVec.getLsbD_and, BitVec.getLsbD_and, BitVec.getLsbD_not, BitVec.getLsbD_zero]
    by_contra set
    simp only [Bool.not_eq_false, Bool.and_eq_true, Bool.not_eq_true', inside, decide_true] at set
    obtain ⟨j, lane, rfl⟩ := top_bits i inside set.2
    refine unmarked ⟨j, lane, ?_, set.1.2.2⟩
    rw [← toNat_sub_ones]
    exact set.1.1
  · rintro ⟨j, lane, borrowed, clear⟩ zero
    have bit := congrArg (fun y => BitVec.getLsbD y (16 * j + (16 - 1))) zero
    have mask : (0x8000800080008000#64).getLsbD (16 * j + (16 - 1)) = true := by
      interval_cases j <;> decide
    have inside : 16 * j + (16 - 1) < 64 := by omega
    rw [← toNat_sub_ones] at borrowed
    have low : (x - 0x0001000100010001#64).getLsbD (16 * j + (16 - 1)) = true := borrowed
    have high : x.getLsbD (16 * j + (16 - 1)) = false := clear
    simp only [haszero16, BitVec.getLsbD_and, BitVec.getLsbD_not, mask, low, high, inside,
      decide_true, BitVec.getLsbD_zero, Bool.not_false, Bool.and_self] at bit
    contradiction

theorem slot_xor_spread {x : Word} {n j : Nat} (bound : n < 2 ^ 16) (inside : j < 4) :
    slot (x ^^^ (0x0001000100010001#64 * BitVec.ofNat 64 n)) j = slot x j ^^^ n := by
  have spread : (0x0001000100010001#64 * BitVec.ofNat 64 n).toNat = 0x0001000100010001 * n := by
    rw [BitVec.toNat_mul, BitVec.toNat_ofNat, BitVec.toNat_ofNat]
    omega
  have lane := Lanes.lane_ones_mul bound inside
  rw [Lanes.lane, spread_ones] at lane
  rw [slot, slot, Lanes.lane, Lanes.lane, BitVec.toNat_xor, spread, Nat.xor_div_two_pow,
    Nat.xor_mod_two_pow, lane]

/-- The word-parallel comparison is exact: it succeeds when some slot is `n`. -/
theorem hasvalue16_ne_zero_iff {x : Word} {n : Nat} (bound : n < 2 ^ 16) :
    hasvalue16 x (BitVec.ofNat 64 n) ≠ 0#64 ↔ ∃ j < 4, slot x j = n := by
  rw [hasvalue16, haszero16_ne_zero_iff]
  constructor
  · rintro ⟨j, inside, zero⟩
    rw [slot_xor_spread bound inside] at zero
    exact ⟨j, inside, Nat.xor_eq_zero_iff.mp zero⟩
  · rintro ⟨j, inside, same⟩
    exact ⟨j, inside, by rw [slot_xor_spread bound inside, same, Nat.xor_self]⟩

theorem and_disMask (v : Nat) : v &&& disMask = v % 16 := Nat.and_two_pow_sub_one_eq_mod v 4

theorem and_fptMask {v : Nat} (bound : v < 2 ^ 16) : v &&& fptMask = 16 * (v / 16) := by
  apply Nat.eq_of_testBit_eq
  intro i
  have mask : fptMask = 2 ^ 4 * (2 ^ 12 - 1) := by decide
  rw [Nat.testBit_and, mask, show (16 : Nat) = 2 ^ 4 from rfl, Nat.testBit_two_pow_mul,
    Nat.testBit_two_pow_mul, Nat.testBit_two_pow_sub_one, Nat.testBit_div_two_pow]
  by_cases high : 4 ≤ i
  · by_cases low : i < 16
    · simp [high, show i - 4 < 12 by omega]
    · have : v.testBit i = false :=
        Nat.testBit_lt_two_pow (bound.trans_le (Nat.pow_le_pow_right (by omega) (by omega)))
      simp [high, this]
  · simp [high]

/-- Joining a fingerprint and a distance. -/
theorem or_distance {x d : Nat} (near : d < 16) : 16 * x ||| d = 16 * x + d :=
  (Nat.two_pow_add_eq_or_of_lt (i := 4) near x).symm

/-- Moving a tag `prob` buckets on adds `prob` to its distance and keeps its fingerprint. -/
theorem moved_tag {v prob : Nat} (bound : v < 2 ^ 16) (near : v % 16 + prob < 16) :
    (v &&& fptMask) ||| ((v &&& disMask) + prob) = v + prob := by
  rw [and_fptMask bound, and_disMask, or_distance near]
  omega

end WormholeFilters
