import Mathlib.Algebra.Order.Floor.Div
import Mathlib.GroupTheory.GroupAction.Ring
import Mathlib.Order.Interval.Set.LinearOrder

/-! Ranges whose ends are multiples of a unit. Rounding the ends of a range outwards
gives the least such range around it. -/
namespace AlignedRanges

section Order

variable {α : Type*} [Semiring α] [LinearOrder α] {a start stop : α}

structure AlignedRange (a : α) where
  start : α
  stop : α
  start_dvd : a ∣ start
  stop_dvd : a ∣ stop

def AlignedRange.points (range : AlignedRange a) : Set α := Set.Ico range.start range.stop

theorem isGreatest_mul_floorDiv [FloorDiv α α] (positive : 0 < a) (b : α) :
    IsGreatest {m | a ∣ m ∧ m ≤ b} (a * (b ⌊/⌋ a)) := by
  constructor
  · exact ⟨dvd_mul_right a _, smul_floorDiv_le positive⟩
  · rintro m ⟨⟨c, rfl⟩, below⟩
    exact (gc_floorDiv_mul positive).monotone_l ((le_floorDiv_iff_mul_le positive).mpr below)

theorem isLeast_mul_ceilDiv [CeilDiv α α] (positive : 0 < a) (b : α) :
    IsLeast {m | a ∣ m ∧ b ≤ m} (a * (b ⌈/⌉ a)) := by
  constructor
  · exact ⟨dvd_mul_right a _, le_smul_ceilDiv positive⟩
  · rintro m ⟨⟨c, rfl⟩, above⟩
    exact (gc_mul_ceilDiv positive).monotone_u ((ceilDiv_le_iff_le_mul positive).mpr above)

variable [FloorDiv α α] [CeilDiv α α]

/-- Both ends rounded outwards. -/
def hull (a start stop : α) : AlignedRange a :=
  ⟨a * (start ⌊/⌋ a), a * (stop ⌈/⌉ a), dvd_mul_right _ _, dvd_mul_right _ _⟩

theorem subset_hull (positive : 0 < a) (start stop : α) :
    Set.Ico start stop ⊆ (hull a start stop).points :=
  Set.Ico_subset_Ico (isGreatest_mul_floorDiv positive start).1.2 (isLeast_mul_ceilDiv positive stop).1.2

theorem hull_least (positive : 0 < a) (nonempty : start < stop) (range : AlignedRange a)
    (covers : Set.Ico start stop ⊆ range.points) :
    range.start ≤ (hull a start stop).start ∧ (hull a start stop).stop ≤ range.stop := by
  obtain ⟨below, above⟩ := (Set.Ico_subset_Ico_iff nonempty).mp covers
  exact ⟨(isGreatest_mul_floorDiv positive start).2 ⟨range.start_dvd, below⟩,
    (isLeast_mul_ceilDiv positive stop).2 ⟨range.stop_dvd, above⟩⟩

end Order

section Nat

variable {a : Nat}

/-- Rounding up passes over a multiple. -/
theorem mul_add_ceilDiv (positive : 0 < a) (c b : Nat) : (a * c + b) ⌈/⌉ a = c + b ⌈/⌉ a := by
  have shift : a * c + b + a - 1 = a * c + (b + a - 1) := by omega
  rw [Nat.ceilDiv_eq_add_pred_div, Nat.ceilDiv_eq_add_pred_div, shift, Nat.mul_add_div positive]

theorem ceilDiv_of_lt {b : Nat} (positive : 0 < b) (lt : b < a) : b ⌈/⌉ a = 1 := by
  rw [Nat.ceilDiv_eq_add_pred_div]
  apply Nat.div_eq_of_lt_le <;> omega

theorem mul_ceilDiv_eq (positive : 0 < a) (b : Nat) :
    a * (b ⌈/⌉ a) = if b % a = 0 then b else b + (a - b % a) := by
  have split := Nat.div_add_mod b a
  have inside := Nat.mod_lt b positive
  have rounded : a * (b ⌈/⌉ a) = a * (b / a) + a * ((b % a) ⌈/⌉ a) := by
    rw [← Nat.mul_add, ← mul_add_ceilDiv positive, split]
  rw [rounded]
  split
  case isTrue aligned =>
    rw [aligned, zero_ceilDiv]
    omega
  case isFalse unaligned =>
    rw [ceilDiv_of_lt (by omega) inside]
    omega

end Nat

end AlignedRanges
