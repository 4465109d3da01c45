import Mathlib.Data.Nat.Bitwise
import Mathlib.Tactic.Ring

/-! Words cut into lanes of `w` bits, lowest first. The zero-lane test subtracts
one from every lane at once; borrows spill upwards only out of lanes that are
zero, so the test as a whole is exact. -/
namespace Lanes

def lane (w x i : Nat) : Nat := x / 2 ^ (w * i) % 2 ^ w

theorem lane_zero (w x : Nat) : lane w x 0 = x % 2 ^ w := by simp [lane]

theorem lane_succ (w x i : Nat) : lane w x (i + 1) = lane w (x / 2 ^ w) i := by
  rw [lane, lane, Nat.div_div_eq_div_mul, ← pow_add, Nat.mul_succ, Nat.add_comm w]

theorem lane_lt (w x i : Nat) : lane w x i < 2 ^ w := Nat.mod_lt _ (Nat.two_pow_pos w)

def setLane (w x : Nat) : Nat → Nat → Nat
  | 0, t => t + 2 ^ w * (x / 2 ^ w)
  | i + 1, t => x % 2 ^ w + 2 ^ w * setLane w (x / 2 ^ w) i t

private theorem low_mod {w r : Nat} (z : Nat) (bound : r < 2 ^ w) : (r + 2 ^ w * z) % 2 ^ w = r := by
  rw [Nat.add_mul_mod_self_left, Nat.mod_eq_of_lt bound]

private theorem low_div {w r : Nat} (z : Nat) (bound : r < 2 ^ w) : (r + 2 ^ w * z) / 2 ^ w = z := by
  rw [Nat.add_mul_div_left _ _ (Nat.two_pow_pos w), Nat.div_eq_of_lt bound, Nat.zero_add]

theorem lane_setLane_self {w t : Nat} (x i : Nat) (bound : t < 2 ^ w) :
    lane w (setLane w x i t) i = t := by
  induction i generalizing x with
  | zero => rw [lane_zero, setLane, low_mod _ bound]
  | succ i ih =>
    rw [lane_succ, setLane, low_div _ (Nat.mod_lt _ (Nat.two_pow_pos w)), ih]

theorem lane_setLane_ne {w t : Nat} (x : Nat) {i k : Nat} (bound : t < 2 ^ w) (apart : k ≠ i) :
    lane w (setLane w x i t) k = lane w x k := by
  have small := Nat.mod_lt x (Nat.two_pow_pos w)
  induction i generalizing x k with
  | zero =>
    cases k with
    | zero => contradiction
    | succ k => rw [lane_succ, setLane, low_div _ bound, lane_succ]
  | succ i ih =>
    cases k with
    | zero => rw [lane_zero, lane_zero, setLane, low_mod _ small]
    | succ k =>
      rw [lane_succ, setLane, low_div _ small, lane_succ]
      exact ih _ (by omega) (Nat.mod_lt _ (Nat.two_pow_pos w))

private theorem cons_lt {w n r z : Nat} (low : r < 2 ^ w) (high : z < 2 ^ (w * n)) :
    r + 2 ^ w * z < 2 ^ (w * (n + 1)) := by
  calc r + 2 ^ w * z < 2 ^ w * (z + 1) := by rw [Nat.mul_succ]; omega
    _ ≤ 2 ^ w * 2 ^ (w * n) := Nat.mul_le_mul_left _ high
    _ = 2 ^ (w * (n + 1)) := by rw [← pow_add]; congr 1; ring

private theorem high_lt {w n x : Nat} (word : x < 2 ^ (w * (n + 1))) : x / 2 ^ w < 2 ^ (w * n) := by
  apply Nat.div_lt_of_lt_mul
  rwa [← pow_add, Nat.add_comm w, ← Nat.mul_succ]

theorem setLane_lt {w t x n i : Nat} (word : x < 2 ^ (w * n)) (bound : t < 2 ^ w) (inside : i < n) :
    setLane w x i t < 2 ^ (w * n) := by
  induction i generalizing x n with
  | zero =>
    obtain ⟨n, rfl⟩ := Nat.exists_eq_succ_of_ne_zero (by omega : n ≠ 0)
    exact cons_lt bound (high_lt word)
  | succ i ih =>
    obtain ⟨n, rfl⟩ := Nat.exists_eq_succ_of_ne_zero (by omega : n ≠ 0)
    exact cons_lt (Nat.mod_lt _ (Nat.two_pow_pos w)) (ih (high_lt word) (by omega))

/-- Words of `n` lanes that agree lane by lane are equal. -/
theorem eq_of_lanes {w n x y : Nat} (left : x < 2 ^ (w * n)) (right : y < 2 ^ (w * n))
    (same : ∀ i < n, lane w x i = lane w y i) : x = y := by
  induction n generalizing x y with
  | zero => simp at left right; omega
  | succ n ih =>
    have low : x % 2 ^ w = y % 2 ^ w := by simpa [lane_zero] using same 0 (by omega)
    have high : x / 2 ^ w = y / 2 ^ w := by
      refine ih (high_lt left) (high_lt right) fun i bound => ?_
      rw [← lane_succ, ← lane_succ]
      exact same (i + 1) (by omega)
    rw [← Nat.mod_add_div x (2 ^ w), ← Nat.mod_add_div y (2 ^ w), low, high]

def ones (w : Nat) : Nat → Nat
  | 0 => 0
  | n + 1 => 1 + 2 ^ w * ones w n

theorem ones_lt {w : Nat} (pos : 0 < w) (n : Nat) : ones w n < 2 ^ (w * n) := by
  induction n with
  | zero => simp [ones]
  | succ n ih => exact cons_lt (Nat.one_lt_two_pow (by omega)) ih

/-- Multiplying by the ones spreads a value over all lanes. -/
theorem lane_ones_mul {w t n i : Nat} (bound : t < 2 ^ w) (inside : i < n) :
    lane w (ones w n * t) i = t := by
  induction n generalizing i with
  | zero => omega
  | succ n ih =>
    have cons : ones w (n + 1) * t = t + 2 ^ w * (ones w n * t) := by rw [ones]; ring
    cases i with
    | zero => rw [lane_zero, cons, low_mod _ bound]
    | succ i => rw [lane_succ, cons, low_div _ bound, ih (by omega)]

def subOnes (w n x : Nat) : Nat := (x + (2 ^ (w * n) - ones w n)) % 2 ^ (w * n)

/-- The complement of the ones, one lane at a time. -/
private theorem complement_succ {w : Nat} (pos : 0 < w) (n : Nat) :
    2 ^ (w * (n + 1)) - ones w (n + 1) + 1 = 2 ^ w * (2 ^ (w * n) - ones w n) := by
  have less := ones_lt pos n
  have whole : 2 ^ (w * (n + 1)) = 2 ^ w * 2 ^ (w * n) := by
    rw [← pow_add]; congr 1; ring
  have positive : 2 ^ w ≤ 2 ^ w * (2 ^ (w * n) - ones w n) := Nat.le_mul_of_pos_right _ (by omega)
  have := Nat.two_pow_pos w
  rw [Nat.mul_sub] at positive ⊢
  rw [whole, ones]
  omega

theorem subOnes_zero_lane {w : Nat} (pos : 0 < w) (n x : Nat) (zero : x % 2 ^ w = 0) :
    subOnes w (n + 1) x % 2 ^ w = 2 ^ w - 1 := by
  have step := complement_succ pos n
  have less := ones_lt pos n
  have divides : 2 ^ w ∣ 2 ^ (w * (n + 1)) := pow_dvd_pow 2 (Nat.le_mul_of_pos_right w (by omega))
  have decomposed := Nat.mod_add_div x (2 ^ w)
  have whole : x + (2 ^ (w * (n + 1)) - ones w (n + 1)) =
      2 ^ w - 1 + 2 ^ w * (x / 2 ^ w + (2 ^ (w * n) - ones w n - 1)) := by
    have unit : 2 ^ w * (2 ^ (w * n) - ones w n) =
        2 ^ w * (2 ^ (w * n) - ones w n - 1) + 2 ^ w := by
      rw [← Nat.mul_succ]; congr 1; omega
    have := Nat.two_pow_pos w
    rw [Nat.mul_add (2 ^ w)]
    omega
  rw [subOnes, Nat.mod_mod_of_dvd _ divides, whole]
  exact low_mod _ (Nat.sub_lt (Nat.two_pow_pos w) Nat.one_pos)

theorem subOnes_succ {w : Nat} (pos : 0 < w) (n x : Nat) (nonzero : x % 2 ^ w ≠ 0) :
    subOnes w (n + 1) x = x % 2 ^ w - 1 + 2 ^ w * subOnes w n (x / 2 ^ w) := by
  have step := complement_succ pos n
  have low := Nat.mod_lt x (Nat.two_pow_pos w)
  have decomposed := Nat.mod_add_div x (2 ^ w)
  have whole : x + (2 ^ (w * (n + 1)) - ones w (n + 1)) =
      x % 2 ^ w - 1 + 2 ^ w * (x / 2 ^ w + (2 ^ (w * n) - ones w n)) := by
    rw [Nat.mul_add (2 ^ w)]
    omega
  rw [subOnes, whole, Nat.mul_succ, Nat.add_comm (w * n), pow_add, Nat.mod_mul,
    low_mod _ (by omega), low_div _ (by omega)]
  rfl

private theorem testBit_low (w y : Nat) (pos : 0 < w) :
    y.testBit (w - 1) = (y % 2 ^ w).testBit (w - 1) := by
  simp [Nat.testBit_mod_two_pow, pos]

private theorem testBit_high (w y i : Nat) :
    y.testBit (w * (i + 1) + (w - 1)) = (y / 2 ^ w).testBit (w * i + (w - 1)) := by
  rw [Nat.testBit_div_two_pow]
  congr 1
  ring

private theorem testBit_top {w a : Nat} (pos : 0 < w) (bound : a < 2 ^ w) :
    a.testBit (w - 1) = decide (2 ^ (w - 1) ≤ a) := by
  obtain ⟨w, rfl⟩ := Nat.exists_eq_succ_of_ne_zero (by omega : w ≠ 0)
  rw [Nat.succ_sub_one]
  by_cases le : 2 ^ w ≤ a
  · simp [Nat.testBit_of_two_pow_le_and_two_pow_add_one_gt le bound, le]
  · simp [Nat.testBit_lt_two_pow (by omega : a < 2 ^ w), le]

/-- Some lane is marked (its top bit is clear and the subtraction sets it) exactly
when some lane is zero. -/
theorem exists_marked_iff {w : Nat} (pos : 0 < w) (n x : Nat) :
    (∃ i < n, (subOnes w n x).testBit (w * i + (w - 1)) = true ∧
      x.testBit (w * i + (w - 1)) = false) ↔ ∃ i < n, lane w x i = 0 := by
  induction n generalizing x with
  | zero => simp
  | succ n ih =>
    by_cases zero : x % 2 ^ w = 0
    · refine iff_of_true ⟨0, by omega, ?_, ?_⟩ ⟨0, by omega, by rw [lane_zero, zero]⟩
      · rw [Nat.mul_zero, Nat.zero_add, testBit_low _ _ pos, subOnes_zero_lane pos n x zero]
        simp [Nat.testBit_two_pow_sub_one, pos]
      · rw [Nat.mul_zero, Nat.zero_add, testBit_low _ _ pos, zero, Nat.zero_testBit]
    · have low := Nat.mod_lt x (Nat.two_pow_pos w)
      have first : ¬ ((subOnes w (n + 1) x).testBit (w - 1) = true ∧ x.testBit (w - 1) = false) := by
        rw [testBit_low _ _ pos, testBit_low w x pos, subOnes_succ pos n x zero, low_mod _ (by omega),
          testBit_top pos low, testBit_top pos (by omega)]
        simp only [decide_eq_true_eq, decide_eq_false_iff_not]
        omega
      have tail : subOnes w (n + 1) x / 2 ^ w = subOnes w n (x / 2 ^ w) := by
        rw [subOnes_succ pos n x zero, low_div _ (by omega)]
      rw [Nat.exists_lt_succ_left, Nat.exists_lt_succ_left]
      simp only [testBit_high, tail, lane_succ, ih, lane_zero, Nat.mul_zero, Nat.zero_add]
      simp only [first, zero, false_or]

end Lanes
