import Mathlib.Data.List.Basic
import WormholeFilters.LittleEndian

/-! A register that shifts right and takes in a feedback word for every bit shifted out:
a step is linear for the exclusive or, so the parts of an input can be run apart. -/
namespace ShiftRegister

variable {w : Nat} (poly : BitVec w)

def bitStep (x : BitVec w) : BitVec w := (x >>> 1) ^^^ if x.getLsbD 0 then poly else 0#w

/-- The register after `n` zero bits. -/
def advance : Nat → BitVec w → BitVec w
  | 0, x => x
  | n + 1, x => advance n (bitStep poly x)

def feed (x : BitVec w) (bytes : List (BitVec 8)) : BitVec w :=
  bytes.foldl (fun x b => advance poly 8 (x ^^^ b.setWidth w)) x

theorem xor_xor_xor_comm (a b c d : BitVec w) : a ^^^ b ^^^ (c ^^^ d) = a ^^^ c ^^^ (b ^^^ d) := by
  rw [BitVec.xor_assoc, ← BitVec.xor_assoc b, BitVec.xor_comm b c, BitVec.xor_assoc c, ← BitVec.xor_assoc]

theorem bitStep_xor (x y : BitVec w) : bitStep poly (x ^^^ y) = bitStep poly x ^^^ bitStep poly y := by
  rw [bitStep, bitStep, bitStep, BitVec.ushiftRight_xor_distrib, xor_xor_xor_comm, BitVec.getLsbD_xor]
  congr 1
  cases x.getLsbD 0 <;> cases y.getLsbD 0 <;> simp

@[simp] theorem advance_zero (x : BitVec w) : advance poly 0 x = x := rfl

theorem advance_xor (n : Nat) (x y : BitVec w) : advance poly n (x ^^^ y) = advance poly n x ^^^ advance poly n y := by
  induction n generalizing x y with
  | zero => rfl
  | succ n ih => rw [advance, bitStep_xor, ih, ← advance, ← advance]

theorem advance_add (m n : Nat) (x : BitVec w) : advance poly (m + n) x = advance poly n (advance poly m x) := by
  induction m generalizing x with
  | zero => rw [Nat.zero_add, advance_zero]
  | succ m ih => rw [Nat.succ_add, advance, ih, ← advance]

/-- While the bits shifted out are zero, the register only shifts. -/
theorem advance_of_low_zero {n : Nat} {x : BitVec w} (low : ∀ i, i < n → x.getLsbD i = false) :
    advance poly n x = x >>> n := by
  induction n generalizing x with
  | zero => simp
  | succ n ih =>
    have shifted : bitStep poly x = x >>> 1 := by simp [bitStep, low 0 (Nat.succ_pos n)]
    rw [advance, shifted, ih, ← BitVec.shiftRight_add, Nat.add_comm]
    intro i inside
    rw [BitVec.getLsbD_ushiftRight]
    exact low (1 + i) (by omega)

theorem feed_append (x : BitVec w) (xs ys : List (BitVec 8)) :
    feed poly x (xs ++ ys) = feed poly (feed poly x xs) ys := List.foldl_append

/-- A number whose low bits are apart from the rest. -/
theorem two_pow_mul_add_eq_xor {k j : Nat} (a : Nat) (below : j < 2 ^ k) : 2 ^ k * a + j = (2 ^ k * a) ^^^ j := by
  rw [Nat.two_pow_add_eq_or_of_lt below a]
  refine Nat.eq_of_testBit_eq fun i => ?_
  rw [Nat.testBit_or, Nat.testBit_xor, Nat.testBit_two_pow_mul]
  by_cases high : k ≤ i
  · rw [Nat.testBit_lt_two_pow (Nat.lt_of_lt_of_le below (Nat.pow_le_pow_right (by decide) high)), Bool.or_false,
      Bool.xor_false]
  · simp [high]

/-- A word at the low end shows what was above it when that is moved down. -/
theorem advance_eq_of_low {n : Nat} {x y : BitVec w} (low : ∀ i, i < n → x.getLsbD i = y.getLsbD i) :
    advance poly n x = advance poly n y ^^^ ((x ^^^ y) >>> n) := by
  have apart : advance poly n (x ^^^ y) = (x ^^^ y) >>> n := by
    refine advance_of_low_zero poly fun i inside => ?_
    rw [BitVec.getLsbD_xor, low i inside, Bool.xor_self]
  rw [← apart, ← advance_xor, BitVec.xor_comm y, BitVec.xor_assoc, BitVec.xor_self, BitVec.xor_zero]

/-- Bytes that fit the register at once. -/
theorem feed_load (x : BitVec w) {n : Nat} {p : List (BitVec 8)} (inside : n ≤ p.length) (fits : 8 * n ≤ w) :
    feed poly x (p.take n) = advance poly (8 * n) (x ^^^ BitVec.ofNat w (LittleEndian.load p 0 n)) := by
  induction n generalizing x p with
  | zero => simp [feed, LittleEndian.load]
  | succ n ih =>
    obtain ⟨b, p, rfl⟩ := List.exists_cons_of_length_pos (Nat.lt_of_lt_of_le (Nat.succ_pos n) inside)
    have number : LittleEndian.load (b :: p) 0 (n + 1) = 2 ^ 8 * LittleEndian.load p 0 n + b.toNat := by
      rw [LittleEndian.load, Nat.add_comm]
      have tail := LittleEndian.load_append_right [b] p 0 n
      rw [List.length_singleton, List.singleton_append] at tail
      rw [tail]
      rfl
    have small : LittleEndian.load p 0 n < 2 ^ (w - 8) := by
      refine Nat.lt_of_lt_of_le (LittleEndian.load_lt p 0 n) ?_
      rw [show 256 = 2 ^ 8 from rfl, ← Nat.pow_mul]
      exact Nat.pow_le_pow_right (by decide) (by omega)
    have moved : advance poly 8 (BitVec.ofNat w (2 ^ 8 * LittleEndian.load p 0 n)) =
        BitVec.ofNat w (LittleEndian.load p 0 n) := by
      have whole : 2 ^ 8 * LittleEndian.load p 0 n < 2 ^ w := by
        rw [show 2 ^ w = 2 ^ 8 * 2 ^ (w - 8) by rw [← Nat.pow_add]; congr 1; omega]
        exact Nat.mul_lt_mul_of_pos_left small (by decide)
      rw [advance_of_low_zero poly]
      · refine BitVec.eq_of_toNat_eq ?_
        rw [BitVec.toNat_ushiftRight, BitVec.toNat_ofNat, BitVec.toNat_ofNat, Nat.mod_eq_of_lt whole,
          Nat.shiftRight_eq_div_pow, Nat.mul_div_cancel_left _ (by decide), Nat.mod_eq_of_lt (by omega)]
      · intro i inside
        rw [BitVec.getLsbD_ofNat, Nat.testBit_two_pow_mul]
        simp [Nat.not_le.mpr inside]
    rw [List.take_succ_cons, feed, List.foldl_cons, ← feed, ih _ (Nat.le_of_succ_le_succ inside) (by omega), number,
      two_pow_mul_add_eq_xor _ b.isLt, BitVec.ofNat_xor, Nat.mul_succ, Nat.add_comm, advance_add]
    congr 1
    rw [BitVec.xor_comm (BitVec.ofNat w (2 ^ 8 * _)), ← BitVec.xor_assoc, BitVec.ofNat_toNat,
      advance_xor poly 8 (x ^^^ b.setWidth w), moved]

section Injective

variable {poly} (top : poly.getLsbD (w - 1) = true)

include top in
/-- With the highest bit in the feedback word, a step shows there what it shifted out. -/
theorem bitStep_injective {x y : BitVec w} (same : bitStep poly x = bitStep poly y) : x = y := by
  have wide : 0 < w := by
    by_contra none
    obtain rfl : w = 0 := by omega
    simp [BitVec.eq_nil poly] at top
  have high (x : BitVec w) : (bitStep poly x).getLsbD (w - 1) = x.getLsbD 0 := by
    rw [bitStep, BitVec.getLsbD_xor, BitVec.getLsbD_ushiftRight, BitVec.getLsbD_of_ge x _ (by omega), Bool.false_xor]
    cases x.getLsbD 0 <;> simp [top]
  have low : x.getLsbD 0 = y.getLsbD 0 := by rw [← high x, same, high y]
  rw [bitStep, bitStep, low] at same
  have rest : x >>> 1 = y >>> 1 := by
    have cancel := congrArg (· ^^^ if y.getLsbD 0 = true then poly else 0#w) same
    simpa [BitVec.xor_assoc] using cancel
  refine BitVec.eq_of_getLsbD_eq fun i inside => ?_
  cases i with
  | zero => exact low
  | succ i =>
    have bit := congrArg (BitVec.getLsbD · i) rest
    simpa [BitVec.getLsbD_ushiftRight, Nat.add_comm] using bit

include top in
theorem advance_injective {n : Nat} {x y : BitVec w} (same : advance poly n x = advance poly n y) : x = y := by
  induction n generalizing x y with
  | zero => exact same
  | succ n ih => exact bitStep_injective top (ih same)

include top in
theorem feed_injective {x y : BitVec w} (bytes : List (BitVec 8)) (same : feed poly x bytes = feed poly y bytes) :
    x = y := by
  induction bytes generalizing x y with
  | nil => exact same
  | cons b bytes ih =>
    have first := advance_injective top (ih same)
    have cancel := congrArg (· ^^^ b.setWidth w) first
    simpa [BitVec.xor_assoc] using cancel

include top in
/-- Inputs that differ only in as many bytes as the register has end in different registers. -/
theorem feed_burst {x : BitVec w} {front back u v : List (BitVec 8)} (length : u.length = v.length)
    (fits : 8 * u.length ≤ w)
    (same : feed poly x (front ++ u ++ back) = feed poly x (front ++ v ++ back)) : u = v := by
  have whole (x : BitVec w) {u : List (BitVec 8)} (fits : 8 * u.length ≤ w) : feed poly x u =
      advance poly (8 * u.length) (x ^^^ BitVec.ofNat w (LittleEndian.load u 0 u.length)) := by
    have loaded := feed_load poly x (Nat.le_refl u.length) fits
    rwa [List.take_length] at loaded
  have small {u : List (BitVec 8)} (fits : 8 * u.length ≤ w) : LittleEndian.load u 0 u.length < 2 ^ w := by
    refine Nat.lt_of_lt_of_le (LittleEndian.load_lt u 0 u.length) ?_
    rw [show 256 = 2 ^ 8 from rfl, ← Nat.pow_mul]
    exact Nat.pow_le_pow_right (by decide) fits
  rw [feed_append, feed_append, feed_append, feed_append] at same
  have parts := feed_injective top back same
  have fits' : 8 * v.length ≤ w := length ▸ fits
  rw [whole _ fits, whole _ fits', ← length] at parts
  have words := advance_injective top parts
  rw [BitVec.xor_right_inj] at words
  have numbers := congrArg BitVec.toNat words
  rw [BitVec.toNat_ofNat, BitVec.toNat_ofNat, Nat.mod_eq_of_lt (small fits), length,
    Nat.mod_eq_of_lt (small fits'), ← length] at numbers
  exact LittleEndian.eq_of_load_eq length numbers

end Injective

section Tables

/-- All sums of words, those of later words behind those of earlier ones. -/
def spread (basis : List Nat) : List Nat := basis.foldl (fun sums b => sums ++ sums.map (b ^^^ ·)) [0]

/-- The table of a linear function is spread from its values at the powers of two. -/
theorem getElem?_spread {f : BitVec w → BitVec w} (linear : ∀ x y, f (x ^^^ y) = f x ^^^ f y) {n i : Nat}
    (inside : i < 2 ^ n) :
    (spread ((List.range n).map fun k => (f (BitVec.ofNat w (2 ^ k))).toNat))[i]? =
      some (f (BitVec.ofNat w i)).toNat := by
  have length (n : Nat) : (spread ((List.range n).map fun k => (f (BitVec.ofNat w (2 ^ k))).toNat)).length = 2 ^ n := by
    induction n with
    | zero => rfl
    | succ n ih =>
      rw [List.range_succ, List.map_append, spread, List.foldl_append, ← spread]
      simp only [List.map_cons, List.map_nil, List.foldl_cons, List.foldl_nil, List.length_append, List.length_map, ih]
      omega
  induction n generalizing i with
  | zero =>
    obtain rfl : i = 0 := by omega
    have self := linear 0#w 0#w
    rw [BitVec.xor_self, BitVec.xor_self] at self
    rw [self]
    rfl
  | succ n ih =>
    rw [List.range_succ, List.map_append, spread, List.foldl_append, ← spread, List.map_singleton, List.foldl_cons,
      List.foldl_nil]
    rcases Nat.lt_or_ge i (2 ^ n) with below | above
    · rw [List.getElem?_append_left (by rwa [length]), ih below]
    · obtain ⟨j, rfl⟩ := Nat.exists_eq_add_of_le above
      have below : j < 2 ^ n := by omega
      rw [List.getElem?_append_right (by rw [length]; exact above), length, Nat.add_sub_cancel_left, List.getElem?_map,
        ih below, Option.map_some, ← BitVec.toNat_xor, ← linear, ← Nat.mul_one (2 ^ n), two_pow_mul_add_eq_xor 1 below,
        BitVec.ofNat_xor]

end Tables

end ShiftRegister
