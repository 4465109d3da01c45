import WormholeFilters.LevelDbFilter
import WormholeFilters.PmRefinement

/-! The bucket counts the two filters compute. Both round twice on the way; small
numbers of keys can end with too few buckets. -/
namespace WormholeFilters

/-- `sizeof(struct pmwormholefilter)`, which is also the offset of `buckets_`: the
hash function's two 128-bit members align the structure to 16 bytes. -/
def Pm.headerBytes : Nat := 48

/-- What `pmwormholefilter_init` stores in `num_buckets_`, and what it asks
`TX_ZALLOC` for. -/
structure Pm.Allocation where
  numBuckets : Nat
  bytes : Nat
  deriving DecidableEq, Repr

def Pm.allocate (maxNumKeys : Nat) : Pm.Allocation :=
  ⟨Pm.numBuckets maxNumKeys % 2 ^ 32, (Pm.headerBytes + 8 * Pm.numBuckets maxNumKeys) % 2 ^ 64⟩

def Pm.Allocation.buckets (a : Pm.Allocation) : Nat := (a.bytes - Pm.headerBytes) / 8

theorem Pm.allocate_eq {maxNumKeys : Nat} (bound : maxNumKeys < 2 ^ 32) :
    (Pm.allocate maxNumKeys).numBuckets = 5 * (maxNumKeys / 4) / 4 ∧
      (Pm.allocate maxNumKeys).buckets = 5 * (maxNumKeys / 4) / 4 := by
  have stored : 5 * (maxNumKeys / 4) / 4 < 2 ^ 32 := by omega
  have requested : 48 + 8 * (5 * (maxNumKeys / 4) / 4) < 2 ^ 64 := by omega
  simp only [Pm.Allocation.buckets, Pm.allocate, Pm.numBuckets_eq, Pm.headerBytes, Nat.mod_eq_of_lt stored,
    Nat.mod_eq_of_lt requested, true_and]
  omega

/-- The filter has a bucket, memory for its buckets, a slot for each key and indices
below `2 ^ 32` exactly when the rounding of `max_num_keys / 4` loses nothing or is made
up for by the division by 0.8. -/
theorem Pm.allocate_usable_iff {maxNumKeys : Nat} (pos : 1 ≤ maxNumKeys) (bound : maxNumKeys < 2 ^ 32) :
    (let a := Pm.allocate maxNumKeys
    (1 ≤ a.numBuckets ∧ a.buckets = a.numBuckets ∧ maxNumKeys ≤ 4 * a.numBuckets ∧
      ∀ key, Pm.initBuckIdx a.numBuckets key + a.numBuckets < 2 ^ 32) ↔
    16 ≤ maxNumKeys ∨ 4 ∣ maxNumKeys) := by
  intro a
  obtain ⟨count, allocated⟩ : a.numBuckets = _ ∧ a.buckets = _ := Pm.allocate_eq bound
  rw [allocated, count]
  constructor
  · rintro ⟨_, _, slots, _⟩
    omega
  · intro large
    have some : 1 ≤ 5 * (maxNumKeys / 4) / 4 := by omega
    refine ⟨some, rfl, by omega, fun key => ?_⟩
    have : NeZero (5 * (maxNumKeys / 4) / 4) := ⟨by omega⟩
    have home := Pm.initBuckIdx_lt (N := 5 * (maxNumKeys / 4) / 4) key
    omega

theorem Pm.allocate_usable_sixteen :
    let a := Pm.allocate 16
    1 ≤ a.numBuckets ∧ a.buckets = a.numBuckets ∧ 16 ≤ 4 * a.numBuckets ∧
      ∀ key, Pm.initBuckIdx a.numBuckets key + a.numBuckets < 2 ^ 32 :=
  (Pm.allocate_usable_iff (by decide) (by decide)).mpr (Or.inl (by decide))

/-- Three keys get no bucket, so that an index is reduced modulo zero, and five keys
get four slots. -/
theorem Pm.allocate_too_small :
    (Pm.allocate 3).numBuckets = 0 ∧ (Pm.allocate 5).numBuckets = 1 ∧
      ¬ 5 ≤ 4 * (Pm.allocate 5).numBuckets := by
  have three := Pm.allocate_eq (show 3 < 2 ^ 32 by decide)
  have five := Pm.allocate_eq (show 5 < 2 ^ 32 by decide)
  omega

/-- The mask reduces modulo the bucket count, and the load is at most 0.8, for every
number of keys but seven. -/
theorem LevelDb.numBuckets_load_iff {n : Nat} (pos : 1 ≤ n) (bound : n < 2 ^ 31) :
    (let N := LevelDb.numBuckets n
    ((∃ k, N = 2 ^ k) ∧ (∀ i, LevelDb.mod i N = i % N) ∧ (n : Rat) / (4 * N) ≤ 0.8) ↔ n ≠ 7) := by
  intro N
  have sized : LevelDb.Sized N := LevelDb.numBuckets_sized bound
  have count : N = _ := LevelDb.numBuckets_eq bound
  have request := Nat.lt_size_self (max 1 (n / 4) - 1)
  have load : (n : Rat) / (4 * N) ≤ 0.8 ↔ 5 * n ≤ 16 * N := by
    have divisor : (0 : Rat) < 4 * N := by
      have := sized.pos
      positivity
    rw [div_le_iff₀ divisor, ← @Nat.cast_le Rat]
    push_cast
    constructor <;> intro light <;> linarith
  have power : ∃ k, N = 2 ^ k := sized.imp fun k => And.right
  rw [load, and_iff_right power, and_iff_right fun i => sized.mod_eq i]
  constructor
  · rintro light rfl
    have small : (max 1 (7 / 4) - 1).size = 0 := by decide
    have two : N = 2 := by rw [count, small]; rfl
    omega
  · intro other
    generalize size : (max 1 (n / 4) - 1).size = k at count request
    cases k with
    | zero =>
      rw [Nat.size_eq_zero] at size
      simp only [pow_zero] at count
      split at count <;> omega
    | succ k =>
      have even : 2 ≤ 2 ^ (k + 1) := by
        rw [pow_succ]
        have := Nat.two_pow_pos k
        omega
      simp only at count
      split at count <;> omega

theorem LevelDb.numBuckets_load_six :
    LevelDb.numBuckets (6 : Nat) = 2 ∧ ((6 : Nat) : Rat) / (4 * (LevelDb.numBuckets (6 : Nat) : Nat)) ≤ 0.8 :=
  ⟨by decide +kernel, ((LevelDb.numBuckets_load_iff (by decide) (by decide)).mpr (by decide)).2.2⟩

/-- Seven keys are sized as four: one bucket, doubled once, leaves a load of 7/8. -/
theorem LevelDb.seven_overload :
    LevelDb.numBuckets (7 : Nat) = 2 ∧ ¬ ((7 : Nat) : Rat) / (4 * (LevelDb.numBuckets (7 : Nat) : Nat)) ≤ 0.8 := by
  have count : LevelDb.numBuckets (7 : Nat) = 2 := by decide +kernel
  rw [count]
  norm_num

end WormholeFilters
