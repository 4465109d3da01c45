import WormholeFilters.LevelDbFilter
import WormholeFilters.PmRefinement

/-! Both insertions reject a key only when no arrangement of the keys would take it:
a list goes in without a failure exactly when its homes can be assigned to buckets,
in whatever order it comes. -/
namespace WormholeFilters

open RingTable

theorem Pm.inserter {N : Nat} [NeZero N] (small : 2 * N < 2 ^ 32) :
    Inserter 16 (Pm.ringTable (N := N)) (fun _ => True) (Pm.e N) Pm.insert :=
  ⟨fun _ _ => trivial, fun key _ => Pm.insert_insertion small _ key⟩

def LevelDb.zeros (N : Nat) : List LittleEndian.Byte := List.replicate (8 * N) 0#8

theorem LevelDb.ringTable_zeros (N : Nat) : LevelDb.ringTable N (LevelDb.zeros N) = fun _ => none := by
  funext q
  simp only [LevelDb.ringTable, table, LevelDb.access, LevelDb.readTag, LevelDb.zeros,
    LittleEndian.load_zeros, Nat.zero_and, decode, if_true]

theorem LevelDb.ringSize_le_zeros (N : Nat) : 8 * LevelDb.ringSize N ≤ (LevelDb.zeros N).length := by
  rw [LevelDb.zeros, List.length_replicate]
  exact Nat.mul_le_mul_left 8 (Nat.min_le_left N (2 ^ 29))

theorem Pm.inserts_complete {N : Nat} [NeZero N] (small : 2 * N < 2 ^ 32) (keys : List Word) :
    (∀ r ∈ (callAll Pm.insert keys (Pm.init N)).1, r = true) ↔
      Assignable 4 16 N (keys.map (Pm.initBuckIdx N)) :=
  (Pm.inserter small).all_true_iff_assignable (fun _ => rfl) trivial Pm.ringTable_init keys

theorem LevelDb.Sized.inserts_complete {N : Nat} (sized : LevelDb.Sized N) (hashes : List Word) :
    (∀ r ∈ (callAll (LevelDb.insertItem 0 N) hashes (LevelDb.zeros N)).1, r = true) ↔
      Assignable 4 16 (LevelDb.ringSize N) (hashes.map (LevelDb.initBuckIdx N)) := by
  have := sized.neZero
  exact sized.inserter.all_true_iff_assignable (fun _ => rfl) (LevelDb.ringSize_le_zeros N)
    (LevelDb.ringTable_zeros N) hashes

theorem LevelDb.sized_of_bytes {N k : Nat} (power : N = 2 ^ k) (bytes : 8 * N ≤ 2 ^ 32) :
    LevelDb.Sized N ∧ LevelDb.ringSize N = N := by
  have small : N ≤ 2 ^ 29 := by omega
  refine ⟨⟨k, ?_, power⟩, Nat.min_eq_left small⟩
  rw [power, Nat.pow_le_pow_iff_right (by decide)] at small
  omega

/-- The greedy displacement is complete in both filters. -/
theorem displacement_complete :
    (∀ (N : Nat) [NeZero N], Pm.Produced N → ∀ keys : List Word,
      ((∀ r ∈ (callAll Pm.insert keys (Pm.init N)).1, r = true) ↔
        Assignable 4 16 N (keys.map (Pm.initBuckIdx N))) ∧
      ∀ keys', keys.Perm keys' →
        ((∀ r ∈ (callAll Pm.insert keys (Pm.init N)).1, r = true) ↔
          ∀ r ∈ (callAll Pm.insert keys' (Pm.init N)).1, r = true)) ∧
    (∀ N k : Nat, N = 2 ^ k → 8 * N ≤ 2 ^ 32 → ∀ hashes : List Word,
      ((∀ r ∈ (callAll (LevelDb.insertItem 0 N) hashes (LevelDb.zeros N)).1, r = true) ↔
        Assignable 4 16 N (hashes.map (LevelDb.initBuckIdx N))) ∧
      ∀ hashes', hashes.Perm hashes' →
        ((∀ r ∈ (callAll (LevelDb.insertItem 0 N) hashes (LevelDb.zeros N)).1, r = true) ↔
          ∀ r ∈ (callAll (LevelDb.insertItem 0 N) hashes' (LevelDb.zeros N)).1, r = true)) := by
  refine ⟨fun N _ produced keys => ?_, fun N k power bytes hashes => ?_⟩
  · have complete := Pm.inserts_complete produced.small
    refine ⟨complete keys, fun keys' perm => ?_⟩
    rw [complete, complete, assignable_perm (perm.map _)]
  · obtain ⟨sized, ring⟩ := LevelDb.sized_of_bytes power bytes
    have : NeZero N := ⟨Nat.ne_of_gt sized.pos⟩
    have complete := sized.inserts_complete
    rw [ring] at complete
    refine ⟨complete hashes, fun hashes' perm => ?_⟩
    rw [complete, complete, assignable_perm (perm.map _)]

/-- Four copies of key 0 fit into the bucket of a filter of size one, a fifth does not. -/
theorem displacement_complete_five :
    (∀ r ∈ (callAll Pm.insert (List.replicate 4 0#64) (Pm.init 1)).1, r = true) ∧
    ¬ Assignable 4 16 1 [0, 0, 0, 0, 0] := by
  have produced : Pm.Produced 1 := ⟨4, by decide, by rw [Pm.numBuckets_eq]⟩
  have complete := displacement_complete.1 1 produced
  refine ⟨by decide, fun assignable => ?_⟩
  exact absurd ((complete (List.replicate 5 0#64)).1.mpr assignable) (by decide)

end WormholeFilters
