import WormholeFilters.HashBytes
import WormholeFilters.LevelDbAnswers

/-! The bytes the LevelDB filter touches. `CreateFilter` writes its buckets in place,
inside a string that other filters share. `KeyMayMatch` takes the bucket count from the
filter it is given, and reads where that count leads it. -/
namespace WormholeFilters

/-- An access that also keeps a record of every write. -/
def Access.logged (A : Access σ) (record : Nat → Nat → Nat → α) : Access (σ × List α) where
  readTag s := A.readTag s.1
  moveTag s i j t := (A.moveTag s.1 i j t, s.2 ++ [record i j t])
  writeTag s i j t := (A.writeTag s.1 i j t, s.2 ++ [record i j t])

theorem insert_logged (A : Access σ) (record : Nat → Nat → Nat → α) (numBuckets initBuckIdx tag : Nat)
    (s : σ × List α) :
    (insert (A.logged record) numBuckets initBuckIdx tag s).1 = (insert A numBuckets initBuckIdx tag s.1).1 ∧
      (insert (A.logged record) numBuckets initBuckIdx tag s).2.1 =
        (insert A numBuckets initBuckIdx tag s.1).2 := by
  have simulates : Simulates (A.logged record) A (fun s t => s.1 = t) := by
    refine ⟨?_, ?_, ?_⟩
    · rintro s _ rfl i j _
      rfl
    · rintro s _ rfl i j v
      rfl
    · rintro s _ rfl i j v
      rfl
  exact insert_simulates simulates rfl numBuckets initBuckIdx tag

namespace LevelDb

open LittleEndian RingTable

variable {N : Nat}

/-- The string and the stores made to it so far: where each starts, and its bytes. -/
abbrev Logged := List Byte × List (Nat × List Byte)

def slotStore (array numBuckets i j t : Nat) : Nat × List Byte :=
  (array + bucketOffset i numBuckets + 2 * j, encode 2 (t &&& tagMask))

def replay (dst : List Byte) (stores : List (Nat × List Byte)) : List Byte :=
  stores.foldl (fun dst w => store dst w.1 w.2) dst

theorem replay_concat (dst : List Byte) (stores : List (Nat × List Byte)) (w : Nat × List Byte) :
    replay dst (stores ++ [w]) = store (replay dst stores) w.1 w.2 := by
  rw [replay, List.foldl_append]
  rfl

/-- The store stays within the buckets of the filter at `array`. -/
def InBuckets (array numBuckets : Nat) (w : Nat × List Byte) : Prop :=
  array ≤ w.1 ∧ w.1 + w.2.length ≤ array + 8 * numBuckets

def insertItemLogged (array numBuckets : Nat) (s : Logged) (hashcode : Word) :
    Bool × Logged :=
  WormholeFilters.insert ((access array numBuckets).logged (slotStore array numBuckets)) numBuckets
    (initBuckIdx numBuckets hashcode) (tagOf hashcode <<< 4) s

/-- The stores of all `InsertItem` calls of `CreateFilter`, in order. -/
def slotStores (signedChar : Bool) (array numBuckets : Nat) (keys : List (List Byte)) (dst : List Byte) :
    List (Nat × List Byte) :=
  (callAll (fun s key => insertItemLogged array numBuckets s (wormholeHash signedChar key)) keys (dst, [])).2.2

theorem insertItemLogged_replay {array : Nat} {dst : List Byte} {s : Logged}
    (replayed : s.1 = replay dst s.2) (hashcode : Word) :
    (insertItemLogged array N s hashcode).2.1 = replay dst (insertItemLogged array N s hashcode).2.2 := by
  have written : ∀ {s : Logged} (i j t : Nat), s.1 = replay dst s.2 →
      writeTag array N s.1 i j t = replay dst (s.2 ++ [slotStore array N i j t]) := by
    intro s i j t replayed
    rw [replay_concat, ← replayed]
    rfl
  exact insert_invariant (P := fun s : Logged => s.1 = replay dst s.2)
    written written replayed _ _ _

/-- No slot lies outside the buckets, whatever index is reduced to find it. -/
theorem Sized.slotStore_inside (sized : Sized N) (array i t : Nat) {j : Nat} (slot : j < 4) :
    InBuckets array N (slotStore array N i j t) := by
  have inside := Nat.mod_lt i sized.ringSize_pos
  have ring : ringSize N ≤ N := Nat.min_le_left N (2 ^ 29)
  rw [InBuckets, slotStore, sized.bucketOffset_eq, length_encode]
  omega

theorem Sized.insertItemLogged_inside (sized : Sized N) {array : Nat} {s : Logged}
    (inside : ∀ w ∈ s.2, InBuckets array N w) (hashcode : Word) :
    ∀ w ∈ (insertItemLogged array N s hashcode).2.2, InBuckets array N w := by
  have appended : ∀ {s : Logged} (i : Nat), ∀ j < 4, ∀ t,
      (∀ w ∈ s.2, InBuckets array N w) →
      ∀ w ∈ s.2 ++ [slotStore array N i j t], InBuckets array N w := by
    intro s i j slot t inside w member
    rcases List.mem_append.mp member with earlier | last
    · exact inside w earlier
    · rw [List.mem_singleton.mp last]
      exact sized.slotStore_inside array i t slot
  exact insert_slot_invariant (P := fun s : Logged =>
    ∀ w ∈ s.2, InBuckets array N w) appended appended inside _ _ _

/-- The stores make up all that the loop does to the string, and none is outside the buckets. -/
theorem Sized.slotStores_spec (sized : Sized N) (signedChar : Bool) (array : Nat) (keys : List (List Byte))
    (dst : List Byte) :
    (insertKeys signedChar array N keys dst).2 = replay dst (slotStores signedChar array N keys dst) ∧
      ∀ w ∈ slotStores signedChar array N keys dst, InBuckets array N w := by
  have each : ∀ {s : Logged} {t : List Byte} (key : List Byte),
      (s.1 = t ∧ s.1 = replay dst s.2 ∧ ∀ w ∈ s.2, InBuckets array N w) →
      let s' := insertItemLogged array N s (wormholeHash signedChar key)
      let t' := insertItem array N t (wormholeHash signedChar key)
      s'.1 = t'.1 ∧ s'.2.1 = t'.2 ∧ s'.2.1 = replay dst s'.2.2 ∧
        ∀ w ∈ s'.2.2, InBuckets array N w := by
    rintro s _ key ⟨rfl, replayed, inside⟩
    obtain ⟨result, bytes⟩ := insert_logged (access array N) (slotStore array N) N
      (initBuckIdx N (wormholeHash signedChar key)) (tagOf (wormholeHash signedChar key) <<< 4) s
    exact ⟨result, bytes, insertItemLogged_replay replayed _, sized.insertItemLogged_inside inside _⟩
  obtain ⟨-, bytes, replayed, inside⟩ := callAll_related (R := fun s t => s.1 = t ∧ s.1 = replay dst s.2 ∧
    ∀ w ∈ s.2, InBuckets array N w) each keys (s := (dst, [])) (t := dst)
    ⟨rfl, rfl, fun w member => by simp at member⟩
  exact ⟨by rw [insertKeys, ← bytes, replayed, slotStores], inside⟩

/-- `CreateFilter` appends `8 * N + 8` bytes that do not depend on the string, keeps
what was there, and its `InsertItem` calls write to the buckets only. -/
theorem createFilter_appends (signedChar : Bool) (keys : List (List Byte)) (count : keys.length < 2 ^ 31) :
    let N := numBuckets keys.length
    ∃ appended, appended.length = 8 * N + 8 ∧ bytes? appended (8 * N) 8 = some N ∧ ∀ dst,
      createFilter signedChar keys keys.length dst = dst ++ appended ∧
      let stores := slotStores signedChar dst.length N keys (dst ++ zeros N)
      (insertKeys signedChar dst.length N keys (dst ++ zeros N)).2 = replay (dst ++ zeros N) stores ∧
      ∀ w ∈ stores, InBuckets dst.length N w := by
  intro N
  have sized : Sized N := numBuckets_sized count
  have size := sized.le
  have length : (buckets signedChar N keys).length = 8 * N := by
    rw [buckets, length_insertKeys, zeros, List.length_replicate]
  have trailer := bytes?_trailer (buckets signedChar N keys) (show N < 2 ^ 64 by omega)
  rw [List.length_append, length, length_encode, wrapSub_add_right] at trailer
  refine ⟨buckets signedChar N keys ++ encode 8 N, by rw [List.length_append, length, length_encode], trailer,
    fun dst => ⟨?_, sized.slotStores_spec signedChar dst.length keys (dst ++ zeros N)⟩⟩
  rw [createFilter_eq, Int.toNat_natCast, List.take_length]

/-- With 65 keys, for the last of which `InsertItem` fails, 264 bytes are appended behind the filter of another
range, and no call writes to that one or to the count. -/
theorem createFilter_appends_crowded : ∃ appended : List Byte, appended.length = 264 ∧ bytes? appended 256 8 = some 32 ∧
    let dst := createFilter true [[97#8], [115#8]] (2 : Nat) []
    createFilter true crowdedKeys crowdedKeys.length dst = dst ++ appended ∧
      ∀ w ∈ slotStores true dst.length 32 crowdedKeys (dst ++ zeros 32), InBuckets dst.length 32 w := by
  obtain ⟨appended, length, count, only⟩ := createFilter_appends true crowdedKeys (by decide)
  rw [crowdedKeys_pairs.1] at length count only
  exact ⟨appended, length, count, (only _).1, (only _).2.2⟩

/-- The offsets a filter's count can lead to: at most that of the mask's low 29 bits. -/
theorem bucketOffset_le (i N : Nat) : bucketOffset i N ≤ 8 * (wrapSub 64 N 1 % 2 ^ 29) := by
  have masked : (i &&& wrapSub 64 N 1) % 2 ^ 29 ≤ wrapSub 64 N 1 % 2 ^ 29 := by
    rw [Nat.and_mod_two_pow]
    exact Nat.and_le_right
  rw [bucketOffset, mod]
  omega

/-- An index that ends like the mask reaches that offset. -/
theorem bucketOffset_mask (N : Nat) : bucketOffset (wrapSub 64 N 1 % 2 ^ 32) N = 8 * (wrapSub 64 N 1 % 2 ^ 29) := by
  have masked : (wrapSub 64 N 1 % 2 ^ 32 &&& wrapSub 64 N 1) % 2 ^ 32 = wrapSub 64 N 1 % 2 ^ 32 := by
    rw [Nat.and_mod_two_pow, Nat.mod_mod, Nat.and_self]
  rw [bucketOffset, mod, masked]
  omega

theorem probe_ne_none {filter : List Byte} {N init tag : Nat} {probs : List Nat}
    (inside : ∀ prob ∈ probs, bucketOffset (init + prob) N + 8 ≤ filter.length) :
    probe filter N init tag probs ≠ none := by
  induction probs with
  | nil => simp [probe]
  | cons prob probs ih =>
    have word : bytes? filter (bucketOffset (init + prob) N) 8 =
        some (load filter (bucketOffset (init + prob) N) 8) := if_pos (inside prob List.mem_cons_self)
    rw [probe, word]
    simp only [Option.bind_eq_bind, Option.bind_some]
    split
    · simp
    · exact ih fun later member => inside later (List.mem_cons_of_mem prob member)

/-- Some key's first probe goes to the last offset the count allows. -/
theorem exists_far_key (signedChar : Bool) (N : Nat) :
    ∃ key, bucketOffset (initBuckIdx N (wormholeHash signedChar key) + 0) N = 8 * (wrapSub 64 N 1 % 2 ^ 29) := by
  obtain ⟨key, code⟩ := wormholeHash_surjective signedChar (BitVec.ofNat 64 (wrapSub 64 N 1 % 2 ^ 32))
  have low : (BitVec.ofNat 64 (wrapSub 64 N 1 % 2 ^ 32)).toNat % 2 ^ 32 = wrapSub 64 N 1 % 2 ^ 32 := by
    rw [BitVec.toNat_ofNat]
    omega
  refine ⟨key, ?_⟩
  rw [code, initBuckIdx, indexHash, mod, low, Nat.and_mod_two_pow, Nat.mod_mod, Nat.and_self, Nat.add_zero,
    bucketOffset_mask]

/-- `KeyMayMatch` stays inside a filter, whatever the key, exactly when the filter is cut
off by the length test or its last eight bytes hold a count `N` that fits: the buckets up
to the low 29 bits of `N - 1` lie inside. All sixteen probes are then inside. -/
theorem keyMayMatch_in_bounds_iff (signedChar : Bool) (filter : List Byte) :
    let N := load filter (filter.length - 8) 8
    let fits := 8 ≤ filter.length ∧ 8 * ((N + 2 ^ 64 - 1) % 2 ^ 29) + 8 ≤ filter.length
    ((∀ key, keyMayMatch signedChar key filter ≠ none) ↔ filter.length < 2 ∨ fits) ∧
    (fits → ∀ key, ∀ prob < maxProb,
      bucketOffset (initBuckIdx N (wormholeHash signedChar key) + prob) N + 8 ≤ filter.length) := by
  intro N fits
  have count : N < 2 ^ 64 := load_lt filter (filter.length - 8) 8
  have mask : (N + 2 ^ 64 - 1) % 2 ^ 29 = wrapSub 64 N 1 % 2 ^ 29 := by
    rw [wrapSub]
    split <;> omega
  have inside : fits → ∀ i, bucketOffset i N + 8 ≤ filter.length := by
    rintro ⟨_, room⟩ i
    have := bucketOffset_le i N
    omega
  have trailer : 8 ≤ filter.length → bytes? filter (wrapSub 64 filter.length 8) 8 = some N := by
    intro long
    rw [wrapSub_of_le long]
    exact if_pos (by omega)
  refine ⟨⟨fun safe => ?_, ?_⟩, fun room key prob _ => inside room _⟩
  · by_contra outside
    obtain ⟨long, tight⟩ := not_or.mp outside
    by_cases whole : 8 ≤ filter.length
    · obtain ⟨key, far⟩ := exists_far_key signedChar N
      apply safe key
      have missing : bytes? filter (8 * (wrapSub 64 N 1 % 2 ^ 29)) 8 = none :=
        if_neg fun room => tight ⟨whole, by omega⟩
      rw [keyMayMatch_of_trailer long (trailer whole), maxProb, List.range_succ_eq_map, probe, far, missing]
      rfl
    · apply safe []
      have missing : bytes? filter (wrapSub 64 filter.length 8) 8 = none := by
        rw [wrapSub, if_neg whole]
        exact if_neg (by omega)
      rw [keyMayMatch, if_neg long, missing]
      rfl
  · rintro (short | room) key
    · rw [keyMayMatch, if_pos short]
      simp
    · rw [keyMayMatch_of_trailer (by have := room.1; omega) (trailer room.1)]
      exact probe_ne_none fun prob _ => inside room _

theorem keyMayMatch_in_bounds_sixteen :
    keyMayMatch true [97#8] (List.replicate 8 0#8 ++ encode 8 1) ≠ none :=
  (keyMayMatch_in_bounds_iff true (List.replicate 8 0#8 ++ encode 8 1)).1.mpr (Or.inr (by decide +kernel)) [97#8]

/-- Two bytes pass the length test, but the count would be eight bytes long; and eight
zero bytes hold the count zero, whose mask lets every bucket through. -/
theorem keyMayMatch_out_of_bounds :
    keyMayMatch true [97#8] [0#8, 0#8] = none ∧ keyMayMatch true [97#8] (List.replicate 8 0#8) = none := by
  decide +kernel

end LevelDb

end WormholeFilters
