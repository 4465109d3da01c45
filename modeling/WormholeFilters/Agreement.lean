import WormholeFilters.LevelDbAnswers

/-! The two filters are one: over a power of two of buckets the persistent-memory
filter and the LevelDB filter, fed the same hash codes, return the same results, hold
the same slots and give the same answers. -/
namespace WormholeFilters

open LittleEndian RingTable

variable {N : Nat}

def SameSlots (m : Pm.Memory N) (array : List Byte) : Prop :=
  8 * N ≤ array.length ∧ ∀ i, ∀ j < 4, Pm.readTag m i j = LevelDb.readTag 0 N array i j

theorem sameSlots_start (N : Nat) : SameSlots (Pm.init N) (LevelDb.zeros N) := by
  refine ⟨by simp [LevelDb.zeros], fun i j _ => ?_⟩
  have empty : slot 0#64 j = 0 := by simp [slot, Lanes.lane]
  rw [Pm.readTag, Pm.bucket_init_volatile, empty, LevelDb.readTag, LevelDb.zeros, load_zeros]
  rfl

theorem Pm.writeTag_mod (m : Pm.Memory N) (i j v : Nat) :
    Pm.writeTag m i j (v % 2 ^ 16) = Pm.writeTag m i j v := by
  rw [Pm.writeTag, Pm.writeTag, setSlot, setSlot, Nat.mod_mod]

theorem LevelDb.writeTag_mod (array : Nat) (dst : List Byte) (i j v : Nat) :
    LevelDb.writeTag array N dst i j (v % 2 ^ 16) = LevelDb.writeTag array N dst i j v := by
  rw [LevelDb.writeTag, LevelDb.writeTag, LevelDb.and_tagMask, LevelDb.and_tagMask, Nat.mod_mod]

theorem SameSlots.writeTag [NeZero N] (sized : LevelDb.Sized N) (ring : LevelDb.ringSize N = N)
    {m : Pm.Memory N} {array : List Byte} (same : SameSlots m array) (i : Nat) {j : Nat} (slot : j < 4)
    (v : Nat) : SameSlots (Pm.writeTag m i j v) (LevelDb.writeTag 0 N array i j v) := by
  have bound : v % 2 ^ 16 < 2 ^ 16 := Nat.mod_lt v (by decide)
  refine ⟨by simpa only [LevelDb.writeTag, length_store] using same.1, fun i' j' slot' => ?_⟩
  rw [← Pm.writeTag_mod, ← LevelDb.writeTag_mod, Pm.readTag_writeTag m slot bound,
    sized.readTag_writeTag (by rw [ring, Nat.zero_add]; exact same.1) slot slot' bound, ring,
    same.2 i' j' slot']

/-- Persisting a bucket does not change what is read. -/
theorem sameSlots_access [NeZero N] (sized : LevelDb.Sized N) (ring : LevelDb.ringSize N = N) :
    SlotSimulates (Pm.access N) (LevelDb.access 0 N) SameSlots where
  read same i j slot := same.2 i j slot
  move same i _ slot v := same.writeTag sized ring i slot v
  write same i _ slot v := same.writeTag sized ring i slot v

theorem initBuckIdx_agrees (sized : LevelDb.Sized N) (hash : Word) :
    Pm.initBuckIdx N hash = LevelDb.initBuckIdx N hash := by
  have inside := Nat.mod_lt (hash.toNat % 2 ^ 32) sized.pos
  have size := sized.le
  rw [Pm.initBuckIdx, Pm.indexHash, Pm.hasher, LevelDb.initBuckIdx, LevelDb.indexHash, sized.mod_eq,
    Nat.mod_eq_of_lt (a := hash.toNat % 2 ^ 32 % N) (by omega)]

/-- One filter keeps the tag shifted, the other shifts it where it is used. -/
theorem tagOf_agrees (hash : Word) : Pm.tagOf hash = LevelDb.tagOf hash <<< 4 := rfl

theorem SameSlots.insert [NeZero N] (sized : LevelDb.Sized N) (ring : LevelDb.ringSize N = N)
    {m : Pm.Memory N} {array : List Byte} (same : SameSlots m array) (hash : Word) :
    (Pm.insert m hash).1 = (LevelDb.insertItem 0 N array hash).1 ∧
      SameSlots (Pm.insert m hash).2 (LevelDb.insertItem 0 N array hash).2 := by
  rw [Pm.insert, LevelDb.insertItem, initBuckIdx_agrees sized, tagOf_agrees]
  exact (sameSlots_access sized ring).insert same N _ _

/-- A bucket is the same word in both filters. -/
theorem SameSlots.bucket (sized : LevelDb.Sized N) (ring : LevelDb.ringSize N = N)
    {m : Pm.Memory N} {array : List Byte} (same : SameSlots m array) (rest : List Byte) (i : Nat) :
    Pm.bucket m.volatile (i % N) =
      BitVec.ofNat 64 (load (array ++ rest) (LevelDb.bucketOffset i N) 8) := by
  apply word_eq_of_slots
  intro j slot
  rw [sized.slot_load (by rw [ring]; exact same.1) rest i slot, ← same.2 i j slot, Pm.readTag]

theorem SameSlots.lookup (sized : LevelDb.Sized N) (ring : LevelDb.ringSize N = N)
    {m : Pm.Memory N} {array : List Byte} (same : SameSlots m array) (rest : List Byte) (hash : Word) :
    LevelDb.probe (array ++ rest) N (LevelDb.initBuckIdx N hash) (LevelDb.tagOf hash) (List.range maxProb) =
      some (Pm.lookup m hash) := by
  have inside : 8 * LevelDb.ringSize N ≤ (array ++ rest).length := by
    rw [ring, List.length_append]
    exact same.1.trans (Nat.le_add_right _ _)
  rw [sized.probe_eq inside, Pm.lookup]
  simp only [initBuckIdx_agrees sized, tagOf_agrees, same.bucket sized ring rest]

/-- The filters agree on every sequence of hash codes: on each result, on each slot
once the sequence went in, and on each answer; `rest` is what follows the buckets. -/
theorem filters_agree {k : Nat} (power : N = 2 ^ k) (bytes : 8 * N ≤ 2 ^ 32) (hashes : List Word) :
    let pm := callAll Pm.insert hashes (Pm.init N)
    let leveldb := callAll (LevelDb.insertItem 0 N) hashes (LevelDb.zeros N)
    pm.1 = leveldb.1 ∧
    (∀ b < N, ∀ j < 4, Pm.readTag pm.2 b j = LevelDb.readTag 0 N leveldb.2 b j) ∧
    ∀ (hash : Word) (rest : List Byte),
      LevelDb.probe (leveldb.2 ++ rest) N (LevelDb.initBuckIdx N hash) (LevelDb.tagOf hash)
        (List.range maxProb) = some (Pm.lookup pm.2 hash) := by
  obtain ⟨sized, ring⟩ := LevelDb.sized_of_bytes power bytes
  have : NeZero N := ⟨Nat.ne_of_gt sized.pos⟩
  obtain ⟨results, same⟩ := callAll_related (R := SameSlots (N := N))
    (fun hash same => same.insert sized ring hash) hashes (sameSlots_start N)
  exact ⟨results, fun b _ j slot => same.2 b j slot, fun hash rest => same.lookup sized ring rest hash⟩

theorem filters_agree_two :
    let hashes := [0x123400000001#64, 0x5670000000003#64, 0x123400000001#64]
    (callAll Pm.insert hashes (Pm.init 2)).1 =
      (callAll (LevelDb.insertItem 0 2) hashes (LevelDb.zeros 2)).1 :=
  (filters_agree (k := 1) (by decide) (by decide) _).1

end WormholeFilters
