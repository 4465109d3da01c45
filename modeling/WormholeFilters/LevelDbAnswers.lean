import WormholeFilters.Completeness

/-! What `KeyMayMatch` answers on the bytes `CreateFilter` appended. The answer is
exact for the keys whose insertion succeeded; `CreateFilter` ignores failures, so a
key can be lost. -/
namespace WormholeFilters.LevelDb

open LittleEndian RingTable

variable {N : Nat}

/-- Bytes in front of the array do not matter to a call of `InsertItem`. -/
theorem insertItem_append (p array : List Byte) (hashcode : Word) :
    insertItem p.length N (p ++ array) hashcode =
      ((insertItem 0 N array hashcode).1, p ++ (insertItem 0 N array hashcode).2) := by
  have simulates : Simulates (access 0 N) (access p.length N) (fun s t => t = p ++ s) := by
    refine ⟨?_, ?_, ?_⟩
    · rintro s _ rfl i j _
      simp only [access, readTag, Nat.add_assoc, load_append_right, Nat.zero_add]
    · rintro s _ rfl i j v
      simp only [access, writeTag, Nat.add_assoc, store_append, Nat.zero_add]
    · rintro s _ rfl i j v
      simp only [access, writeTag, Nat.add_assoc, store_append, Nat.zero_add]
  obtain ⟨result, bytes⟩ := insert_simulates simulates (s := array) rfl N (initBuckIdx N hashcode)
    (tagOf hashcode <<< 4)
  exact Prod.ext result.symm bytes

theorem length_insertItem (array : Nat) (dst : List Byte) (hashcode : Word) :
    (insertItem array N dst hashcode).2.length = dst.length :=
  insert_invariant (P := fun s : List Byte => s.length = dst.length)
    (fun _ _ _ same => by simpa only [access, writeTag, length_store] using same)
    (fun _ _ _ same => by simpa only [access, writeTag, length_store] using same) rfl _ _ _

theorem length_insertKeys (signedChar : Bool) (array : Nat) (keys : List (List Byte)) (dst : List Byte) :
    (insertKeys signedChar array N keys dst).2.length = dst.length := by
  rw [insertKeys]
  induction keys generalizing dst with
  | nil => rfl
  | cons key keys ih => rw [callAll_cons, ih, length_insertItem]

/-- The bucket bytes once `keys` went in. -/
def buckets (signedChar : Bool) (N : Nat) (keys : List (List Byte)) : List Byte :=
  (insertKeys signedChar 0 N keys (zeros N)).2

theorem insertKeys_append (signedChar : Bool) (keys : List (List Byte)) (dst : List Byte) :
    insertKeys signedChar dst.length N keys (dst ++ zeros N) =
      ((insertKeys signedChar 0 N keys (zeros N)).1, dst ++ buckets signedChar N keys) :=
  callAll_map (g := (dst ++ ·)) (fun array key => insertItem_append dst array (wormholeHash signedChar key)) _ _

theorem createFilter_eq (signedChar : Bool) (keys : List (List Byte)) (n : Int) (dst : List Byte) :
    createFilter signedChar keys n dst =
      dst ++ (buckets signedChar (numBuckets n) (keys.take n.toNat) ++ encode 8 (numBuckets n)) := by
  have loop := insertKeys_append (N := numBuckets n) signedChar (keys.take n.toNat) dst
  rw [zeros] at loop
  rw [createFilter, loop, List.append_assoc]

theorem insertResults_eq (signedChar : Bool) (keys : List (List Byte)) (n : Int) (dst : List Byte) :
    insertResults signedChar keys n dst =
      (insertKeys signedChar 0 (numBuckets n) (keys.take n.toNat) (zeros (numBuckets n))).1 := by
  have loop := insertKeys_append (N := numBuckets n) signedChar (keys.take n.toNat) dst
  rw [zeros] at loop
  rw [insertResults, loop, zeros]

/-- What `CreateFilter` appends for a list of keys. -/
theorem appended_eq (signedChar : Bool) (keys : List (List Byte)) (dst : List Byte) :
    (createFilter signedChar keys keys.length dst).drop dst.length =
      buckets signedChar (numBuckets keys.length) keys ++ encode 8 (numBuckets keys.length) := by
  rw [createFilter_eq, List.drop_left, Int.toNat_natCast, List.take_length]

/-- A bucket read as one word has the slots that `ReadTag` reads one by one. -/
theorem Sized.slot_load (sized : Sized N) {array : List Byte} (inside : 8 * ringSize N ≤ array.length)
    (rest : List Byte) (i : Nat) {j : Nat} (position : j < 4) :
    slot (BitVec.ofNat 64 (load (array ++ rest) (bucketOffset i N) 8)) j = readTag 0 N array i j := by
  have index := Nat.mod_lt i sized.ringSize_pos
  have offset := sized.bucketOffset_eq i
  have whole : load (array ++ rest) (bucketOffset i N) 8 = load array (bucketOffset i N) 8 :=
    load_append_left (by omega)
  have word : load array (bucketOffset i N) 8 < 2 ^ 64 := load_lt array (bucketOffset i N) 8
  have low : load array (bucketOffset i N + 2 * j) 2 < 2 ^ 16 := load_lt array (bucketOffset i N + 2 * j) 2
  have part := load_part array (bucketOffset i N) (2 * j) 2 (6 - 2 * j)
  rw [show 2 * j + (2 + (6 - 2 * j)) = 8 by omega, show (256 : Nat) = 2 ^ 8 from rfl, ← pow_mul,
    ← pow_mul, show 8 * (2 * j) = 16 * j by omega] at part
  rw [slot, Lanes.lane, whole, BitVec.toNat_ofNat, Nat.mod_eq_of_lt word, readTag, and_tagMask,
    Nat.zero_add, Nat.mod_eq_of_lt low, ← part]

/-- A filter that holds its buckets is long enough for every probe. -/
theorem Sized.bytes?_bucket (sized : Sized N) {filter : List Byte} (inside : 8 * ringSize N ≤ filter.length)
    (i : Nat) : bytes? filter (bucketOffset i N) 8 = some (load filter (bucketOffset i N) 8) := by
  have index := Nat.mod_lt i sized.ringSize_pos
  have offset := sized.bucketOffset_eq i
  exact if_pos (by omega)

theorem Sized.probe_eq (sized : Sized N) {filter : List Byte} (inside : 8 * ringSize N ≤ filter.length)
    (init tag : Nat) (probs : List Nat) : probe filter N init tag probs =
      some (probs.any fun prob => hasvalue16 (BitVec.ofNat 64 (load filter (bucketOffset (init + prob) N) 8))
        (BitVec.ofNat 64 (tag <<< 4 ||| prob)) != 0#64) := by
  induction probs with
  | nil => rfl
  | cons prob probs ih =>
    rw [probe, sized.bytes?_bucket inside, ih, List.any_cons]
    simp only [Option.bind_eq_bind, Option.bind_some]
    generalize hasvalue16 (BitVec.ofNat 64 (load filter (bucketOffset (init + prob) N) 8))
      (BitVec.ofNat 64 (tag <<< 4 ||| prob)) = mask
    by_cases miss : mask = 0#64 <;> simp [miss]

theorem bytes?_trailer (array : List Byte) {N : Nat} (bound : N < 2 ^ 64) :
    bytes? (array ++ encode 8 N) (wrapSub 64 (array ++ encode 8 N).length 8) 8 = some N := by
  have length : (array ++ encode 8 N).length = array.length + 8 := by simp
  have value := load_append_right array (encode 8 N) 0 8
  rw [load_encode, Nat.mod_eq_of_lt (show N < 256 ^ 8 by omega), Nat.add_zero] at value
  rw [length, wrapSub_of_le (Nat.le_add_left 8 _), Nat.add_sub_cancel, bytes?, if_pos (by omega), value]

theorem keyMayMatch_of_trailer {filter : List Byte} {N : Nat} (long : ¬ filter.length < 2)
    (trailer : bytes? filter (wrapSub 64 filter.length 8) 8 = some N) (signedChar : Bool) (key : List Byte) :
    keyMayMatch signedChar key filter = probe filter N (initBuckIdx N (wormholeHash signedChar key))
      (tagOf (wormholeHash signedChar key)) (List.range maxProb) := by
  have unfolded : keyMayMatch signedChar key filter =
      (bytes? filter (wrapSub 64 filter.length 8) 8).bind fun N =>
        probe filter N (initBuckIdx N (wormholeHash signedChar key))
          (tagOf (wormholeHash signedChar key)) (List.range maxProb) := by
    rw [keyMayMatch, if_neg long]
    rfl
  rw [unfolded, trailer, Option.bind_some]

theorem Sized.keyMayMatch_iff [NeZero (ringSize N)] (sized : Sized N) (signedChar : Bool)
    (key : List Byte) {array : List Byte} (inside : 8 * ringSize N ≤ array.length) :
    ∃ answer, keyMayMatch signedChar key (array ++ encode 8 N) = some answer ∧
      (answer = true ↔ pair N (wormholeHash signedChar key) ∈ entries (ringTable N array)) := by
  have size := sized.le
  have home := sized.initBuckIdx_lt (wormholeHash signedChar key)
  obtain ⟨nonzero, bound⟩ := tagOf_bounds (wormholeHash signedChar key)
  have length : (array ++ encode 8 N).length = array.length + 8 := by simp
  rw [keyMayMatch_of_trailer (by omega) (bytes?_trailer array (by omega)), sized.probe_eq (by omega)]
  refine ⟨_, rfl, ?_⟩
  rw [List.any_eq_true]
  refine Iff.trans ?_ (mem_entries_table (s := array) sized.lawful_start (by omega) nonzero).symm
  constructor
  · rintro ⟨d, member, hit⟩
    have near : d < 16 := List.mem_range.mp member
    rw [Nat.shiftLeft_eq, Nat.mul_comm, or_distance near, bne_iff_ne, hasvalue16_ne_zero_iff (by omega)] at hit
    obtain ⟨j, position, value⟩ := hit
    exact ⟨d, near, j, position, by rw [← value, sized.slot_load inside _ _ position]; rfl⟩
  · rintro ⟨d, near, j, position, value⟩
    refine ⟨d, List.mem_range.mpr near, ?_⟩
    rw [Nat.shiftLeft_eq, Nat.mul_comm, or_distance near, bne_iff_ne, hasvalue16_ne_zero_iff (by omega)]
    exact ⟨j, position, by rw [← value, sized.slot_load inside _ _ position]; rfl⟩

theorem pair_eq_iff {h h' : Word} : pair N h = pair N h' ↔
    initBuckIdx N h % ringSize N = initBuckIdx N h' % ringSize N ∧ tagOf h = tagOf h' := by
  rw [pair, pair, Prod.mk.injEq, ZMod.natCast_eq_natCast_iff']

theorem ringSize_le_buckets (signedChar : Bool) (N : Nat) (keys : List (List Byte)) :
    8 * ringSize N ≤ (buckets signedChar N keys).length := by
  rw [buckets, length_insertKeys]
  exact ringSize_le_zeros N

theorem entries_zeros [NeZero (ringSize N)] : entries (ringTable N (zeros N)) = 0 := by
  rw [ringTable_zeros, entries_eq_zero.mpr fun _ => rfl]

theorem packed_zeros : Packed (ringTable N (zeros N)) := ringTable_zeros N ▸ packed_none

theorem leading_zeros : Leading (ringTable N (zeros N)) := ringTable_zeros N ▸ leading_none

theorem bounded_zeros : Bounded 16 (ringTable N (zeros N)) := ringTable_zeros N ▸ bounded_none

/-- The key inserter of `CreateFilter`'s loop. -/
theorem Sized.keyInserter (sized : Sized N) (signedChar : Bool) : Inserter 16 (ringTable N)
    (fun array => 8 * ringSize N ≤ array.length) (fun key => pair N (wormholeHash signedChar key))
    (fun array key => insertItem 0 N array (wormholeHash signedChar key)) :=
  sized.inserter.comap (wormholeHash signedChar)

/-- A key is matched exactly when its pair is in the appended array. -/
theorem keyMayMatch_appended_iff {signedChar : Bool} {keys : List (List Byte)}
    (count : keys.length < 2 ^ 31) [NeZero (ringSize (numBuckets keys.length))] {dst key : List Byte} :
    keyMayMatch signedChar key ((createFilter signedChar keys keys.length dst).drop dst.length) = some true ↔
      pair (numBuckets keys.length) (wormholeHash signedChar key) ∈
        entries (ringTable (numBuckets keys.length) (buckets signedChar (numBuckets keys.length) keys)) := by
  obtain ⟨answer, matched, stored⟩ := (numBuckets_sized count).keyMayMatch_iff signedChar key
    (ringSize_le_buckets signedChar (numBuckets keys.length) keys)
  rw [← stored, appended_eq, matched, Option.some.injEq]

/-- Copies of one key can take every slot within reach of its home bucket; another
key with that home then goes missing. -/
theorem Sized.not_stored [NeZero (ringSize N)] (sized : Sized N) (signedChar : Bool) {a key : List Byte}
    (home : (pair N (wormholeHash signedChar a)).1 = (pair N (wormholeHash signedChar key)).1)
    (tag : pair N (wormholeHash signedChar a) ≠ pair N (wormholeHash signedChar key)) :
    pair N (wormholeHash signedChar key) ∉
      entries (ringTable N (buckets signedChar N (List.replicate 64 a ++ [key]))) := by
  have inserter := sized.keyInserter signedChar
  have room := ringSize_le_zeros N
  rw [buckets, insertKeys, callAll_append]
  -- The copies are named here: left open, they are unified by unrolling the replicate.
  have ok := inserter.callAll_ok (List.replicate 64 a) room
  have packed := inserter.callAll_invariant (fun insertion => insertion.packed) (List.replicate 64 a) room packed_zeros
  have bounded :=
    inserter.callAll_invariant (fun insertion => insertion.bounded) (List.replicate 64 a) room bounded_zeros
  refine inserter.not_mem_callAll [key] ok packed bounded ?_ fun placeable => ?_
  · rw [inserter.mem_callAll _ room, entries_zeros]
    rintro (stored | ⟨i, _, same⟩)
    · simp at stored
    · obtain ⟨b, copy, same⟩ := Option.map_eq_some_iff.mp same
      rw [List.eq_of_mem_replicate (List.mem_of_getElem? copy)] at same
      exact tag same
  · have copies : ∀ b ∈ List.replicate 64 a,
        (pair N (wormholeHash signedChar b)).1 = (pair N (wormholeHash signedChar key)).1 := by
      intro b member
      rw [List.eq_of_mem_replicate member, home]
    have inserted := inserter.all_true_of_room _ room packed_zeros bounded_zeros copies placeable
    rw [inserter.homes_of_all_true _ room inserted, homes, entries_zeros, List.map_replicate, home, Multiset.map_zero,
      add_zero, Multiset.cons_coe, ← List.replicate_succ, Multiset.coe_replicate] at placeable
    exact not_placeable_replicate (by decide) placeable

/-- Sixty-four copies of the key `a`, then `s`, which has the same home bucket. -/
def crowdedKeys : List (List Byte) := List.replicate 64 [97#8] ++ [[115#8]]

theorem crowdedKeys_pairs : numBuckets crowdedKeys.length = 32 ∧
    initBuckIdx 32 (wormholeHash true [97#8]) = initBuckIdx 32 (wormholeHash true [115#8]) ∧
    tagOf (wormholeHash true [97#8]) ≠ tagOf (wormholeHash true [115#8]) := by decide +kernel

theorem crowdedKeys_unmatched (dst : List Byte) : keyMayMatch true [115#8]
    ((createFilter true crowdedKeys crowdedKeys.length dst).drop dst.length) ≠ some true := by
  have count : crowdedKeys.length < 2 ^ 31 := by decide
  obtain ⟨size, home, tag⟩ := crowdedKeys_pairs
  have sized := numBuckets_sized count
  have := sized.neZero
  intro found
  refine sized.not_stored true ?_ ?_ ((keyMayMatch_appended_iff count).mp found)
  · rw [pair, pair, size, home]
  · intro same
    exact tag (congrArg Prod.snd same)

/-- `KeyMayMatch` finds a key exactly when the insertion of a key with the same home
bucket and the same tag succeeded. -/
theorem keyMayMatch_exact (signedChar : Bool) (keys : List (List Byte)) (count : keys.length < 2 ^ 31)
    (bytes : 8 * numBuckets keys.length ≤ 2 ^ 32) (dst q : List Byte) :
    let N := numBuckets keys.length
    let filter := (createFilter signedChar keys keys.length dst).drop dst.length
    let hash := wormholeHash signedChar
    ∃ answer, keyMayMatch signedChar q filter = some answer ∧ (answer = true ↔
      ∃ (i : Nat) (key : List Byte), keys[i]? = some key ∧
        (insertResults signedChar keys keys.length dst)[i]? = some true ∧
        initBuckIdx N (hash key) = initBuckIdx N (hash q) ∧ tagOf (hash key) = tagOf (hash q)) := by
  intro N filter hash
  have sized : Sized N := numBuckets_sized count
  have ring : ringSize N = N := Nat.min_eq_left (by omega)
  have := sized.neZero
  have room := ringSize_le_zeros N
  obtain ⟨answer, matched, stored⟩ := sized.keyMayMatch_iff signedChar q
    (ringSize_le_buckets signedChar N keys)
  refine ⟨answer, by rw [← matched]; exact congrArg _ (appended_eq signedChar keys dst), ?_⟩
  rw [stored, insertResults_eq, Int.toNat_natCast, List.take_length]
  refine ((sized.keyInserter signedChar).mem_callAll keys room _).trans ?_
  rw [entries_zeros]
  simp only [Multiset.notMem_zero, false_or]
  refine exists_congr fun i => ?_
  have same : ∀ key, pair N (hash key) = pair N (hash q) ↔
      initBuckIdx N (hash key) = initBuckIdx N (hash q) ∧ tagOf (hash key) = tagOf (hash q) := by
    intro key
    rw [pair_eq_iff, ring, Nat.mod_eq_of_lt (sized.initBuckIdx_lt _), Nat.mod_eq_of_lt (sized.initBuckIdx_lt _)]
  constructor
  · rintro ⟨inserted, key⟩
    obtain ⟨key, at_, equal⟩ := Option.map_eq_some_iff.mp key
    exact ⟨key, at_, inserted, (same key).mp equal⟩
  · rintro ⟨key, at_, inserted, equal⟩
    exact ⟨inserted, Option.map_eq_some_iff.mpr ⟨key, at_, (same key).mpr equal⟩⟩

/-- The call for `s` finds no room, and `s` is not matched; `a` is. -/
theorem keyMayMatch_exact_crowded :
    let filter := (createFilter true crowdedKeys crowdedKeys.length [1#8]).drop ([1#8] : List Byte).length
    keyMayMatch true [97#8] filter = some true ∧ keyMayMatch true [115#8] filter = some false ∧
      (insertResults true crowdedKeys crowdedKeys.length [1#8])[64]? ≠ some true := by
  intro filter
  have exact_ := keyMayMatch_exact true crowdedKeys (by decide) (by decide +kernel) [1#8]
  have first : (insertResults true crowdedKeys crowdedKeys.length [1#8])[0]? = some true := by
    rw [insertResults_eq, crowdedKeys_pairs.1, Int.toNat_natCast, List.take_length, crowdedKeys,
      List.replicate_succ, List.cons_append, insertKeys, callAll_cons]
    exact congrArg some (by decide +kernel)
  obtain ⟨answer, matched, stored⟩ := exact_ [97#8]
  obtain rfl := stored.mpr ⟨0, [97#8], rfl, first, rfl, rfl⟩
  obtain ⟨answer, matched', stored⟩ := exact_ [115#8]
  have missed : answer ≠ true := fun found => crowdedKeys_unmatched [1#8] (matched'.trans (congrArg some found))
  refine ⟨matched, by rw [matched', Bool.eq_false_iff.mpr missed], fun inserted => missed (stored.mpr ?_)⟩
  exact ⟨64, [115#8], by decide +kernel, inserted, rfl, rfl⟩

/-- The home bucket and the tag of a key, with the home reduced to the ring. -/
def entryOf (signedChar : Bool) (N : Nat) (key : List Byte) : Nat × Nat :=
  (initBuckIdx N (wormholeHash signedChar key) % ringSize N, tagOf (wormholeHash signedChar key))

/-- The home buckets and tags of a bucket array's non-zero slots. -/
def stored (N : Nat) (array : List Byte) : List (Nat × Nat) :=
  (List.range (ringSize N)).flatMap fun b => (List.range tagPerBuk).flatMap fun j =>
    let v := readTag 0 N array b j
    if v = 0 then [] else [((b + maxProb * ringSize N - (v &&& disMask)) % ringSize N, v >>> 4)]

private theorem coe_flatMap_range {α : Type} (f : Nat → List α) (n : Nat) :
    (((List.range n).flatMap f : List α) : Multiset α) = ∑ i ∈ Finset.range n, (f i : Multiset α) := by
  induction n with
  | zero => rfl
  | succ n ih => rw [List.range_succ, List.flatMap_append, ← Multiset.coe_add, ih, Finset.sum_range_succ]; simp

private theorem sum_zmod {α : Type} [AddCommMonoid α] {n : Nat} [NeZero n] (g : ZMod n → α) :
    ∑ b, g b = ∑ i ∈ Finset.range n, g (i : ZMod n) := by
  refine Finset.sum_nbij' ZMod.val ((↑) : Nat → ZMod n) ?_ ?_ ?_ ?_ ?_
  · intro b _
    exact Finset.mem_range.mpr (ZMod.val_lt b)
  · intro i _
    exact Finset.mem_univ _
  · intro b _
    exact ZMod.natCast_zmod_val b
  · intro i inside
    exact ZMod.val_cast_of_lt (Finset.mem_range.mp inside)
  · intro b _
    rw [ZMod.natCast_zmod_val]

def toEntry (N : Nat) (p : Nat × Nat) : ZMod (ringSize N) × Nat := ((p.1 : ZMod (ringSize N)), p.2)

theorem Sized.entries_eq [NeZero (ringSize N)] (sized : Sized N) (array : List Byte) :
    entries (ringTable N array) = ((stored N array).map (toEntry N) : List _) := by
  have pos := sized.ringSize_pos
  rw [stored, List.map_flatMap, coe_flatMap_range, entries, Fintype.sum_prod_type, sum_zmod]
  refine Finset.sum_congr rfl fun b inside => ?_
  have inRing := Finset.mem_range.mp inside
  rw [List.map_flatMap, coe_flatMap_range, tagPerBuk, ← Fin.sum_univ_eq_sum_range]
  refine Finset.sum_congr rfl fun j _ => ?_
  rw [ringTable, table, ZMod.val_cast_of_lt inRing]
  simp only [access]
  generalize readTag 0 N array b j = v
  by_cases zero : v = 0
  · simp [zero, decode]
  · have le : v % 16 ≤ b + maxProb * ringSize N := by simp only [maxProb]; omega
    rw [decode, if_neg zero, if_neg zero, entry_some, and_disMask, Nat.shiftRight_eq_div_pow]
    simp only [List.map_cons, List.map_nil, toEntry, Multiset.coe_singleton, ZMod.natCast_mod,
      Nat.cast_sub le, Nat.cast_add, Nat.cast_mul, ZMod.natCast_self, mul_zero, add_zero]

theorem toEntry_entryOf (signedChar : Bool) (N : Nat) (key : List Byte) :
    toEntry N (entryOf signedChar N key) = pair N (wormholeHash signedChar key) := by
  rw [toEntry, entryOf, pair, ZMod.natCast_mod]

theorem toEntry_inj {p p' : Nat × Nat} (inRing : p.1 < ringSize N) (inRing' : p'.1 < ringSize N) :
    toEntry N p = toEntry N p' ↔ p = p' := by
  rw [toEntry, toEntry, Prod.mk.injEq, ZMod.natCast_eq_natCast_iff', Nat.mod_eq_of_lt inRing,
    Nat.mod_eq_of_lt inRing', Prod.ext_iff]

theorem Sized.mem_stored [NeZero (ringSize N)] (sized : Sized N) (signedChar : Bool) (array key : List Byte) :
    entryOf signedChar N key ∈ stored N array ↔
      pair N (wormholeHash signedChar key) ∈ entries (ringTable N array) := by
  have pos := sized.ringSize_pos
  rw [sized.entries_eq, Multiset.mem_coe, List.mem_map, ← toEntry_entryOf]
  constructor
  · intro member
    exact ⟨_, member, rfl⟩
  · rintro ⟨p, member, same⟩
    have inRing : p.1 < ringSize N := by
      obtain ⟨b, _, inner⟩ := List.mem_flatMap.mp member
      obtain ⟨j, _, cell⟩ := List.mem_flatMap.mp inner
      simp only at cell
      split at cell
      · simp at cell
      · rw [List.mem_singleton.mp cell]
        exact Nat.mod_lt _ pos
    rwa [← (toEntry_inj inRing (Nat.mod_lt _ pos)).mp same]

theorem Sized.room_iff [NeZero (ringSize N)] (sized : Sized N) (signedChar : Bool) (array key : List Byte) :
    Placeable 4 16 ((pair N (wormholeHash signedChar key)).1 ::ₘ homes (ringTable N array)) ↔
      Assignable 4 16 (ringSize N) ((entryOf signedChar N key).1 :: (stored N array).map Prod.fst) := by
  rw [← placeable_iff_assignable, homes, sized.entries_eq, ← toEntry_entryOf, Multiset.map_coe,
    Multiset.cons_coe, List.map_map, List.map_cons, List.map_map]
  rfl

/-- Each key, at its turn, is stored already or has room beside what is stored. -/
def Fits (signedChar : Bool) (keys : List (List Byte)) : Prop :=
  ∀ earlier key later, keys = earlier ++ key :: later →
    let N := numBuckets keys.length
    let array := buckets signedChar N earlier
    entryOf signedChar N key ∈ stored N array ∨
      Assignable 4 16 (ringSize N) ((entryOf signedChar N key).1 :: (stored N array).map Prod.fst)

theorem all_matched_iff_fits {signedChar : Bool} {keys : List (List Byte)} (count : keys.length < 2 ^ 31)
    (dst : List Byte) : (∀ key ∈ keys, keyMayMatch signedChar key
      ((createFilter signedChar keys keys.length dst).drop dst.length) = some true) ↔ Fits signedChar keys := by
  have sized := numBuckets_sized count
  have := sized.neZero
  simp only [keyMayMatch_appended_iff count]
  refine ((sized.keyInserter signedChar).all_stored_iff keys (ringSize_le_zeros _) packed_zeros bounded_zeros).trans ?_
  simp only [Fits, sized.mem_stored, ← sized.room_iff]
  rfl

/-- Every key of the list is matched exactly when each, at its turn, is stored already
or has room beside what is stored; it suffices that the homes of the whole list can be
assigned, and for keys with different entries this is also necessary. -/
theorem all_match_iff (signedChar : Bool) (keys : List (List Byte)) (count : keys.length < 2 ^ 31)
    (dst : List Byte) :
    let N := numBuckets keys.length
    let filter := (createFilter signedChar keys keys.length dst).drop dst.length
    let entry := entryOf signedChar N
    ((∀ key ∈ keys, keyMayMatch signedChar key filter = some true) ↔
      ∀ earlier key later, keys = earlier ++ key :: later →
        let array := buckets signedChar N earlier
        entry key ∈ stored N array ∨
          Assignable 4 16 (ringSize N) ((entry key).1 :: (stored N array).map Prod.fst)) ∧
    (Assignable 4 16 (ringSize N) (keys.map fun key => (entry key).1) →
      ∀ key ∈ keys, keyMayMatch signedChar key filter = some true) ∧
    ((keys.map entry).Nodup →
      ((∀ key ∈ keys, keyMayMatch signedChar key filter = some true) ↔
        Assignable 4 16 (ringSize N) (keys.map fun key => (entry key).1))) := by
  intro N filter entry
  have sized : Sized N := numBuckets_sized count
  have := sized.neZero
  have room := ringSize_le_zeros N
  have inserter := sized.keyInserter signedChar
  have homed : ∀ key, (pair N (wormholeHash signedChar key)).1 = ((entry key).1 : ZMod (ringSize N)) :=
    fun key => congrArg Prod.fst (toEntry_entryOf signedChar N key).symm
  have assigned := inserter.all_true_iff_assignable homed room (ringTable_zeros N) keys
  refine ⟨all_matched_iff_fits count dst, ?_⟩
  simp only [filter, keyMayMatch_appended_iff count]
  refine ⟨fun fits key member => ?_, fun distinct => ⟨fun stored => ?_, fun fits key member => ?_⟩⟩
  · exact inserter.mem_of_all_true keys room (assigned.mpr fits) member
  · refine assigned.mp (inserter.all_true_of_mem keys room entries_zeros ?_ stored)
    have renamed : (keys.map fun key => pair N (wormholeHash signedChar key)) =
        (keys.map entry).map (toEntry N) := by
      rw [List.map_map]
      exact List.map_congr_left fun key _ => (toEntry_entryOf signedChar N key).symm
    rw [renamed]
    refine distinct.map_on fun p member p' member' same => ?_
    obtain ⟨key, _, rfl⟩ := List.mem_map.mp member
    obtain ⟨key', _, rfl⟩ := List.mem_map.mp member'
    exact (toEntry_inj (Nat.mod_lt _ sized.ringSize_pos) (Nat.mod_lt _ sized.ringSize_pos)).mp same
  · exact inserter.mem_of_all_true keys room (assigned.mpr fits) member

/-- Three keys share the one bucket of their filter and are matched. Behind 64 copies of `a` the key `s` finds neither
its entry nor room. -/
theorem all_match_iff_crowded :
    (∀ key ∈ [[97#8], [115#8], [97#8]], keyMayMatch true key
      ((createFilter true [[97#8], [115#8], [97#8]] (3 : Nat) []).drop ([] : List Byte).length) = some true) ∧
    ¬ (∀ earlier key later, crowdedKeys = earlier ++ key :: later →
      entryOf true 32 key ∈ stored 32 (buckets true 32 earlier) ∨ Assignable 4 16 (ringSize 32)
        ((entryOf true 32 key).1 :: (stored 32 (buckets true 32 earlier)).map Prod.fst)) ∧
    ¬ Assignable 4 16 (ringSize 32) (crowdedKeys.map fun key => (entryOf true 32 key).1) := by
  have crowded := all_match_iff true crowdedKeys (by decide) []
  rw [crowdedKeys_pairs.1] at crowded
  have last : [115#8] ∈ crowdedKeys := List.mem_append_right _ (List.mem_singleton_self _)
  refine ⟨(all_match_iff true _ (by decide) []).2.1 ⟨[0, 0, 0], ?_, ?_⟩,
    fun room => crowdedKeys_unmatched [] (crowded.1.mpr room _ last),
    fun fits => crowdedKeys_unmatched [] (crowded.2.1 fits _ last)⟩
  · refine .cons ⟨0, ?_⟩ (.cons ⟨0, ?_⟩ (.cons ⟨0, ?_⟩ .nil)) <;> decide +kernel
  · intro b
    exact List.count_le_length.trans (by decide)

/-- The key `s` is not matched. -/
theorem key_lost : ¬ ∀ (signedChar : Bool) (keys : List (List Byte)) (dst : List Byte),
    0 < keys.length → keys.length < 2 ^ 31 → ∀ key ∈ keys,
      keyMayMatch signedChar key ((createFilter signedChar keys keys.length dst).drop dst.length) =
        some true := by
  intro claimed
  exact crowdedKeys_unmatched [] (claimed true crowdedKeys [] (by decide) (by decide) [115#8] (by simp [crowdedKeys]))

end WormholeFilters.LevelDb
