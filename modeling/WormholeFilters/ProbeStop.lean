import WormholeFilters.LevelDbAnswers

/-! Arrays that only insertions built have no gaps: every bucket on an entry's way from
its home is full, and the free slots of a bucket come last. A lookup could therefore
stop at the first bucket with a free slot. -/
namespace WormholeFilters

open LittleEndian RingTable

def bucketBefore (N b s : Nat) : Nat := (((b : Int) - s) % N).toNat

/-- No gap on the way from home, and no free slot below an occupied one. -/
structure NoGaps (read : Nat → Nat → Nat) (N : Nat) : Prop where
  way : ∀ b < N, ∀ j < 4, read b j ≠ 0 → ∀ s, 1 ≤ s → s ≤ (read b j &&& disMask) →
    ∀ k < 4, read (bucketBefore N b s) k ≠ 0
  leading : ∀ b < N, ∀ j < 4, read b j ≠ 0 → ∀ i < j, read b i ≠ 0

def anyUntil (hit stop : α → Bool) : List α → Bool
  | [] => false
  | a :: rest => hit a || (!stop a && anyUntil hit stop rest)

theorem anyUntil_eq_any {hit stop : α → Bool} {l : List α}
    (early : l.Pairwise fun a b => hit b = true → stop a = false) : anyUntil hit stop l = l.any hit := by
  induction early with
  | nil => rfl
  | @cons a rest first _ ih =>
    rw [anyUntil, List.any_cons, ih]
    cases stops : stop a with
    | false => simp
    | true =>
      have missed : rest.any hit = false := by
        rw [List.any_eq_false]
        intro b member found
        rw [first b member found] at stops
        contradiction
      simp [missed]

section Table

variable {σ : Type} {A : Access σ} {ring : Nat} {Ok : σ → Prop} {s : σ} {N : Nat}

theorem bucketBefore_lt (pos : 0 < N) (b d : Nat) : bucketBefore N b d < N := by
  have nonneg := Int.emod_nonneg ((b : Int) - d) (show (N : Int) ≠ 0 by omega)
  have below := Int.emod_lt_of_pos ((b : Int) - d) (show (0 : Int) < N by omega)
  rw [bucketBefore]
  omega

theorem natCast_bucketBefore (pos : 0 < N) (divides : ring ∣ N) (b d : Nat) :
    ((bucketBefore N b d : Nat) : ZMod ring) = b - d := by
  have nonneg := Int.emod_nonneg ((b : Int) - d) (show (N : Int) ≠ 0 by omega)
  have cast : (((bucketBefore N b d : Nat) : Int) : ZMod ring) = (((b : Int) - d : Int) : ZMod ring) := by
    rw [bucketBefore, Int.toNat_of_nonneg nonneg, ZMod.intCast_eq_intCast_iff]
    exact (Int.mod_modEq _ _).of_dvd (Int.natCast_dvd_natCast.mpr divides)
  simpa using cast

/-- A table without gaps, read slot by slot over any multiple of the ring. -/
theorem noGaps_of_table (lawful : Lawful A ring Ok) (pos : 0 < N) (divides : ring ∣ N) (fits : N ≤ 2 ^ 32)
    (packed : Packed (table A ring s)) (leading : Leading (table A ring s)) : NoGaps (A.readTag s) N := by
  have occupied : ∀ b < N, ∀ j : Fin 4, table A ring s ((b : ZMod ring), j) ≠ none ↔ A.readTag s b j ≠ 0 := by
    intro b inside j
    rw [table_index lawful (by omega), ne_eq, decode_eq_none]
  refine ⟨fun b inside j slot nonzero d least most k slot' => ?_, fun b inside j slot nonzero i below => ?_⟩
  · have cell := table_index (s := s) lawful (show b < 2 ^ 32 by omega) ⟨j, slot⟩
    rw [decode, if_neg nonzero] at cell
    rw [and_disMask] at most
    have full := packed _ _ _ _ cell d least most ⟨k, slot'⟩
    rw [← natCast_bucketBefore pos divides] at full
    exact (occupied _ (bucketBefore_lt pos b d) ⟨k, slot'⟩).mp full
  · have stored := (occupied b inside ⟨j, slot⟩).mpr nonzero
    have lower := leading _ ⟨i, by omega⟩ ⟨j, slot⟩ below stored
    exact (occupied b inside ⟨i, by omega⟩).mp lower

/-- Where a tag is found at its distance, the buckets probed before have no free slot. -/
theorem full_before_hit (lawful : Lawful A ring Ok) (packed : Packed (table A ring s))
    {initBuckIdx x c d j : Nat} (bound : initBuckIdx + 16 ≤ 2 ^ 32) (nonzero : 0 < x) (near : d < 16)
    (slot : j < 4) (hit : A.readTag s (initBuckIdx + d) j = 16 * x + d) (earlier : c < d) :
    ∀ k < 4, A.readTag s (initBuckIdx + c) k ≠ 0 := by
  intro k slot' free
  have cell := table_offset (s := s) lawful (show initBuckIdx + d < 2 ^ 32 by omega) ⟨j, slot⟩
  rw [hit, decode_tag near (by omega)] at cell
  have full := packed _ _ _ _ cell (d - c) (by omega) (by omega) ⟨k, slot'⟩
  have offset : (initBuckIdx : ZMod ring) + d - ((d - c : Nat) : ZMod ring) = initBuckIdx + c := by
    rw [Nat.cast_sub (by omega)]
    abel
  rw [offset, table_offset lawful (by omega), ne_eq, decode_eq_none] at full
  exact full free

/-- Stopping at a bucket with a free slot does not change what the probes find. -/
theorem anyUntil_probe_eq (lawful : Lawful A ring Ok) (packed : Packed (table A ring s))
    {initBuckIdx x : Nat} (bound : initBuckIdx + 16 ≤ 2 ^ 32) (nonzero : 0 < x) (fits : x < 2 ^ 12)
    {word : Nat → Word} (slots : ∀ d < 16, ∀ j < 4, slot (word d) j = A.readTag s (initBuckIdx + d) j) :
    anyUntil (fun d => hasvalue16 (word d) (BitVec.ofNat 64 (16 * x ||| d)) != 0#64)
      (fun d => haszero16 (word d) != 0#64) (List.range maxProb) =
    (List.range maxProb).any fun d => hasvalue16 (word d) (BitVec.ofNat 64 (16 * x ||| d)) != 0#64 := by
  apply anyUntil_eq_any
  rw [List.pairwise_iff_getElem]
  intro c d inside inside' earlier hit
  simp only [List.getElem_range, List.length_range, maxProb] at inside' hit ⊢
  rw [or_distance inside', bne_iff_ne, hasvalue16_ne_zero_iff (by omega)] at hit
  obtain ⟨j, position, value⟩ := hit
  rw [slots d inside' j position] at value
  rw [bne_eq_false_iff_eq]
  by_contra free
  obtain ⟨k, position', zero⟩ := (haszero16_ne_zero_iff _).mp free
  rw [slots c (by omega) k position'] at zero
  exact full_before_hit lawful packed bound nonzero inside' position value earlier k position' zero

end Table

/-- `lookup`, stopping after the first bucket with an empty slot. -/
def Pm.lookupStopping (m : Pm.Memory N) (key : Word) : Bool :=
  anyUntil
    (fun prob => hasvalue16 (Pm.bucket m.volatile ((Pm.initBuckIdx N key + prob) % N))
      (BitVec.ofNat 64 (Pm.tagOf key ||| prob)) != 0#64)
    (fun prob => haszero16 (Pm.bucket m.volatile ((Pm.initBuckIdx N key + prob) % N)) != 0#64)
    (List.range maxProb)

def LevelDb.probeStopping (filter : List Byte) (numBuckets initBuckIdx tag : Nat) : List Nat → Option Bool
  | [] => some false
  | prob :: rest => do
    let word ← bytes? filter (LevelDb.bucketOffset (initBuckIdx + prob) numBuckets) 8
    if hasvalue16 (BitVec.ofNat 64 word) (BitVec.ofNat 64 (tag <<< 4 ||| prob)) ≠ 0#64 then some true
    else if haszero16 (BitVec.ofNat 64 word) ≠ 0#64 then some false
    else LevelDb.probeStopping filter numBuckets initBuckIdx tag rest

theorem Pm.lookupStopping_eq [NeZero N] (small : 2 * N < 2 ^ 32) {m : Pm.Memory N}
    (packed : Packed (Pm.ringTable m)) (key : Word) : Pm.lookupStopping m key = Pm.lookup m key := by
  have home := Pm.initBuckIdx_lt (N := N) key
  obtain ⟨tag, pos, bound⟩ := Pm.tagOf_spec key
  rw [Pm.lookupStopping, Pm.lookup, tag]
  exact anyUntil_probe_eq (Pm.lawful small) packed (by omega) pos bound fun d _ j _ => rfl

theorem LevelDb.Sized.probeStopping_any {N : Nat} (sized : LevelDb.Sized N) {filter : List Byte}
    (inside : 8 * LevelDb.ringSize N ≤ filter.length) (init tag : Nat) (probs : List Nat) :
    LevelDb.probeStopping filter N init tag probs = some (anyUntil
      (fun prob => hasvalue16 (BitVec.ofNat 64 (load filter (LevelDb.bucketOffset (init + prob) N) 8))
        (BitVec.ofNat 64 (tag <<< 4 ||| prob)) != 0#64)
      (fun prob => haszero16 (BitVec.ofNat 64 (load filter (LevelDb.bucketOffset (init + prob) N) 8)) != 0#64)
      probs) := by
  induction probs with
  | nil => rfl
  | cons prob probs ih =>
    rw [LevelDb.probeStopping, sized.bytes?_bucket inside, ih, anyUntil]
    simp only [Option.bind_eq_bind, Option.bind_some]
    generalize BitVec.ofNat 64 (load filter (LevelDb.bucketOffset (init + prob) N) 8) = word
    generalize hasvalue16 word (BitVec.ofNat 64 (tag <<< 4 ||| prob)) = mask
    by_cases miss : mask = 0#64 <;> by_cases free : haszero16 word = 0#64 <;> simp [miss, free]

theorem LevelDb.Sized.probeStopping_eq {N : Nat} (sized : LevelDb.Sized N) {array : List Byte}
    (inside : 8 * LevelDb.ringSize N ≤ array.length) (packed : Packed (LevelDb.ringTable N array))
    (rest : List Byte) (hash : Word) :
    LevelDb.probeStopping (array ++ rest) N (LevelDb.initBuckIdx N hash) (LevelDb.tagOf hash)
        (List.range maxProb) =
      LevelDb.probe (array ++ rest) N (LevelDb.initBuckIdx N hash) (LevelDb.tagOf hash)
        (List.range maxProb) := by
  have size := sized.le
  have home := sized.initBuckIdx_lt hash
  obtain ⟨pos, bound⟩ := LevelDb.tagOf_bounds hash
  have inside' : 8 * LevelDb.ringSize N ≤ (array ++ rest).length := by
    rw [List.length_append]
    omega
  rw [sized.probeStopping_any inside', sized.probe_eq inside', Nat.shiftLeft_eq, Nat.mul_comm]
  congr 1
  exact anyUntil_probe_eq sized.lawful_start packed (by omega) pos bound
    fun d _ j slot => sized.slot_load inside rest _ slot

theorem LevelDb.Sized.ringSize_dvd {N : Nat} (sized : LevelDb.Sized N) : LevelDb.ringSize N ∣ N := by
  obtain ⟨k, _, rfl⟩ := sized
  rcases Nat.le_total k 29 with small | large
  · rw [LevelDb.ringSize, Nat.min_eq_left (Nat.pow_le_pow_right (by decide) small)]
  · rw [LevelDb.ringSize, Nat.min_eq_right (Nat.pow_le_pow_right (by decide) large)]
    exact pow_dvd_pow 2 large

theorem Pm.inserts_noGaps {N : Nat} [NeZero N] (small : 2 * N < 2 ^ 32) (keys : List Word) :
    let m := (callAll Pm.insert keys (Pm.init N)).2
    NoGaps (Pm.readTag m) N ∧ ∀ key, Pm.lookupStopping m key = Pm.lookup m key := by
  intro m
  have packed : Packed (Pm.ringTable m) := (Pm.inserter small).callAll_invariant
    (fun insertion => insertion.packed) keys trivial (Pm.ringTable_init (N := N) ▸ packed_none)
  have leading : Leading (Pm.ringTable m) := (Pm.inserter small).callAll_invariant
    (fun insertion => insertion.leading) keys trivial (Pm.ringTable_init (N := N) ▸ leading_none)
  exact ⟨noGaps_of_table (Pm.lawful small) (NeZero.pos N) dvd_rfl (by omega) packed leading,
    Pm.lookupStopping_eq small packed⟩

theorem LevelDb.Sized.inserts_noGaps {N : Nat} (sized : LevelDb.Sized N) (hashes : List Word) :
    let array := (callAll (LevelDb.insertItem 0 N) hashes (LevelDb.zeros N)).2
    NoGaps (LevelDb.readTag 0 N array) N ∧ ∀ (hash : Word) (rest : List Byte),
      LevelDb.probeStopping (array ++ rest) N (LevelDb.initBuckIdx N hash) (LevelDb.tagOf hash)
          (List.range maxProb) =
        LevelDb.probe (array ++ rest) N (LevelDb.initBuckIdx N hash) (LevelDb.tagOf hash)
          (List.range maxProb) := by
  intro array
  have := sized.neZero
  have size := sized.le
  have room := LevelDb.ringSize_le_zeros N
  have packed : Packed (LevelDb.ringTable N array) := sized.inserter.callAll_invariant
    (fun insertion => insertion.packed) hashes room LevelDb.packed_zeros
  have leading : Leading (LevelDb.ringTable N array) := sized.inserter.callAll_invariant
    (fun insertion => insertion.leading) hashes room LevelDb.leading_zeros
  exact ⟨noGaps_of_table sized.lawful_start sized.pos sized.ringSize_dvd (by omega) packed leading,
    fun hash rest => sized.probeStopping_eq (sized.inserter.callAll_ok hashes room) packed rest hash⟩

/-- In both filters an array that insertions alone built has no gaps, and a lookup that
stops at the first bucket with an empty slot answers as the sixteen probes do. The bucket
count of the persistent-memory filter is an `int`, that of the LevelDB filter a power of two. -/
theorem insert_only_noGaps :
    (∀ (N : Nat) [NeZero N], N < 2 ^ 31 → ∀ keys : List Word,
      let m := (callAll Pm.insert keys (Pm.init N)).2
      NoGaps (Pm.readTag m) N ∧ ∀ key, Pm.lookupStopping m key = Pm.lookup m key) ∧
    (∀ N : Nat, LevelDb.Sized N → ∀ hashes : List Word,
      let array := (callAll (LevelDb.insertItem 0 N) hashes (LevelDb.zeros N)).2
      NoGaps (LevelDb.readTag 0 N array) N ∧ ∀ (hash : Word) (rest : List Byte),
        LevelDb.probeStopping (array ++ rest) N (LevelDb.initBuckIdx N hash) (LevelDb.tagOf hash)
            (List.range maxProb) =
          LevelDb.probe (array ++ rest) N (LevelDb.initBuckIdx N hash) (LevelDb.tagOf hash)
            (List.range maxProb)) :=
  ⟨fun _ _ fits keys => Pm.inserts_noGaps (by omega) keys, fun _ sized hashes => sized.inserts_noGaps hashes⟩

/-- The fifth copy of a key goes to the bucket after its home. -/
theorem insert_only_noGaps_two :
    let m := (callAll Pm.insert (List.replicate 5 0#64) (Pm.init 2)).2
    Pm.readTag m 1 0 = 0x11 ∧ ∀ k < 4, Pm.readTag m (bucketBefore 2 1 1) k ≠ 0 := by
  intro m
  have value : Pm.readTag m 1 0 = 0x11 := by decide +kernel
  refine ⟨value, (insert_only_noGaps.1 2 (by decide) (List.replicate 5 0#64)).1.way 1 (by decide) 0 (by decide) ?_
    1 (by decide) ?_⟩
  · rw [value]
    decide
  · rw [value]
    decide

end WormholeFilters
